import MacroScript.Inference
import MacroScript.Proofs.Token.Name

/-!
# The tag of a name

A name whose tag is known stands for the canonical expression of that tag, and **the first shape
that fits this expression gives the tag back** (`Tag.classify_canonical`). So the tag of a value
that is nothing but a known name is the tag of the name (`Names.infer_name`).
-/
namespace MacroScript

open Text

/-! ## 1. Expressions as they stand -/

namespace Text

/-- A text that neither starts nor ends with something to strip is an expression as it stands. -/
theorem expression_of_isTrimmed {t : Text} (h : t.isTrimmed) (hlast : t.getLast? ≠ some ';') :
    expression t = t := by
  obtain ⟨ds, d, rfl, hd⟩ := exists_last_of_isTrimmed h
  have hsemicolon : dropEndWhile (· == ';') (ds ++ [d]) = ds ++ [d] := by
    rw [dropEndWhile_eq_rdropWhile]
    exact List.rdropWhile_concat_neg _ ds d (by simpa using hlast)
  rw [expression, trim_of_isTrimmed h, hsemicolon, trimEnd, dropEndWhile_eq_rdropWhile]
  exact List.rdropWhile_concat_neg _ ds d (by simp [hd])

/-- A name is an expression as it stands. -/
theorem expression_of_isName {t : Text} (h : t.isName) : expression t = t :=
  expression_of_isTrimmed (isTrimmed_of_isName h) fun hlast =>
    not_mem_of_isName h (by decide) (List.mem_of_getLast? hlast)

end Text

/-! ## 2. The tag of a name -/

/-- A text without the separator is not cut, in whichever state the scan is. -/
theorem splitFrom_of_not_mem {sep : Char} {t : Text} (h : sep ∉ t) (depth : Int) (q : Quoting)
    (before : Text) : splitFrom sep depth q before t = [t] := by
  induction t generalizing depth q before with
  | nil => cases q <;> rfl
  | cons c cs ih =>
    have hrest : sep ∉ cs := fun hmem => h (List.mem_cons_of_mem _ hmem)
    cases q with
    | outside =>
      have hcut : isCut sep depth before c cs = false := by
        rw [← Bool.not_eq_true]
        exact fun hcut => h (eq_of_isCut hcut ▸ List.mem_cons_self)
      simp only [splitFrom, hcut, ih hrest]
      rfl
    | inside quote e =>
      rw [splitFrom, ih hrest]
      rfl

theorem topLevelParts_of_isName {t : Text} (h : t.isName) : topLevelParts '.' t = [(0, t)] := by
  rw [topLevelParts, splitFrom_of_not_mem (not_mem_of_isName h (by decide))]
  rfl

/-- **The canonical expression of a tag has that tag.** The expressions are made for it: each is
tried against all rows of the table. -/
theorem Tag.classify_canonical {tag : Tag} (h : tag ≠ .any) :
    Tag.classify tag.canonical.toList = tag := by
  cases tag with
  | any => contradiction
  | _ => decide

/-- A segment that is a known name is replaced, unless nothing is known of the name but that it is
one. -/
theorem Names.segment_known {names : Names} {x : Text} (hx : x.isTrimmed) {tag : Tag}
    (hknown : names x = some tag) (htag : tag ≠ .any) :
    names.segment x = tag.canonical.toList := by
  rw [segment, trim_of_isTrimmed hx, hknown]
  split
  · next heq => exact absurd (Option.some.inj heq) htag
  · next heq => rw [Option.some.inj heq]
  · contradiction

/-- A name whose tag is known becomes the canonical expression of the tag: it is its own only
segment. -/
theorem Names.substitute_name {names : Names} {x : Text} (hx : x.isName) {tag : Tag}
    (hknown : names x = some tag) (htag : tag ≠ .any) :
    names.substitute x = tag.canonical.toList := by
  rw [substitute, expression_of_isName hx, topLevelParts_of_isName hx, List.map_singleton,
    segment_known (isTrimmed_of_isName hx) hknown htag]
  exact List.intercalate_singleton

/-- **The tag of a name is the one that is known of it.** -/
theorem Names.infer_name {names : Names} {x : Text} (hx : x.isName) {tag : Tag}
    (hknown : names x = some tag) (htag : tag ≠ .any) : names.infer x = tag := by
  rw [infer, substitute_name hx hknown htag, Tag.classify_canonical htag]

end MacroScript
