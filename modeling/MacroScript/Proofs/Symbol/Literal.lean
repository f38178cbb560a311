import MacroScript.Proofs.Inference.Literal
import MacroScript.Proofs.Symbol.Sketch

/-!
# Tables and the inside of literals

Two documents with the same code, line by line, differ only in comments and between the quotes of
double-quoted literals. Their tables have the same symbols, with the same names, scopes and lines,
whatever the literals hold. **They have the same tags, too, where the literals are plain**
(`table_of_sameCode`), since a plain value has the tag that its code has with hollow
literals.

The tag of a value that is not plain can depend on what its literals hold: the shapes take a closing
bracket between quotes for the end of an argument list (`tag_from_bracket_in_literal`).
-/
namespace MacroScript

open Text

/-! ## 1. Tags of values -/

/-- Whether a text starts with a word without quotes does not depend on what its literals hold. -/
theorem isPrefixOf_hollow {word : Text} (hword : '"' ∉ word) (t : Text) :
    word.isPrefixOf (hollow t) = word.isPrefixOf t := by
  have hsome (t : Text) : word.isPrefixOf t = (dropWord? word t).isSome := by
    cases hstarts : word.isPrefixOf t <;> simp [dropWord?, hstarts]
  rw [hsome, hsome, Shape.dropWord?_hollow hword, Option.isSome_map]

/-- The names of a table hold no double quotes if those of its symbols do not. -/
theorem Symbol.Table.isQuoteless_namesOn {table : Symbol.Table}
    (h : ∀ s ∈ table.symbols, '"' ∉ s.name) (line : Nat) : (table.namesOn line).IsQuoteless := by
  intro name hquote
  rw [namesOn, Option.map_eq_none_iff, meaningOn, List.find?_eq_none]
  intro s hs hmeant
  rw [Bool.and_eq_true, beq_iff_eq] at hmeant
  exact h s (List.mem_reverse.mp hs) (hmeant.1 ▸ hquote)

namespace Collector

/-- **The tag of a plain value is the one that it has with hollow literals.** That the names hold no
double quotes keeps a literal from being taken for a name. -/
theorem inferOn_hollow {c : Collector} (hnames : ∀ s ∈ c.table.symbols, '"' ∉ s.name) {value : Text}
    (h : isPlain value) (line : Nat) : c.inferOn (hollow value) line = c.inferOn value line := by
  rw [inferOn, inferOn, ← hollow_trimStart, isPrefixOf_hollow (by decide),
    Names.infer_hollow (Symbol.Table.isQuoteless_namesOn hnames line) h]

/-- States with the same sketch infer the same tags: what is asked of a table are the tags of its
names on a line, and a sketch with the identity keeps those. -/
theorem inferOn_of_sketch {c c' : Collector} (h : c'.sketch id = c.sketch id) (value : Text)
    (line : Nat) : c'.inferOn value line = c.inferOn value line := by
  have htables : c'.table.sketch id = c.table.sketch id := congrArg Collector.table h
  have hnames : c'.table.namesOn line = c.table.namesOn line := by
    funext name
    have hsame := congrArg (fun table => Symbol.Table.namesOn table line name) htables
    simpa only [Symbol.Table.namesOn_sketch, Option.map_id, id] using hsame
  rw [inferOn, inferOn, hnames]

/-- Nothing is asked of tags that all look the same. With this the sketch without tags is compared
by the same theorem as the one with them. -/
theorem lineTagsAgree_const (tag : Tag) (P : Text → Prop) (l l' : Line) :
    LineTagsAgree (fun _ => tag) P l l' := by
  intro c c' hnames hc assign hassign hassigns
  rfl

/-- Lines with the same characters under their code have the same tags, as they have the same
values. -/
theorem lineTagsAgree_of_body {l l' : Line} (hl : l.SameCode l') (hbody : l'.body = l.body)
    (P : Text → Prop) : LineTagsAgree id P l l' := by
  intro c c' hnames hc assign hassign hassigns
  obtain ⟨tail, hraw⟩ := l.exists_raw_eq
  obtain ⟨tail', hraw'⟩ := l'.exists_raw_eq
  rw [hbody] at hraw'
  have halike : l.ReadsAlike l' := .of_body hl.index hl.code hraw hraw' l.byteSize_body
  rw [halike.initializer (isBoundary_valueOffset hassign hassigns), inferOn_of_sketch hc]

/-- **Plain lines with the same code have the same tags**, if no name holds a double quote. Their
values differ only inside literals, and hollow they are equal. -/
theorem lineTagsAgree_of_isPlain {l l' : Line} (hl : l.SameCode l') (h : isPlain l.body)
    (h' : isPlain l'.body) : LineTagsAgree id (fun name => '"' ∉ name) l l' := by
  intro c c' hnames hc assign hassign hassigns
  obtain ⟨front, value, back, hbody, hfront, hmask, hvalue⟩ := exists_value hassign hassigns
  obtain ⟨front', value', back', hbody', hfront', hmask', hvalue'⟩ :=
    exists_value (l := l') (hl.code ▸ hassign) hassigns
  have hplain {body front value back : Text} (hbody : body = front ++ value ++ back)
      (hfront : Quoting.outside.past isDoubleQuote front = .outside) (h : isPlain body) :
      isPlain value := by
    rw [hbody, List.append_assoc] at h
    exact isPlain_of_isPrefix (List.prefix_append value back) (isPlain_of_append hfront h)
  -- both values have the hollow literals of the value in the code
  have hhollow : hollow (trim value') = hollow (trim value) := by
    rw [hollow_trim, hollow_trim, ← hollow_mask value', ← hollow_mask value, hmask, hmask', hl.code]
  have htag : c.inferOn (trim value') l.index = c.inferOn (trim value) l.index := by
    rw [← inferOn_hollow hnames (isPlain_trim (hplain hbody' hfront' h')), hhollow,
      inferOn_hollow hnames (isPlain_trim (hplain hbody hfront h))]
  rw [hvalue, hvalue', inferOn_of_sketch hc, htag]

end Collector

/-! ## 2. Documents with the same code -/

/-- Documents with the same code have lines of the same number that pair up with it. -/
theorem Line.forall₂_sameCode {t t' : Text}
    (h : (Line.ofText t').map Line.code = (Line.ofText t).map Line.code) :
    List.Forall₂ Line.SameCode (Line.ofText t) (Line.ofText t') := by
  have hlength : (Line.ofText t).length = (Line.ofText t').length := by
    simpa using (congrArg List.length h).symm
  refine List.forall₂_iff_get.mpr ⟨hlength, fun k hk hk' => ⟨?_, ?_⟩⟩
  · rw [List.get_eq_getElem, List.get_eq_getElem, Line.index_ofText (List.getElem?_eq_getElem hk),
      Line.index_ofText (List.getElem?_eq_getElem hk')]
  · have hget := congrArg (fun codes => codes[k]?) h
    simpa [hk, hk'] using hget

/-- Lines with the same code give tables with the same sketch, if the tags agree on each line. What
`P` asks is asked of the names that end up in the table. -/
theorem Symbol.Table.sketch_ofLines {g : Tag → Tag} {P : Text → Prop} {lines lines' : List Line}
    (h : List.Forall₂ (fun l l' => l.SameCode l' ∧ Collector.LineTagsAgree g P l l') lines lines')
    (hnames : ∀ s ∈ (ofLines lines).symbols, P s.name) :
    (ofLines lines').sketch g = (ofLines lines).sketch g := by
  have hcode := List.rel_filter (p := Line.isCode) (q := Line.isCode)
    (fun l l' hl => iff_of_eq (congrArg (· = true) hl.1.isCode.symm)) h
  exact congrArg Collector.table (Collector.sketch_foldl_readLine (c := {}) hcode rfl hnames)

/-- The tags of two lines with the same code cannot differ: they have the same characters in front
of their comments, or are both plain. -/
def Line.LiteralsAlike (l l' : Line) : Prop :=
  l'.body = l.body ∨ isPlain l.body ∧ isPlain l'.body

/-- In both cases the tags of the two lines agree. -/
theorem Line.LiteralsAlike.lineTagsAgree {l l' : Line} (h : l.LiteralsAlike l')
    (hl : l.SameCode l') : Collector.LineTagsAgree id (fun name => '"' ∉ name) l l' := by
  rcases h with hbody | ⟨hplain, hplain'⟩
  · exact Collector.lineTagsAgree_of_body hl hbody _
  · exact Collector.lineTagsAgree_of_isPlain hl hplain hplain'

/-- **What a table owes to the inside of literals.** Let two documents have the same code, line by
line. Then their tables are the same but for the characters of the values and the tags. The tags are
the same as well if no declared name holds a double quote and each two lines either have the same
characters in front of their comments, or are both plain: no quotes of other kinds stand outside
their double-quoted literals, and no closing round bracket inside them. -/
theorem table_of_sameCode (t t' : Text)
    (hcode : (Line.ofText t').map Line.code = (Line.ofText t).map Line.code) :
    (Symbol.Table.ofText t').sketch (fun _ => .any) =
        (Symbol.Table.ofText t).sketch (fun _ => .any) ∧
      ((∀ s ∈ (Symbol.Table.ofText t).symbols, '"' ∉ s.name) →
        List.Forall₂ Line.LiteralsAlike (Line.ofText t) (Line.ofText t') →
        (Symbol.Table.ofText t').sketch id = (Symbol.Table.ofText t).sketch id) := by
  have hlines := Line.forall₂_sameCode hcode
  refine ⟨?_, fun hnames hliterals => ?_⟩
  · refine Symbol.Table.sketch_ofLines (P := fun _ => True) (hlines.imp fun l l' hl => ?_)
      fun _ _ => trivial
    exact ⟨hl, Collector.lineTagsAgree_const .any _ l l'⟩
  · refine Symbol.Table.sketch_ofLines (P := fun name => '"' ∉ name) ?_ hnames
    have hboth := List.forall₂_iff_zip.mp hliterals
    refine List.forall₂_iff_zip.mpr ⟨hboth.1, fun hmem => ?_⟩
    have hl := (List.forall₂_iff_zip.mp hlines).2 hmem
    exact ⟨hl, (hboth.2 hmem).lineTagsAgree hl⟩

/-- A region, a match found in it, and a quote of another kind. -/
def markedText : Text :=
  "var r = Region(\"a\"); // x\nvar m = r.find(\"b.c\");\nm = 'it';".toList

/-- The document with other characters between its double quotes, one of them an escaped quote, and
another comment. -/
def remarkedText : Text :=
  "var r = Region(\"'\"); //\nvar m = r.find(\"\\\"x\");\nm = 'it';".toList

theorem table_of_remarkedText :
    (Line.ofText remarkedText).map Line.code = (Line.ofText markedText).map Line.code ∧
      (∀ s ∈ (Symbol.Table.ofText markedText).symbols, '"' ∉ s.name) ∧
      List.Forall₂ Line.LiteralsAlike (Line.ofText markedText) (Line.ofText remarkedText) ∧
      (Symbol.Table.ofText remarkedText).sketch (fun _ => .any) =
        (Symbol.Table.ofText markedText).sketch (fun _ => .any) ∧
      (Symbol.Table.ofText remarkedText).sketch id = (Symbol.Table.ofText markedText).sketch id ∧
      (Symbol.Table.ofText markedText).symbols.map (fun s => s.tag) =
        [.regionValue, .regionMatch] := by
  have hcode :
      (Line.ofText remarkedText).map Line.code = (Line.ofText markedText).map Line.code := by
    decide +kernel
  have hnames : ∀ s ∈ (Symbol.Table.ofText markedText).symbols, '"' ∉ s.name := by decide +kernel
  have hliterals :
      List.Forall₂ Line.LiteralsAlike (Line.ofText markedText) (Line.ofText remarkedText) := by
    refine .cons (.inr ?_) (.cons (.inr ?_) (.cons (.inl ?_) .nil)) <;> decide +kernel
  obtain ⟨hsketch, htags⟩ := table_of_sameCode markedText remarkedText hcode
  exact ⟨hcode, hnames, hliterals, hsketch, htags hnames hliterals, by decide +kernel⟩

/-- A region whose text holds a call that looks like one of its own. -/
def deceptiveText : Text :=
  "var r = Region(\").find(\");".toList

/-- The region with another text of the same length. -/
def honestText : Text :=
  "var r = Region(\"aaaaaaa\");".toList

/-- **A closing bracket inside a literal can decide a tag.** -/
theorem tag_from_bracket_in_literal :
    (Line.ofText honestText).map Line.code = (Line.ofText deceptiveText).map Line.code ∧
      (Symbol.Table.ofText honestText).symbols.map (fun s => s.tag) = [.regionValue] ∧
      (Symbol.Table.ofText deceptiveText).symbols.map (fun s => s.tag) = [.regionMatch] := by
  decide +kernel

end MacroScript
