import MacroScript.Proofs.Line.Code

/-!
# The lines of a document and the document

The analysis numbers the lines of a document once; completion cuts out a line by its number, with a
scan of its own, and asks the table of the analysis about that number. Here both are compared with
the document laid out line by line (`Line.IsLayout`): the lines, each followed by the break that
ends it, are the document. **A document has one layout** (`Line.map_fst_of_isLayoutFrom`), whatever
breaks it mixes, and its lines are those of the analysis (`Line.exists_isLayout`). The line of
completion is the same one, and it finds only one line more, the empty one behind a final line feed
or in an empty document (`Line.lines_lay_out_text`).
-/
namespace MacroScript

open Text

/-! ## 1. Breaks -/

/-- The break `e` ends the line `raw`, which is the last one or not. A carriage return right before
a line feed, or at the end of the document, belongs to the break; only the last line can have no
line feed, and then there is something on it. -/
inductive Text.EndsLineWith (raw : Text) : Bool → Text → Prop
  | feed (last : Bool) (h : raw.getLast? ≠ some '\r') : EndsLineWith raw last ['\n']
  | returnFeed (last : Bool) : EndsLineWith raw last ['\r', '\n']
  | loneReturn : EndsLineWith raw true ['\r']
  | nothing (hne : raw ≠ []) (h : raw.getLast? ≠ some '\r') : EndsLineWith raw true []

/-- What is left of a piece of a document without its carriage return is a line, with a break that
depends on whether a line feed follows. -/
theorem Text.exists_break (piece : Text) :
    ∃ e, piece = dropReturn piece ++ e ∧
      (∀ last, EndsLineWith (dropReturn piece) last (e ++ ['\n'])) ∧
      (piece ≠ [] → EndsLineWith (dropReturn piece) true e) := by
  by_cases hlast : piece.getLast? = some '\r'
  · obtain ⟨raw, rfl⟩ := List.getLast?_eq_some_iff.mp hlast
    have hdrop : dropReturn (raw ++ ['\r']) = raw := by simp [dropReturn]
    rw [hdrop]
    exact ⟨['\r'], rfl, .returnFeed, fun _ => .loneReturn⟩
  · have hdrop : dropReturn piece = piece := if_neg hlast
    rw [hdrop]
    exact ⟨[], (List.append_nil piece).symm, fun last => .feed last hlast,
      fun hne => .nothing hne hlast⟩

/-- Conversely, a line and its break are a piece of a document and perhaps a line feed. Without the
feed it is the last line, and there is something on it. -/
theorem Text.EndsLineWith.exists_piece {raw e : Text} {last : Bool} (h : EndsLineWith raw last e) :
    ∃ e', '\n' ∉ e' ∧ dropReturn (raw ++ e') = raw ∧
      (e = e' ++ ['\n'] ∨ e = e' ∧ last = true ∧ raw ++ e' ≠ []) := by
  have hreturn : dropReturn (raw ++ ['\r']) = raw := by simp [dropReturn]
  have hnone (hraw : raw.getLast? ≠ some '\r') : dropReturn (raw ++ []) = raw := by
    rw [List.append_nil, dropReturn, if_neg hraw]
  cases h with
  | feed _ hraw => exact ⟨[], by simp, hnone hraw, .inl rfl⟩
  | returnFeed => exact ⟨['\r'], by decide, hreturn, .inl rfl⟩
  | loneReturn => exact ⟨['\r'], by decide, hreturn, .inr ⟨rfl, rfl, by simp⟩⟩
  | nothing hne hraw => exact ⟨[], by simp, hnone hraw, .inr ⟨rfl, rfl, by simpa using hne⟩⟩

/-! ## 2. Layouts -/

namespace Line

/-- The text of lines with their breaks. -/
def textOfRows (rows : List (Line × Text)) : Text :=
  rows.flatMap fun row => row.1.raw ++ row.2

@[simp] theorem textOfRows_nil : textOfRows [] = [] := rfl

@[simp] theorem textOfRows_cons (l : Line) (e : Text) (rows : List (Line × Text)) :
    textOfRows ((l, e) :: rows) = l.raw ++ e ++ textOfRows rows := rfl

/-- The lines with their breaks make up the text. They are numbered from `index` on, the first
starts at byte `offset` and each other one behind the break before it, no line holds a line feed,
and each has a break that can end it. The condition on a row is told by what stands before and after
it, so that it needs no recursion. -/
structure IsLayoutFrom (index offset : Nat) (rows : List (Line × Text)) (t : Text) : Prop where
  text_eq : textOfRows rows = t
  row : ∀ earlier l e later, rows = earlier ++ (l, e) :: later →
    l.index = index + earlier.length ∧ l.offset = offset + byteSize (textOfRows earlier) ∧
      '\n' ∉ l.raw ∧ EndsLineWith l.raw later.isEmpty e

/-- The lines with their breaks are a layout of the document. -/
def IsLayout (rows : List (Line × Text)) (t : Text) : Prop :=
  IsLayoutFrom 0 0 rows t

theorem isLayoutFrom_nil (index offset : Nat) : IsLayoutFrom index offset [] [] :=
  ⟨rfl, fun earlier l e later h => by simp at h⟩

/-- A layout is put together line by line: the first row, and a layout of the rest with the next
number and the next offset. -/
theorem isLayoutFrom_cons {index offset : Nat} {l : Line} {e : Text} {rows : List (Line × Text)}
    {t : Text} :
    IsLayoutFrom index offset ((l, e) :: rows) t ↔
      l.index = index ∧ l.offset = offset ∧ '\n' ∉ l.raw ∧ EndsLineWith l.raw rows.isEmpty e ∧
        ∃ rest, t = l.raw ++ e ++ rest ∧
          IsLayoutFrom (index + 1) (offset + byteSize (l.raw ++ e)) rows rest := by
  constructor
  · rintro ⟨rfl, hrow⟩
    obtain ⟨hindex, hoffset, hfeed, hend⟩ := hrow [] l e rows rfl
    refine ⟨hindex, hoffset, hfeed, hend, textOfRows rows, rfl, rfl, fun earlier k e' later h => ?_⟩
    -- a row of the rest is one of the whole, with the first row among those before it
    obtain ⟨hindex', hoffset', hrest⟩ := hrow ((l, e) :: earlier) k e' later (by rw [h]; rfl)
    rw [List.length_cons] at hindex'
    rw [textOfRows_cons, byteSize_append] at hoffset'
    exact ⟨by omega, by omega, hrest⟩
  · rintro ⟨hindex, hoffset, hfeed, hend, rest, rfl, rfl, hrow⟩
    refine ⟨rfl, fun earlier k e' later h => ?_⟩
    cases earlier with
    | nil =>
      obtain ⟨hhead, rfl⟩ := List.cons.inj h
      obtain ⟨rfl, rfl⟩ := Prod.mk.inj hhead
      exact ⟨hindex, hoffset, hfeed, hend⟩
    | cons first earlier =>
      obtain ⟨rfl, htail⟩ := List.cons.inj h
      obtain ⟨hindex', hoffset', hrest⟩ := hrow earlier k e' later htail
      rw [List.length_cons, textOfRows_cons, byteSize_append]
      exact ⟨by omega, by omega, hrest⟩

/-! ## 3. The layout of a document -/

/-- A piece that is not the last becomes a line, even if it is empty. -/
theorem number_cons (index offset : Nat) (piece : Text) {pieces : List Text} (hne : pieces ≠ []) :
    number index offset (piece :: pieces) =
      ⟨index, offset, dropReturn piece⟩ ::
        number (index + 1) (offset + byteSize piece + 1) pieces := by
  cases pieces with
  | nil => contradiction
  | cons next pieces => rw [number]

/-- **The numbered pieces have a layout.** The induction follows the numbering: each piece but the
last is ended by a line feed, and an empty last piece is no line. -/
theorem exists_isLayoutFrom (index offset : Nat) (pieces : List Text)
    (hpieces : ∀ piece ∈ pieces, '\n' ∉ piece) :
    ∃ rows, rows.map Prod.fst = number index offset pieces ∧
      IsLayoutFrom index offset rows (List.intercalate ['\n'] pieces) := by
  have hfeed {piece raw e : Text} (heq : piece = raw ++ e) (hpiece : '\n' ∉ piece) :
      '\n' ∉ raw := by
    rw [heq] at hpiece
    exact fun h => hpiece (List.mem_append_left _ h)
  fun_induction number index offset pieces with
  | case1 index offset => exact ⟨[], rfl, isLayoutFrom_nil index offset⟩
  | case2 index offset piece hempty =>
    -- behind the last line feed there is nothing, which is no line
    rw [List.isEmpty_iff] at hempty
    rw [hempty]
    exact ⟨[], rfl, isLayoutFrom_nil index offset⟩
  | case3 index offset piece hne =>
    obtain ⟨e, heq, -, hlast⟩ := exists_break piece
    refine ⟨[(⟨index, offset, dropReturn piece⟩, e)], rfl, isLayoutFrom_cons.mpr ⟨rfl, rfl,
      hfeed heq (hpieces piece List.mem_cons_self), hlast (by simpa using hne), [], ?_,
      isLayoutFrom_nil _ _⟩⟩
    rw [List.intercalate_singleton, List.append_nil]
    exact heq
  | case4 index offset piece next pieces ih =>
    obtain ⟨rows, hrows, hlayout⟩ := ih fun p hp => hpieces p (List.mem_cons_of_mem _ hp)
    obtain ⟨e, heq, hend, -⟩ := exists_break piece
    refine ⟨(⟨index, offset, dropReturn piece⟩, e ++ ['\n']) :: rows, by rw [List.map_cons, hrows],
      isLayoutFrom_cons.mpr ⟨rfl, rfl, hfeed heq (hpieces piece List.mem_cons_self), hend _,
        List.intercalate ['\n'] (next :: pieces), ?_, ?_⟩⟩
    · rw [List.intercalate_cons_cons, ← List.append_assoc, ← heq]
    · rw [← List.append_assoc, ← heq, byteSize_append, ← Nat.add_assoc]
      exact hlayout

/-- **A document has no other layout**, from wherever the numbering starts. The first row tells
where the first line feed is, and so the first piece; the rest is the layout of the rest. -/
theorem map_fst_of_isLayoutFrom {index offset : Nat} {rows : List (Line × Text)} {t : Text}
    (h : IsLayoutFrom index offset rows t) :
    rows.map Prod.fst = number index offset (List.splitOn '\n' t) := by
  induction rows generalizing index offset t with
  | nil =>
    obtain rfl := h.text_eq
    rfl
  | cons row rows ih =>
    obtain ⟨⟨index', offset', raw⟩, e⟩ := row
    obtain ⟨rfl, rfl, hraw, hend, rest, rfl, hrest⟩ := isLayoutFrom_cons.mp h
    obtain ⟨e', he', hdrop, hbreak⟩ := hend.exists_piece
    have hpiece : '\n' ∉ raw ++ e' := by
      rw [List.mem_append, not_or]
      exact ⟨hraw, he'⟩
    rcases hbreak with rfl | ⟨rfl, hlast, hne⟩
    · have hsplit : List.splitOn '\n' (raw ++ (e' ++ ['\n']) ++ rest) =
          (raw ++ e') :: List.splitOn '\n' rest := by
        rw [← List.splitOn_append_cons_self_of_not_mem hpiece rest]
        simp
      rw [hsplit, number_cons _ _ _ (List.splitOn_ne_nil _ _), hdrop, List.map_cons, ih hrest,
        ← List.append_assoc, byteSize_append (raw ++ e'), ← Nat.add_assoc]
      rfl
    · -- no line follows, so this is all of the text
      obtain rfl := List.isEmpty_iff.mp hlast
      obtain rfl := hrest.text_eq
      rw [textOfRows_nil, List.append_nil, List.splitOn_eq_singleton hpiece, number,
        if_neg (by simpa using hne), hdrop]
      rfl

/-! ## 4. The lines of completion -/

/-- Behind a line feed the text ends with one if nothing follows, or if what follows does. -/
theorem getLast?_append_feed (front rest : Text) :
    (front ++ '\n' :: rest).getLast? = some '\n' ↔ rest = [] ∨ rest.getLast? = some '\n' := by
  cases rest with
  | nil => simp
  | cons c rest => simp [List.getLast?_append]

/-- The lines are the pieces of the document, and only an empty last piece is left. -/
theorem pieces_of_number (index offset : Nat) {pieces : List Text} (hne : pieces ≠ [])
    (hpieces : ∀ piece ∈ pieces, '\n' ∉ piece) :
    (pieces.take (number index offset pieces).length).map dropReturn =
        (number index offset pieces).map raw ∧
      pieces.drop (number index offset pieces).length =
        if List.intercalate ['\n'] pieces = [] ∨
            (List.intercalate ['\n'] pieces).getLast? = some '\n'
        then [[]] else [] := by
  fun_induction number index offset pieces with
  | case1 => contradiction
  | case2 index offset piece hempty =>
    rw [List.isEmpty_iff] at hempty
    rw [hempty]
    exact ⟨rfl, rfl⟩
  | case3 index offset piece hpiece =>
    -- a last piece that is not empty is a line, and no line feed ends it
    have hlast : piece.getLast? ≠ some '\n' := fun h =>
      hpieces piece List.mem_cons_self (List.mem_of_getLast? h)
    refine ⟨rfl, ?_⟩
    rw [List.intercalate_singleton, if_neg (not_or.mpr ⟨by simpa using hpiece, hlast⟩)]
    rfl
  | case4 index offset piece next pieces ih =>
    obtain ⟨htake, hdrop⟩ := ih (by simp) fun p hp => hpieces p (List.mem_cons_of_mem _ hp)
    rw [List.length_cons, List.take_succ_cons, List.map_cons, List.map_cons, htake,
      List.drop_succ_cons, hdrop]
    refine ⟨rfl, ?_⟩
    have hjoin : List.intercalate ['\n'] (piece :: next :: pieces) =
        piece ++ '\n' :: List.intercalate ['\n'] (next :: pieces) := by simp
    have hlast := getLast?_append_feed piece (List.intercalate ['\n'] (next :: pieces))
    rw [hjoin]
    simp only [List.append_eq_nil_iff, reduceCtorEq, and_false, false_or, hlast]

theorem textOfRows_append (rows rows' : List (Line × Text)) :
    textOfRows (rows ++ rows') = textOfRows rows ++ textOfRows rows' :=
  List.flatMap_append

/-- A line stands in the document where its offset says: in front of it are the rows before. -/
theorem IsLayout.standsAt {earlier later : List (Line × Text)} {l : Line} {e t : Text}
    (h : IsLayout (earlier ++ (l, e) :: later) t) : StandsAt t l.offset l.raw := by
  obtain ⟨-, hoffset, -, -⟩ := h.row earlier l e later rfl
  rw [Nat.zero_add] at hoffset
  refine ⟨textOfRows earlier, e ++ textOfRows later, ?_, hoffset.symm⟩
  rw [← h.text_eq, textOfRows_append, textOfRows_cons]
  simp

/-- The lines of the analysis have a layout of the document. -/
theorem exists_isLayout (t : Text) :
    ∃ rows, rows.map Prod.fst = ofText t ∧ IsLayout rows t := by
  have hrows := exists_isLayoutFrom 0 0 (List.splitOn '\n' t) fun _ => not_mem_of_mem_splitOn
  rwa [List.intercalate_splitOn] at hrows

/-- **The lines of a document lay it out, and completion cuts the same lines.** The lines of the
analysis are the only ones that, each followed by its break, make up the document. Line `k` has the
number `k`, holds no line feed, stands at its offset and is what completion takes for line `k`. Of
the pieces that completion counts there is one more only behind a final line feed or in an empty
document, and it is empty. -/
theorem lines_lay_out_text (t : Text) :
    (∀ lines, lines = ofText t ↔ ∃ rows, rows.map Prod.fst = lines ∧ IsLayout rows t) ∧
    (∀ k l, (ofText t)[k]? = some l → l.index = k ∧ '\n' ∉ l.raw ∧
      slice? l.offset (l.offset + byteSize l.raw) t = some l.raw ∧ t.line? k = some l.raw) ∧
    (List.splitOn '\n' t).drop (ofText t).length =
      if t = [] ∨ t.getLast? = some '\n' then [[]] else [] := by
  obtain ⟨rows, hrows, hlayout⟩ := exists_isLayout t
  obtain ⟨hpieces, hfurther⟩ := pieces_of_number 0 0 (List.splitOn_ne_nil '\n' t)
    fun _ => not_mem_of_mem_splitOn
  rw [List.intercalate_splitOn] at hfurther
  refine ⟨fun lines => ⟨?_, ?_⟩, fun k l hl => ?_, hfurther⟩
  · rintro rfl
    exact ⟨rows, hrows, hlayout⟩
  · rintro ⟨rows', rfl, hlayout'⟩
    exact map_fst_of_isLayoutFrom hlayout'
  · -- the row of the line
    obtain ⟨⟨l, e⟩, hrow, rfl⟩ : ∃ row, rows[k]? = some row ∧ row.1 = l := by
      rw [← hrows, List.getElem?_map] at hl
      exact Option.map_eq_some_iff.mp hl
    obtain ⟨hk, hget⟩ := List.getElem?_eq_some_iff.mp hrow
    have hsplit : rows = rows.take k ++ (l, e) :: rows.drop (k + 1) := by
      rw [← hget, ← List.drop_eq_getElem_cons hk, List.take_append_drop]
    rw [hsplit] at hlayout
    obtain ⟨-, -, hfeed, -⟩ := hlayout.row _ l e _ rfl
    refine ⟨index_ofText hl, hfeed, hlayout.standsAt.slice?_eq, ?_⟩
    have hlt := (List.getElem?_eq_some_iff.mp hl).1
    calc t.line? k
        = ((List.splitOn '\n' t).take (ofText t).length)[k]?.map dropReturn := by
          rw [line?, List.getElem?_take_of_lt hlt]
      _ = ((ofText t).map raw)[k]? := by
          rw [← List.getElem?_map]
          exact congrArg (·[k]?) hpieces
      _ = some l.raw := by rw [List.getElem?_map, hl, Option.map_some]

/-- Breaks of all kinds: two carriage returns before a line feed, line feeds in a row, and a
carriage return at the end. -/
def mixedBreaks : Text :=
  "é\r\r\nb\n\n\r".toList

/-- The first of the two carriage returns belongs to its line, and the last line is empty, with the
carriage return as its break. -/
theorem lines_of_mixedBreaks :
    (ofText mixedBreaks).map (fun l => (l.offset, l.raw)) =
      [(0, ['é', '\r']), (5, ['b']), (7, []), (8, [])] ∧
    (∃ rows, rows.map Prod.fst = ofText mixedBreaks ∧ IsLayout rows mixedBreaks) ∧
    slice? 5 6 mixedBreaks = some ['b'] ∧ mixedBreaks.line? 1 = some ['b'] ∧
    (List.splitOn '\n' mixedBreaks).drop (ofText mixedBreaks).length = [] := by
  have hsecond : (ofText mixedBreaks)[1]? = some ⟨1, 5, ['b']⟩ := by decide +kernel
  obtain ⟨hlayout, hlines, hfurther⟩ := lines_lay_out_text mixedBreaks
  obtain ⟨-, -, hslice, hline⟩ := hlines 1 _ hsecond
  exact ⟨by decide +kernel, (hlayout _).mp rfl, hslice, hline, by rw [hfurther]; decide +kernel⟩

end Line

end MacroScript
