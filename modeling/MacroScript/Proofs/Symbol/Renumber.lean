import MacroScript.Symbol.Collector
import Mathlib.Data.List.Forall2
import Mathlib.Order.Monotone.Basic

/-!
# Renumbered lines

The reader of symbols compares line numbers and keeps them, but never counts with them. So **if the
numbers of the lines are mapped by a strictly increasing function, the table is the same up to that
map** (`foldl_readLine_renumber`): each question to a table and each step of the reader commutes
with it.
-/
namespace MacroScript

/-! ## 1. The map on tables -/

/-- The scope with the numbers of its lines mapped. A global scope has none. -/
def Scope.renumber (f : Nat → Nat) : Scope → Scope
  | global => global
  | block start stop => block (f start) (stop.map f)

def Reassignment.renumber (f : Nat → Nat) (r : Reassignment) : Reassignment :=
  { r with line := f r.line }

/-- The symbol with the numbers of all its lines mapped. Its id is a place in the table and not a
line, and stays. -/
def Symbol.renumber (f : Nat → Nat) (s : Symbol) : Symbol :=
  { s with
    declaredLine := f s.declaredLine
    reassignments := s.reassignments.map (Reassignment.renumber f)
    redeclaredLine := s.redeclaredLine.map f
    scope := s.scope.renumber f }

/-- The table with the numbers of all its lines mapped. -/
def Symbol.Table.renumber (f : Nat → Nat) (table : Symbol.Table) : Symbol.Table :=
  { table with
    symbols := table.symbols.map (Symbol.renumber f)
    doBlockEnds := table.doBlockEnds.map f }

def Frame.renumber (f : Nat → Nat) (frame : Frame) : Frame :=
  { frame with openedAt := f frame.openedAt }

/-- The collector with the numbers of all lines mapped, those of its table and those of its open
frames. -/
def Collector.renumber (f : Nat → Nat) (c : Collector) : Collector :=
  { table := c.table.renumber f, frames := c.frames.map (Frame.renumber f) }

/-- The line elsewhere: the same characters, under the mapped number. Its offset in the document may
be any, since the reader of symbols does not use it. -/
structure Line.IsMoved (f : Nat → Nat) (l l' : Line) : Prop where
  index : l'.index = f l.index
  raw : l'.raw = l.raw

theorem Line.IsMoved.code {f : Nat → Nat} {l l' : Line} (h : l.IsMoved f l') :
    l'.code = l.code :=
  congrArg codeOf h.raw

variable {f : Nat → Nat}

/-! ## 2. Questions -/

/-- Whether a line is in a scope is told by comparisons, and a strictly increasing map keeps those
in both directions. -/
theorem Scope.contains_renumber (hf : StrictMono f) (scope : Scope) (line : Nat) :
    (scope.renumber f).contains (f line) = scope.contains line := by
  cases scope with
  | global => rfl
  | block start stop => cases stop <;> simp [renumber, contains, hf.le_iff_le]

theorem Scope.isOpen_renumber (scope : Scope) : (scope.renumber f).isOpen = scope.isOpen := by
  cases scope with
  | global => rfl
  | block start stop => cases stop <;> rfl

theorem Scope.closeAt_renumber (scope : Scope) (line : Nat) :
    (scope.renumber f).closeAt (f line) = (scope.closeAt line).renumber f := by
  cases scope <;> rfl

namespace Symbol

/-- The search for the latest assignment compares lines only, so it stops at the same one. -/
theorem latestAssignment_renumber (hf : StrictMono f) (s : Symbol) (line : Nat) :
    (s.renumber f).latestAssignment (f line) =
      (s.latestAssignment line).map (Reassignment.renumber f) := by
  unfold latestAssignment renumber
  rw [← List.map_reverse, List.find?_map]
  simp only [Function.comp_def, Reassignment.renumber, hf.le_iff_le]

/-- The tag on a line is the same, as the record that decides is. -/
theorem tagOn_renumber (hf : StrictMono f) (s : Symbol) (line : Nat) :
    (s.renumber f).tagOn (f line) = s.tagOn line := by
  unfold tagOn
  rw [latestAssignment_renumber hf]
  cases s.latestAssignment line with
  | none => rfl
  | some r =>
    cases hagain : s.redeclaredLine with
    | none => simp [renumber, hagain, Reassignment.renumber]
    | some again =>
      simp [renumber, hagain, Reassignment.renumber, hf.le_iff_le, hf.lt_iff_lt]

namespace Table

/-- A name means the same symbol on a line. -/
theorem meaningOn_renumber (hf : StrictMono f) (table : Table) (name : Text) (line : Nat) :
    (table.renumber f).meaningOn name (f line) =
      (table.meaningOn name line).map (Symbol.renumber f) := by
  unfold meaningOn renumber
  rw [← List.map_reverse, List.find?_map]
  simp only [Function.comp_def, Symbol.renumber, Scope.contains_renumber hf]

/-- Which symbol of a name is open does not depend on lines at all. -/
theorem latestOpen_renumber (table : Table) (name : Text) :
    (table.renumber f).latestOpen name = (table.latestOpen name).map (Symbol.renumber f) := by
  unfold latestOpen renumber
  rw [← List.map_reverse, List.find?_map]
  simp only [Function.comp_def, Symbol.renumber, Scope.isOpen_renumber]

/-- What is known of names on a line is unchanged, which is all that inference asks of a table. -/
theorem namesOn_renumber (hf : StrictMono f) (table : Table) (line : Nat) :
    (table.renumber f).namesOn (f line) = table.namesOn line := by
  funext name
  unfold namesOn
  rw [meaningOn_renumber hf, Option.map_map]
  congr 1
  funext s
  exact s.tagOn_renumber hf line

theorem declaresBy_renumber (hf : StrictMono f) (table : Table) (name : Text) (line : Nat) :
    (table.renumber f).declaresBy name (f line) = table.declaresBy name line := by
  simp only [declaresBy, renumber, List.any_map, Function.comp_def, Symbol.renumber, hf.le_iff_le]

end Table

end Symbol

/-- Halving takes the same way through a mapped window: at each step it compares the item with one
entry. The window has to be within the list, since the default entry outside it is not mapped. -/
theorem halvingPlace_map (hf : StrictMono f) (items : List Nat) (item base size : Nat)
    (hwindow : base + size ≤ items.length) :
    halvingPlace (items.map f) (f item) base size = halvingPlace items item base size := by
  fun_induction halvingPlace items item base size with
  | case1 base size hsmall => rw [halvingPlace, if_pos hsmall]
  | case2 base size hlarge middle ih =>
    have hlt : base + size / 2 < items.length := by omega
    have hget : (items.map f).getD (base + size / 2) 0 = f (items.getD (base + size / 2) 0) := by
      simp [List.getD_eq_getElem?_getD, List.getElem?_eq_getElem hlt]
    rw [halvingPlace, if_neg hlarge]
    simp only [hget, hf.lt_iff_lt]
    exact ih (by split <;> omega)

/-- The search for the end of a `do` block ends at the same place, and finds there what it looked
for before. -/
theorem Symbol.Table.endsDoBlockOn_renumber (hf : StrictMono f) (table : Symbol.Table)
    (line : Nat) :
    (table.renumber f).endsDoBlockOn (f line) = table.endsDoBlockOn line := by
  unfold endsDoBlockOn halvingContains renumber
  rw [List.length_map, halvingPlace_map hf _ _ _ _ (by omega), List.getElem?_map]
  generalize table.doBlockEnds[halvingPlace table.doBlockEnds line 0 table.doBlockEnds.length]? =
    found
  cases found <;> simp [hf.injective.eq_iff]

/-! ## 3. Steps -/

/-- A change of one symbol commutes with renumbering if it does so for every symbol. -/
theorem Symbol.Table.modifySymbol_renumber {change change' : Symbol → Symbol}
    (h : ∀ s, change' (s.renumber f) = (change s).renumber f) (table : Symbol.Table) (id : Nat) :
    (table.renumber f).modifySymbol id change' = (table.modifySymbol id change).renumber f := by
  have hsymbols : (table.symbols.map (Symbol.renumber f)).modify id change' =
      (table.symbols.modify id change).map (Symbol.renumber f) := by
    apply List.ext_getElem?
    intro i
    rw [List.getElem?_modify, List.getElem?_map, List.getElem?_map, List.getElem?_modify]
    cases table.symbols[i]? with
    | none => rfl
    | some s => by_cases hid : id = i <;> simp [hid, h]
  simp only [modifySymbol, renumber, hsymbols]

namespace Collector

theorem endScopes_renumber (line : Nat) (ids : List Nat) (table : Symbol.Table) :
    endScopes (f line) ids (table.renumber f) = (endScopes line ids table).renumber f := by
  induction ids generalizing table with
  | nil => rfl
  | cons id ids ih =>
    have hclose :
        ((table.renumber f).modifySymbol id fun s => { s with scope := s.scope.closeAt (f line) }) =
          (table.modifySymbol id fun s => { s with scope := s.scope.closeAt line }).renumber f :=
      Symbol.Table.modifySymbol_renumber
        (fun s => by simp only [Symbol.renumber, Scope.closeAt_renumber]) table id
    exact (congrArg (endScopes (f line) ids) hclose).trans (ih _)

theorem closeFrame_renumber (c : Collector) (line : Nat) :
    (c.renumber f).closeFrame (f line) = (c.closeFrame line).renumber f := by
  unfold closeFrame
  cases hframes : c.frames with
  | nil => simp [renumber, hframes]
  | cons frame frames =>
    have hends := endScopes_renumber (f := f) line frame.pending c.table
    simp only [renumber, hframes, List.map_cons, Frame.renumber, hends]
    by_cases hdo : frame.kind = .doBlock <;> simp [hdo, Symbol.Table.renumber]

theorem readBrace_renumber (c : Collector) (line : Nat) :
    (c.renumber f).readBrace (f line) = (c.readBrace line).renumber f := by
  unfold readBrace
  cases hframes : c.frames with
  | nil => simp [renumber, hframes, openFrame, Frame.renumber]
  | cons frame frames =>
    by_cases hwait : frame.awaitsBrace <;>
      simp [renumber, hframes, openFrame, Frame.renumber, hwait]

/-- A header expires in both states or in neither: that its line is another one than the line just
read is kept, as the map is injective. -/
theorem expireHeader_renumber (hf : StrictMono f) (c : Collector) (line : Nat) :
    (c.renumber f).expireHeader (f line) = (c.expireHeader line).renumber f := by
  have hclose (n : Nat) := closeFrame_renumber (f := f) c n
  unfold expireHeader
  cases hframes : c.frames with
  | nil => simp [renumber, hframes]
  | cons frame frames =>
    have hsame : (f frame.openedAt != f line) = (frame.openedAt != line) := by
      simp [bne, hf.injective.eq_iff]
    have hmapped : (c.renumber f).frames = frame.renumber f :: frames.map (Frame.renumber f) := by
      simp [renumber, hframes]
    simp only [hmapped, Frame.renumber, hsame, hclose]
    split <;> rfl

theorem insert_renumber (c : Collector) (name value : Text) (tag : Tag) (origin : Origin)
    (line : Nat) :
    (c.renumber f).insert name value tag origin (f line) =
      (c.insert name value tag origin line).renumber f := by
  unfold insert
  cases hframes : c.frames <;>
    simp [renumber, hframes, Symbol.Table.renumber, Symbol.renumber, Scope.renumber, Frame.renumber]

/-- A declaration finds the same open symbol or none, and so does the same in both states. -/
theorem declare_renumber (c : Collector) (name value : Text) (tag : Tag) (origin : Origin)
    (line : Nat) :
    (c.renumber f).declare name value tag origin (f line) =
      (c.declare name value tag origin line).renumber f := by
  unfold declare
  rw [show (c.renumber f).table = c.table.renumber f from rfl,
    Symbol.Table.latestOpen_renumber]
  cases c.table.latestOpen name with
  | none => exact insert_renumber c name value tag origin line
  | some s =>
    simp only [Option.map_some, renumber, Collector.mk.injEq, and_true]
    refine Symbol.Table.modifySymbol_renumber (fun s => ?_) c.table s.id
    simp [Symbol.renumber]

theorem inferOn_renumber (hf : StrictMono f) (c : Collector) (value : Text) (line : Nat) :
    (c.renumber f).inferOn value (f line) = c.inferOn value line := by
  simp only [inferOn, renumber, Symbol.Table.namesOn_renumber hf]

theorem registerHeader_renumber (c : Collector) (kind : Frame.Kind) (name : Text) :
    (c.renumber f).registerHeader kind name = (c.registerHeader kind name).renumber f := by
  unfold registerHeader
  split
  · rfl
  · split <;> rfl

theorem insertAll_renumber (c : Collector) (names : List Text) (line : Nat) :
    names.foldl (fun c name => c.insert name [] .any .parameter (f line)) (c.renumber f) =
      (names.foldl (fun c name => c.insert name [] .any .parameter line) c).renumber f := by
  induction names generalizing c with
  | nil => rfl
  | cons name names ih => rw [List.foldl_cons, insert_renumber, ih, List.foldl_cons]

theorem readToken_renumber (line : Nat) (c : Collector) (t : Token) :
    readToken (f line) (c.renumber f) t = (readToken line c t).renumber f := by
  unfold readToken
  split
  · exact closeFrame_renumber c line
  · exact readBrace_renumber c line
  · split <;> rfl
  · rfl

theorem readTokens_renumber (line : Nat) (c : Collector) (ts : List Token) :
    ts.foldl (readToken (f line)) (c.renumber f) = (ts.foldl (readToken line) c).renumber f := by
  induction ts generalizing c with
  | nil => rfl
  | cons t ts ih => rw [List.foldl_cons, readToken_renumber, ih, List.foldl_cons]

/-! ## 4. Lines -/

section

variable {l l' : Line} (hl : l.IsMoved f l')

include hl

/-- The characters of a line are the same, and a value is made of nothing else. -/
theorem initializer_of_isMoved (start : Nat) : initializer l' start = initializer l start := by
  rw [initializer, initializer, hl.code, hl.raw]

/-- A header opens its frame on the mapped line, and takes its name and its parameters from the same
characters. -/
theorem readHeader_renumber (c : Collector) (keyword : Token) (tokens : List Token) :
    (c.renumber f).readHeader l' keyword tokens = (c.readHeader l keyword tokens).renumber f := by
  unfold readHeader
  simp only [hl.index, hl.code]
  rw [show (c.renumber f).openFrame _ (f l.index) true = (c.openFrame _ l.index true).renumber f
    from rfl]
  split
  · rfl
  · split
    · rfl
    · rw [registerHeader_renumber, insertAll_renumber]

theorem readFirst_renumber (c : Collector) (first : Token) (tokens : List Token) :
    (c.renumber f).readFirst l' first tokens = (c.readFirst l first tokens).renumber f := by
  unfold readFirst
  split
  · exact readHeader_renumber hl c first tokens
  · rw [hl.index]
    exact readToken_renumber l.index c first

/-- What a `var` declares is the same, tag included: the names that its value may use are known
alike on the mapped line. -/
theorem declaredVariable?_renumber (hf : StrictMono f) (c : Collector) (keyword : Token)
    (tokens : List Token) :
    (c.renumber f).declaredVariable? l' keyword tokens =
      c.declaredVariable? l keyword tokens := by
  simp only [declaredVariable?, hl.index, hl.code, initializer_of_isMoved hl, inferOn_renumber hf]

theorem loopValue_renumber (hf : StrictMono f) (c : Collector) (tokens : List Token)
    (t : Option Token) :
    (c.renumber f).loopValue l' tokens t = c.loopValue l tokens t := by
  cases t with
  | none => rfl
  | some t =>
    simp only [loopValue, initializer_of_isMoved hl, hl.index, inferOn_renumber hf, loopItems,
      hl.code, hl.raw]

theorem declaredLoopVariable?_renumber (hf : StrictMono f) (c : Collector)
    (tokens : List Token) :
    (c.renumber f).declaredLoopVariable? l' tokens = c.declaredLoopVariable? l tokens := by
  simp only [declaredLoopVariable?, loopValue_renumber hl hf]

theorem declareFound_renumber (c : Collector) (found : Option Declared) :
    (c.renumber f).declareFound l'.index found = (c.declareFound l.index found).renumber f := by
  rw [hl.index]
  cases found with
  | none => rfl
  | some d => exact declare_renumber c _ _ _ _ _

/-- An assignment is recorded for the same symbol, on the mapped line. -/
theorem recordAssignment_renumber (hf : StrictMono f) (c : Collector) (tokens : List Token) :
    (c.renumber f).recordAssignment l' tokens = (c.recordAssignment l tokens).renumber f := by
  unfold recordAssignment
  split
  · next target assign rest =>
    split
    · rw [hl.index, show (c.renumber f).table = c.table.renumber f from rfl,
        Symbol.Table.meaningOn_renumber hf]
      cases c.table.meaningOn target.text l.index with
      | none => rfl
      | some s =>
        simp only [Option.map_some, initializer_of_isMoved hl, inferOn_renumber hf]
        simp only [renumber, Collector.mk.injEq, and_true]
        refine Symbol.Table.modifySymbol_renumber (fun s => ?_) c.table s.id
        simp [Symbol.renumber, Reassignment.renumber]
    · rfl
  · rfl

theorem readStatement_renumber (hf : StrictMono f) (c : Collector) (first : Token)
    (tokens : List Token) :
    (c.renumber f).readStatement l' first tokens = (c.readStatement l first tokens).renumber f := by
  unfold readStatement
  split
  · rw [declaredVariable?_renumber hl hf, declareFound_renumber hl]
  · split
    · rw [declaredLoopVariable?_renumber hl hf, declareFound_renumber hl]
    · exact recordAssignment_renumber hl hf c tokens

/-- **Reading a line commutes with renumbering**, since each of the steps above does. -/
theorem readLine_renumber (hf : StrictMono f) (c : Collector) :
    (c.renumber f).readLine l' = (c.readLine l).renumber f := by
  unfold readLine
  rw [hl.code]
  split
  · rfl
  · next first rest =>
    simp only [hl.index]
    rw [readFirst_renumber hl, readTokens_renumber, expireHeader_renumber hf,
      readStatement_renumber hl hf]

end

/-- **Reading lines commutes with renumbering**, by induction over the two lists side by side. -/
theorem foldl_readLine_renumber (hf : StrictMono f) {ls ls' : List Line}
    (h : List.Forall₂ (Line.IsMoved f) ls ls') (c : Collector) :
    ls'.foldl readLine (c.renumber f) = (ls.foldl readLine c).renumber f := by
  induction h generalizing c with
  | nil => rfl
  | cons hl _ ih => rw [List.foldl_cons, readLine_renumber hl hf, ih, List.foldl_cons]

end Collector

end MacroScript
