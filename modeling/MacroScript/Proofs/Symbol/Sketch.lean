import MacroScript.Proofs.Symbol.Action
import MacroScript.Proofs.Symbol.Value
import Mathlib.Data.List.Forall2

/-!
# What a table says without its values

The *sketch* of a table is what is left of it when the characters of the values are taken out and
every tag is seen through a function. The reader never looks at a value again, and at a tag only to
infer another one. So each of its steps is one on sketches, and **lines with the same code lead to
the same sketch as soon as the tags inferred on them agree** (`Collector.sketch_foldl_readLine`):
all of them for the identity, and none has to for a constant.
-/
namespace MacroScript

/-! ## 1. Sketches -/

variable (g : Tag → Tag)

def Reassignment.sketch (r : Reassignment) : Reassignment :=
  { r with value := [], tag := g r.tag }

/-- The symbol without the characters of its values, its tags seen through `g`. Names, lines and
scopes are kept. -/
def Symbol.sketch (s : Symbol) : Symbol :=
  { s with
    tag := g s.tag
    declaredValue := []
    reassignments := s.reassignments.map (Reassignment.sketch g) }

/-- The table without the characters of the values, the tags seen through `g`. -/
def Symbol.Table.sketch (table : Symbol.Table) : Symbol.Table :=
  { table with symbols := table.symbols.map (Symbol.sketch g) }

def Collector.sketch (c : Collector) : Collector :=
  { c with table := c.table.sketch g }

/-! ## 2. Questions -/

/-- Which record decides the tag on a line is told by lines, so that seeing the tags through `g`
comes to the same before and after. -/
theorem Symbol.tagOn_sketch (s : Symbol) (line : Nat) :
    (s.sketch g).tagOn line = g (s.tagOn line) := by
  have hlatest : (s.sketch g).latestAssignment line =
      (s.latestAssignment line).map (Reassignment.sketch g) := by
    unfold latestAssignment sketch
    rw [← List.map_reverse, List.find?_map]
    rfl
  unfold tagOn
  rw [hlatest]
  cases s.latestAssignment line with
  | none => rfl
  | some r =>
    cases hagain : s.redeclaredLine with
    | none => simp [sketch, hagain, Reassignment.sketch]
    | some again =>
      simp only [sketch, hagain, Reassignment.sketch, Option.map_some]
      split <;> rfl

namespace Symbol.Table

/-- Names are looked up by name and scope, which a sketch keeps. -/
theorem meaningOn_sketch (table : Table) (name : Text) (line : Nat) :
    (table.sketch g).meaningOn name line = (table.meaningOn name line).map (Symbol.sketch g) := by
  unfold meaningOn sketch
  rw [← List.map_reverse, List.find?_map]
  rfl

theorem latestOpen_sketch (table : Table) (name : Text) :
    (table.sketch g).latestOpen name = (table.latestOpen name).map (Symbol.sketch g) := by
  unfold latestOpen sketch
  rw [← List.map_reverse, List.find?_map]
  rfl

/-- The tags of names are seen through `g`, too. -/
theorem namesOn_sketch (table : Table) (line : Nat) (name : Text) :
    (table.sketch g).namesOn line name = (table.namesOn line name).map g := by
  rw [namesOn, namesOn, meaningOn_sketch, Option.map_map, Option.map_map]
  congr 1
  funext s
  exact s.tagOn_sketch g line

/-- A change of one symbol is one of its sketch, if `change'` does to a sketch what `change` does to
the symbol. -/
theorem modifySymbol_sketch (change change' : Symbol → Symbol)
    (h : ∀ s, (change s).sketch g = change' (s.sketch g)) (table : Table) (id : Nat) :
    (table.modifySymbol id change).sketch g = (table.sketch g).modifySymbol id change' := by
  have hsymbols : (table.symbols.modify id change).map (Symbol.sketch g) =
      (table.symbols.map (Symbol.sketch g)).modify id change' := by
    apply List.ext_getElem?
    intro i
    rw [List.getElem?_modify, List.getElem?_map, List.getElem?_map, List.getElem?_modify]
    cases table.symbols[i]? with
    | none => rfl
    | some s => by_cases hid : id = i <;> simp [hid, h]
  simp only [modifySymbol, sketch, hsymbols]

end Symbol.Table

/-! ## 3. Steps -/

namespace Collector

theorem endScopes_sketch (line : Nat) (ids : List Nat) (table : Symbol.Table) :
    (endScopes line ids table).sketch g = endScopes line ids (table.sketch g) := by
  induction ids generalizing table with
  | nil => rfl
  | cons id ids ih =>
    have hclose := Symbol.Table.modifySymbol_sketch g
      (fun s => { s with scope := s.scope.closeAt line })
      (fun s => { s with scope := s.scope.closeAt line }) (fun s => rfl) table id
    exact (ih _).trans (congrArg (endScopes line ids) hclose)

theorem closeFrame_sketch (c : Collector) (line : Nat) :
    (c.closeFrame line).sketch g = (c.sketch g).closeFrame line := by
  unfold closeFrame
  cases hframes : c.frames with
  | nil => simp [sketch, hframes]
  | cons frame frames =>
    have hends := endScopes_sketch g line frame.pending c.table
    simp only [sketch, hframes, ← hends]
    rfl

theorem readBrace_sketch (c : Collector) (line : Nat) :
    (c.readBrace line).sketch g = (c.sketch g).readBrace line := by
  unfold readBrace
  cases hframes : c.frames with
  | nil => simp [sketch, hframes, openFrame]
  | cons frame frames =>
    by_cases hwait : frame.awaitsBrace <;> simp [sketch, hframes, openFrame, hwait]

theorem expireHeader_sketch (c : Collector) (line : Nat) :
    (c.expireHeader line).sketch g = (c.sketch g).expireHeader line := by
  have hframes : (c.sketch g).frames = c.frames := rfl
  unfold expireHeader
  rw [hframes]
  split
  · split
    · exact closeFrame_sketch g c _
    · rfl
  · rfl

/-- What is put in comes into the sketch without its value, with its tag seen through `g`. -/
theorem insert_sketch (c : Collector) (name value : Text) (tag : Tag) (origin : Origin)
    (line : Nat) :
    (c.insert name value tag origin line).sketch g =
      (c.sketch g).insert name [] (g tag) origin line := by
  unfold insert
  cases hframes : c.frames <;> simp [sketch, hframes, Symbol.Table.sketch, Symbol.sketch]

/-- A declaration finds the same open symbol in the sketch, or none in both. -/
theorem declare_sketch (c : Collector) (name value : Text) (tag : Tag) (origin : Origin)
    (line : Nat) :
    (c.declare name value tag origin line).sketch g =
      (c.sketch g).declare name [] (g tag) origin line := by
  have htable : (c.sketch g).table = c.table.sketch g := rfl
  unfold declare
  rw [htable, Symbol.Table.latestOpen_sketch]
  cases c.table.latestOpen name with
  | none => exact insert_sketch g c name value tag origin line
  | some s =>
    simp only [Option.map_some, sketch, Collector.mk.injEq, and_true]
    refine Symbol.Table.modifySymbol_sketch g _ _ (fun s => ?_) c.table s.id
    rfl

/-- An assignment is added to the sketch as its own sketch. -/
theorem perform_assign_sketch (c : Collector) (id : Nat) (entry : Reassignment) :
    (c.perform (.assign id entry)).sketch g =
      (c.sketch g).perform (.assign id (entry.sketch g)) := by
  simp only [perform, sketch, Collector.mk.injEq, and_true]
  refine Symbol.Table.modifySymbol_sketch g _ _ (fun s => ?_) c.table id
  simp [Symbol.sketch]

theorem registerHeader_sketch (c : Collector) (kind : Frame.Kind) (name : Text) :
    (c.registerHeader kind name).sketch g = (c.sketch g).registerHeader kind name := by
  unfold registerHeader
  split
  · rfl
  · split <;> rfl

theorem readToken_sketch (line : Nat) (c : Collector) (t : Token) :
    (readToken line c t).sketch g = readToken line (c.sketch g) t := by
  unfold readToken
  split
  · exact closeFrame_sketch g c line
  · exact readBrace_sketch g c line
  · split <;> rfl
  · rfl

theorem readTokens_sketch (line : Nat) (c : Collector) (ts : List Token) :
    (ts.foldl (readToken line) c).sketch g = ts.foldl (readToken line) (c.sketch g) := by
  induction ts generalizing c with
  | nil => rfl
  | cons t ts ih => rw [List.foldl_cons, ih, readToken_sketch, List.foldl_cons]

/-- Parameters are put in with the unknown tag, which `g` may show as another one. -/
theorem insertAll_sketch (c : Collector) (names : List Text) (line : Nat) :
    (names.foldl (fun c name => c.insert name [] .any .parameter line) c).sketch g =
      names.foldl (fun c name => c.insert name [] (g .any) .parameter line) (c.sketch g) := by
  induction names generalizing c with
  | nil => rfl
  | cons name names ih => rw [List.foldl_cons, ih, insert_sketch, List.foldl_cons]

end Collector

/-! ## 4. Lines with the same code -/

/-- The two lines have the same number and the same code. -/
structure Line.SameCode (l l' : Line) : Prop where
  index : l'.index = l.index
  code : l'.code = l.code

/-- Whether a line is code is told from its code. -/
theorem Line.SameCode.isCode {l l' : Line} (h : l.SameCode l') : l'.isCode = l.isCode := by
  rw [isCode_eq, isCode_eq, isEmpty, isEmpty, h.code]

namespace Collector

/-- Declarations that differ in their values only, and in tags that look alike through `g`, lead to
the same sketch. -/
theorem sketch_declare {g : Tag → Tag} {c c' : Collector} (hc : c'.sketch g = c.sketch g)
    (name value value' : Text) {tag tag' : Tag} (htag : g tag' = g tag) (origin : Origin)
    (line : Nat) :
    (c'.declare name value' tag' origin line).sketch g =
      (c.declare name value tag origin line).sketch g := by
  rw [declare_sketch, declare_sketch, hc, htag]

section

variable {g : Tag → Tag} {l l' : Line} (hl : l.SameCode l') {c c' : Collector}
  (hc : c'.sketch g = c.sketch g)

include hl hc

/-- The first token of a line acts on the code alone, so that no tag is asked for. -/
theorem sketch_readFirst (first : Token) (tokens : List Token) :
    (c'.readFirst l' first tokens).sketch g = (c.readFirst l first tokens).sketch g := by
  unfold readFirst
  split
  · have hopen (kind : Frame.Kind) :
        (c'.openFrame kind l.index true).sketch g = (c.openFrame kind l.index true).sketch g :=
      congrArg (fun d => d.openFrame kind l.index true) hc
    unfold readHeader
    simp only [hl.index, hl.code]
    split
    · exact hopen _
    · split
      · exact hopen _
      · rw [insertAll_sketch, insertAll_sketch, registerHeader_sketch, registerHeader_sketch,
          hopen]
  · rw [hl.index, readToken_sketch, readToken_sketch, hc]

/-- The tags that are inferred for the values of the line look the same through `g`. Only the values
behind an equals sign are asked for, since no other value has a tag inferred. -/
def TagsAgree (g : Tag → Tag) (l l' : Line) (c c' : Collector) : Prop :=
  ∀ assign ∈ Token.scan l.code, assign.assigns →
    g (c'.inferOn (initializer l' assign.valueOffset) l.index) =
      g (c.inferOn (initializer l assign.valueOffset) l.index)

variable (htags : TagsAgree g l l' c c')

include htags

/-- What a `var` declares looks the same: the name is in the code, and the tag agrees by hypothesis.
-/
theorem sketch_declaredVariable (keyword : Token) :
    (c'.declareFound l'.index
        (c'.declaredVariable? l' keyword (Token.scan l.code))).sketch g =
      (c.declareFound l.index (c.declaredVariable? l keyword (Token.scan l.code))).sketch g := by
  simp only [declaredVariable?, hl.code, hl.index]
  split
  · exact hc
  · cases hassign : (Token.scan l.code).find? Token.assigns with
    | none => exact sketch_declare hc _ _ _ rfl _ _
    | some assign =>
      exact sketch_declare hc _ _ _
        (htags assign (List.mem_of_find?_eq_some hassign) (List.find?_some hassign)) _ _

/-- What a `for` declares looks the same. The items of a loop give no tag, so their characters may
differ freely. -/
theorem sketch_declaredLoopVariable :
    (c'.declareFound l'.index (c'.declaredLoopVariable? l' (Token.scan l.code))).sketch g =
      (c.declareFound l.index (c.declaredLoopVariable? l (Token.scan l.code))).sketch g := by
  unfold declaredLoopVariable?
  split
  · next first opener keyword name rest htokens =>
    split
    · have htag : g (c'.loopValue l' (Token.scan l.code) rest.head?).2 =
          g (c.loopValue l (Token.scan l.code) rest.head?).2 := by
        cases hnext : rest.head? with
        | none => rfl
        | some t =>
          have hmem : t ∈ Token.scan l.code := by
            have := List.mem_of_mem_head? hnext
            simp [htokens, this]
          simp only [loopValue, hl.index]
          split
          · next hassigns => exact htags t hmem hassigns
          · split <;> rfl
      rw [hl.index]
      exact sketch_declare hc _ _ _ htag _ _
    · exact hc
  · exact hc

/-- An assignment is recorded for the same symbol in both, with tags that look the same. -/
theorem sketch_recordAssignment :
    (c'.recordAssignment l' (Token.scan l.code)).sketch g =
      (c.recordAssignment l (Token.scan l.code)).sketch g := by
  have htables : c'.table.sketch g = c.table.sketch g := congrArg Collector.table hc
  unfold recordAssignment
  split
  · next target assign rest htokens =>
    split
    · next hassign =>
      rw [Bool.and_eq_true] at hassign
      have htag := htags assign (by simp [htokens]) hassign.2
      -- the name means the same symbol in both, as far as its id goes
      have hmeaning : (c'.table.meaningOn target.text l.index).map (Symbol.sketch g) =
          (c.table.meaningOn target.text l.index).map (Symbol.sketch g) := by
        rw [← Symbol.Table.meaningOn_sketch, ← Symbol.Table.meaningOn_sketch, htables]
      rw [hl.index]
      cases hs : c.table.meaningOn target.text l.index with
      | none =>
        rw [hs, Option.map_none, Option.map_eq_none_iff] at hmeaning
        rw [hmeaning]
        exact hc
      | some s =>
        rw [hs, Option.map_some, Option.map_eq_some_iff] at hmeaning
        obtain ⟨s', hs', hsame⟩ := hmeaning
        have hid : (s'.sketch g).id = (s.sketch g).id := by rw [hsame]
        have hid : s'.id = s.id := hid
        have hentry (value value' : Text) {tag tag' : Tag} (h : g tag' = g tag) :
            (⟨l.index, value', tag'⟩ : Reassignment).sketch g =
              (⟨l.index, value, tag⟩ : Reassignment).sketch g := by
          simp only [Reassignment.sketch, h]
        rw [hs']
        refine (perform_assign_sketch g c' s'.id _).trans ?_
        rw [hid, hc, hentry _ _ htag]
        exact (perform_assign_sketch g c s.id _).symm
    · exact hc
  · exact hc

theorem sketch_readStatement (first : Token) :
    (c'.readStatement l' first (Token.scan l.code)).sketch g =
      (c.readStatement l first (Token.scan l.code)).sketch g := by
  unfold readStatement
  split
  · exact sketch_declaredVariable hl hc htags first
  · split
    · exact sketch_declaredLoopVariable hl hc htags
    · exact sketch_recordAssignment hl hc htags

end

/-- A name that is in a table stays, so what holds of all names at the end held of them before. -/
theorem forall_name_of_performAll {P : Text → Prop} {c : Collector} {actions : List Action}
    (h : ∀ s ∈ (c.performAll actions).table.symbols, P s.name) :
    ∀ s ∈ c.table.symbols, P s.name := by
  induction actions generalizing c with
  | nil => exact h
  | cons a actions ih =>
    intro s hs
    obtain ⟨i, hi⟩ := List.mem_iff_getElem?.mp hs
    have hname : (a.change c.frames i s).name = s.name := by
      unfold Action.change
      repeat' split
      all_goals rfl
    rw [← hname]
    exact ih h _ (List.mem_of_getElem? (perform_symbol c a hi))

/-- The tags of the statement of a line agree in any two states with the same sketch whose names
satisfy `P`. The states are left open, so that this can be asked of a line by itself. -/
def LineTagsAgree (g : Tag → Tag) (P : Text → Prop) (l l' : Line) : Prop :=
  ∀ c c' : Collector, (∀ s ∈ c.table.symbols, P s.name) → c'.sketch g = c.sketch g →
    TagsAgree g l l' c c'

/-- **A line with the same code leads to the same sketch**, if its tags agree. The condition on
names is asked at the end of the line and passed back to the state in which its statement is read.
-/
theorem sketch_readLine {g : Tag → Tag} {P : Text → Prop} {l l' : Line} (hl : l.SameCode l')
    (htags : LineTagsAgree g P l l') {c c' : Collector} (hc : c'.sketch g = c.sketch g)
    (hnames : ∀ s ∈ (c.readLine l).table.symbols, P s.name) :
    (c'.readLine l').sketch g = (c.readLine l).sketch g := by
  unfold readLine at hnames ⊢
  rw [hl.code]
  cases htokens : Token.scan l.code with
  | nil => exact hc
  | cons first rest =>
    simp only [htokens] at hnames ⊢
    rw [← htokens] at hnames ⊢
    rw [hl.index]
    -- the frames are settled alike, and then the statement is read
    have hsettled :
        ((rest.foldl (readToken l.index)
            (c'.readFirst l' first (Token.scan l.code))).expireHeader l.index).sketch g =
          ((rest.foldl (readToken l.index)
            (c.readFirst l first (Token.scan l.code))).expireHeader l.index).sketch g := by
      rw [expireHeader_sketch, expireHeader_sketch, readTokens_sketch, readTokens_sketch,
        sketch_readFirst hl hc]
    generalize (rest.foldl (readToken l.index)
      (c'.readFirst l' first (Token.scan l.code))).expireHeader l.index = d' at *
    generalize (rest.foldl (readToken l.index)
      (c.readFirst l first (Token.scan l.code))).expireHeader l.index = d at *
    rw [← performAll_statementActions] at hnames
    exact sketch_readStatement hl hsettled
      (htags d d' (forall_name_of_performAll hnames) hsettled) first

/-- **Lines with the same code lead to the same sketch**, if the tags agree on each of them. -/
theorem sketch_foldl_readLine {g : Tag → Tag} {P : Text → Prop} {ls ls' : List Line}
    (h : List.Forall₂ (fun l l' => l.SameCode l' ∧ LineTagsAgree g P l l') ls ls')
    {c c' : Collector} (hc : c'.sketch g = c.sketch g)
    (hnames : ∀ s ∈ (ls.foldl readLine c).table.symbols, P s.name) :
    (ls'.foldl readLine c').sketch g = (ls.foldl readLine c).sketch g := by
  induction h generalizing c c' with
  | nil => exact hc
  | @cons l l' ls ls' hl hls ih =>
    rw [List.foldl_cons] at hnames
    have hread : ∀ s ∈ (c.readLine l).table.symbols, P s.name := by
      rw [← performAll_actionsFrom] at hnames
      exact forall_name_of_performAll hnames
    exact ih (sketch_readLine hl.1 hl.2 hc hread) hnames

end Collector

end MacroScript
