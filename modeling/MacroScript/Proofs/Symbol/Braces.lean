import MacroScript.Proofs.Symbol.Nesting

/-!
# The braces of a document

The braces and headers of all code lines, in the order of the document, are its *marks*. A header
and the brace right after it open one scope, at the header; any other brace opens one by itself, and
a closing brace closes the innermost one (`scopeEdges`). In a document in which **every header gets
its brace on its own line or on the next code line** (`HeadersBraced`) this matching, which looks at
the document as a whole, is the one that the reader's frames go through step by step (`InStep`).

The header keeps its frame waiting from its keyword to its brace. That is no more than one step of
the marks: between the two nothing else is opened or closed, and the wait does not outlast the next
code line.
-/
namespace MacroScript

/-! ## 1. Marks -/

/-- A brace or a header of a document, with its line. -/
inductive BraceMark where
  /-- The keyword of a header: `fun` or `class` at the start of a line, or any `do`. -/
  | header (line : Nat)
  /-- An opening brace. -/
  | brace (line : Nat)
  /-- A closing brace. -/
  | close (line : Nat)
deriving DecidableEq, Repr

/-- The mark of a token that is not the first of its line. -/
def tokenMark? (line : Nat) (t : Token) : Option BraceMark :=
  match t.kind with
  | .closer .curly => some (.close line)
  | .opener .curly => some (.brace line)
  | .name => if t.isWord "do" then some (.header line) else none
  | _ => none

/-- The mark of the first token of a line. There `fun` and `class` are headers as well; further on
in a line they are words like any other. -/
def firstMark? (line : Nat) (t : Token) : Option BraceMark :=
  if t.isWord "fun" || t.isWord "class" then some (.header line) else tokenMark? line t

/-- The marks of a line, from left to right. -/
def lineMarks (l : Line) : List BraceMark :=
  match Token.scan l.code with
  | [] => []
  | first :: rest => (firstMark? l.index first).toList ++ rest.filterMap (tokenMark? l.index)

/-- The openers and closers of a document: a header and the brace right after it are one opener, at
the place of the header. A header that gets no brace opens a scope all the same. -/
def scopeEdges : List BraceMark → List ScopeEdge
  | [] => []
  | .header _ :: .brace _ :: marks => .opener :: scopeEdges marks
  | .header _ :: marks => .opener :: scopeEdges marks
  | .brace _ :: marks => .opener :: scopeEdges marks
  | .close line :: marks => .closer line :: scopeEdges marks

/-- Among these code lines every header is followed, as the next mark, by an opening brace on its
own line or on the next one. (A brace that comes later finds the header's frame expired.) -/
def HeadersBraced (ls : List Line) : Prop :=
  ∀ before l after marks line rest, ls = before ++ l :: after →
    lineMarks l = marks ++ .header line :: rest →
      (∃ n more, rest = .brace n :: more) ∨
      rest = [] ∧ ∃ next after' n more, after = next :: after' ∧ lineMarks next = .brace n :: more

/-- The mark is an opening brace. -/
def BraceMark.isBrace : BraceMark → Bool
  | .brace _ => true
  | _ => false

/-- Each header among the marks of a line is followed by a brace, there or at the start of the marks
of the next line, which are `next`. -/
def bracedOnLine (next : List BraceMark) : List BraceMark → Bool
  | [] => true
  | .header _ :: rest => (rest ++ next).head?.any BraceMark.isBrace && bracedOnLine next rest
  | _ :: rest => bracedOnLine next rest

/-- The check of `HeadersBraced`, line by line, so that it can be evaluated on a document. -/
def checkBraced : List Line → Bool
  | [] => true
  | l :: ls => bracedOnLine ((ls.head?.map lineMarks).getD []) (lineMarks l) && checkBraced ls

/-- The check of a line goes on to what is left of it, as each header is judged by what follows it.
-/
theorem bracedOnLine_of_append {next front marks : List BraceMark}
    (h : bracedOnLine next (front ++ marks)) : bracedOnLine next marks := by
  induction front with
  | nil => exact h
  | cons mark front ih =>
    cases mark with
    | header line =>
      rw [List.cons_append, bracedOnLine, Bool.and_eq_true] at h
      exact ih h.2
    | brace | close => exact ih h

/-- The check is sound: it finds the brace of every header. -/
theorem headersBraced_of_check {ls : List Line} (h : checkBraced ls) : HeadersBraced ls := by
  intro before l after marks line rest hls hmarks
  -- the check goes through the lines in their order, down to the line of the header
  induction before generalizing ls with
  | cons b before ih =>
    subst hls
    rw [List.cons_append, checkBraced, Bool.and_eq_true] at h
    exact ih h.2 rfl
  | nil =>
    subst hls
    rw [List.nil_append, checkBraced, Bool.and_eq_true, hmarks] at h
    have hnext := bracedOnLine_of_append h.1
    rw [bracedOnLine, Bool.and_eq_true] at hnext
    cases rest with
    | cons mark rest =>
      cases mark with
      | brace n => exact .inl ⟨n, rest, rfl⟩
      | header | close => simp [BraceMark.isBrace] at hnext
    | nil =>
      refine .inr ⟨rfl, ?_⟩
      cases after with
      | nil => simp at hnext
      | cons next after =>
        cases hfirst : lineMarks next with
        | nil => simp [hfirst] at hnext
        | cons mark more =>
          cases mark with
          | brace n => exact ⟨next, after, n, more, rfl, hfirst⟩
          | header | close => simp [hfirst, BraceMark.isBrace] at hnext

/-- The marks of a line bear its number: none of them comes from another line. -/
theorem line_eq_of_header_mem {l : Line} {line : Nat} (h : .header line ∈ lineMarks l) :
    line = l.index := by
  have htoken {t : Token} (ht : tokenMark? l.index t = some (.header line)) : line = l.index := by
    unfold tokenMark? at ht
    split at ht
    · simp at ht
    · simp at ht
    · split at ht <;> simp_all
    · simp at ht
  unfold lineMarks at h
  split at h
  · simp at h
  · rcases List.mem_append.mp h with h | h
    · rw [Option.mem_toList] at h
      unfold firstMark? at h
      split at h
      · simpa using h.symm
      · exact htoken h
    · obtain ⟨t, -, ht⟩ := List.mem_filterMap.mp h
      exact htoken ht

/-- What one more mark adds: the brace of a header adds nothing to it. -/
def edgesAfter (last : Option BraceMark) (mark : BraceMark) : List ScopeEdge :=
  match last, mark with
  | some (.header _), .brace _ => []
  | _, .close line => [.closer line]
  | _, _ => [.opener]

/-- The edges can be told mark by mark, from left to right, if the last mark before is known. This
is the form in which the reader comes to them. -/
theorem scopeEdges_concat (marks : List BraceMark) (mark : BraceMark) :
    scopeEdges (marks ++ [mark]) = scopeEdges marks ++ edgesAfter marks.getLast? mark := by
  fun_induction scopeEdges marks with
  | case1 => cases mark <;> rfl
  | case2 line n marks ih =>
    rw [List.cons_append, List.cons_append, scopeEdges, ih, List.cons_append]
    cases marks <;> cases mark <;> simp [edgesAfter]
  | case3 line marks hnot ih =>
    cases marks with
    | nil => cases mark <;> rfl
    | cons next marks =>
      cases next with
      | brace n => exact absurd rfl (hnot n marks)
      | header n | close n =>
        rw [List.cons_append, scopeEdges, ih]
        · simp
        · simp
  | case4 line marks ih =>
    rw [List.cons_append, scopeEdges, ih]
    cases marks <;> cases mark <;> simp [edgesAfter]
  | case5 line marks ih =>
    rw [List.cons_append, scopeEdges, ih]
    cases marks <;> cases mark <;> simp [edgesAfter]

/-- Each header that is not the last mark is followed by a brace. The last one may still wait for
it. -/
def BracesFollow (marks : List BraceMark) : Prop :=
  ∀ line next, [.header line, next] <:+: marks → ∃ n, next = .brace n

/-- What holds of the marks of a document holds of those up to any point. -/
theorem BracesFollow.of_append {marks more : List BraceMark} (h : BracesFollow (marks ++ more)) :
    BracesFollow marks :=
  fun line next hpair => h line next (hpair.trans (List.prefix_append marks more).isInfix)

/-- If the last mark is a header, one more mark can only be its brace. -/
theorem BracesFollow.of_getLast? {marks : List BraceMark} {mark : BraceMark}
    (h : BracesFollow (marks ++ [mark])) {line : Nat}
    (hlast : marks.getLast? = some (.header line)) : ∃ n, mark = .brace n := by
  obtain ⟨front, rfl⟩ := List.getLast?_eq_some_iff.mp hlast
  exact h line mark ⟨front, [], by simp⟩

/-- A document stays braced if its first line is taken off, since a header looks forward only. -/
theorem HeadersBraced.tail {l : Line} {ls : List Line} (h : HeadersBraced (l :: ls)) :
    HeadersBraced ls :=
  fun before l' after marks line rest hls hmarks =>
    h (l :: before) l' after marks line rest (by rw [hls, List.cons_append]) hmarks

/-- In the document as a whole, too, a header is followed by a brace: the marks of the next code
line come right after those of its own. -/
theorem HeadersBraced.bracesFollow {ls : List Line} (h : HeadersBraced ls) :
    BracesFollow (ls.flatMap lineMarks) := by
  rintro line next ⟨front, back, heq⟩
  induction ls generalizing front with
  | nil => simp at heq
  | cons l ls ih =>
    rw [List.flatMap_cons, List.append_assoc] at heq
    rcases List.append_eq_append_iff.mp heq with ⟨more, hfront, hrest⟩ | ⟨more, hfront, hrest⟩
    · -- the header stands on the first line, or its brace does not
      cases more with
      | nil => exact ih h.tail [] (by rw [List.append_assoc]; exact hrest)
      | cons mark more =>
        obtain ⟨rfl, hnext⟩ := List.cons.inj hrest
        rcases h [] l ls front line more rfl hfront with
          ⟨n, marks, rfl⟩ | ⟨rfl, l', ls', n, marks, rfl, hmarks⟩
        · exact ⟨n, (List.cons.inj hnext).1⟩
        · rw [List.flatMap_cons, hmarks] at hnext
          exact ⟨n, (List.cons.inj hnext).1⟩
    · exact ih h.tail more (by rw [List.append_assoc]; exact hrest.symm)

/-- A header that is the last mark up to a line stands on that line: the brace of an earlier one has
come by then. -/
theorem HeadersBraced.line_eq_of_getLast? {before after : List Line} {l : Line} {line : Nat}
    (h : HeadersBraced (before ++ l :: after))
    (hlast : ((before ++ [l]).flatMap lineMarks).getLast? = some (.header line)) :
    (lineMarks l).getLast? = some (.header line) := by
  induction before using List.reverseRecOn generalizing l after with
  | nil => simpa using hlast
  | append_singleton before l' ih =>
    rw [List.flatMap_append, List.flatMap_singleton, List.getLast?_append] at hlast
    cases hmarks : (lineMarks l).getLast? with
    | some mark =>
      rw [hmarks, Option.some_or] at hlast
      exact hlast
    | none =>
      rw [hmarks, Option.none_or] at hlast
      rw [List.append_assoc] at h
      obtain ⟨marks, hmarks'⟩ := List.getLast?_eq_some_iff.mp (ih h hlast)
      rcases h before l' (l :: after) marks line [] rfl hmarks' with
        ⟨n, more, hnil⟩ | ⟨-, next, after', n, more, hnext, hbrace⟩
      · contradiction
      · obtain ⟨rfl, -⟩ := List.cons.inj hnext
        rw [hbrace, List.getLast?_eq_none_iff] at hmarks
        contradiction

/-! ## 2. Waiting for a brace -/

namespace Collector

/-- For each frame, the innermost first, whether it waits for its brace, and its line. What the
frames hold is left out, so that actions which only add symbols do not change it. -/
def waits (c : Collector) : List (Bool × Nat) :=
  c.frames.map fun f => (f.awaitsBrace, f.openedAt)

/-- After a header its own frame waits, and that is the innermost; no other frame waits, and after
any other mark none does. -/
def WaitsAfter (last : Option BraceMark) (waits : List (Bool × Nat)) : Prop :=
  match last with
  | some (.header line) => ∃ rest, waits = (true, line) :: rest ∧ ∀ w ∈ rest, w.1 = false
  | _ => ∀ w ∈ waits, w.1 = false

/-- After anything but a header no frame waits. -/
theorem waitsAfter_iff_of_not_header {last : Option BraceMark} {waits : List (Bool × Nat)}
    (h : ∀ line, last ≠ some (.header line)) :
    WaitsAfter last waits ↔ ∀ w ∈ waits, w.1 = false := by
  unfold WaitsAfter
  split
  · next line => exact absurd rfl (h line)
  · rfl

/-- The action neither opens nor closes a frame, nor takes a brace. Most of what a line does is
quiet: its header's name and parameters, and its statement. -/
def Action.isQuiet : Action → Bool
  | .openFrame .. | .closeFrame _ | .takeBrace => false
  | _ => true

/-- A quiet action is neither an opener nor a closer. -/
theorem Action.edge?_of_isQuiet {a : Action} (h : a.isQuiet) : a.edge? = none := by
  cases a <;> simp_all [isQuiet, edge?]

/-- A quiet action leaves the frames as they are, but for what they hold. -/
theorem waits_perform_of_isQuiet (c : Collector) {a : Action} (h : a.isQuiet) :
    (c.perform a).waits = c.waits := by
  cases a with
  | openFrame | closeFrame | takeBrace => simp [Action.isQuiet] at h
  | register kind name =>
    simp only [perform, registerHeader]
    split
    · rfl
    · split <;> rfl
  | insert name value tag origin line =>
    cases hframes : c.frames <;> simp [perform, insert, waits, hframes]
  | retag id tag line => rfl
  | assign id entry => rfl

theorem edges_of_isQuiet {as : List Action} (h : ∀ a ∈ as, a.isQuiet) : edges as = [] := by
  rw [edges, List.filterMap_eq_nil_iff]
  exact fun a ha => Action.edge?_of_isQuiet (h a ha)

/-- So do any number of them. -/
theorem waits_performAll_of_isQuiet (c : Collector) {as : List Action}
    (h : ∀ a ∈ as, a.isQuiet) : (c.performAll as).waits = c.waits := by
  induction as generalizing c with
  | nil => rfl
  | cons a as ih =>
    rw [performAll_cons, ih _ fun b hb => h b (List.mem_cons_of_mem _ hb),
      waits_perform_of_isQuiet c (h a List.mem_cons_self)]

/-- A header opens its frame, and all else that it does is quiet. What it puts in are parameters, on
its own line. -/
theorem headerActions_eq (l : Line) (keyword : Token) (tokens : List Token) :
    ∃ kind quiet, headerActions l keyword tokens = .openFrame kind l.index true :: quiet ∧
      (∀ a ∈ quiet, a.isQuiet) ∧
      ∀ name value tag origin line, .insert name value tag origin line ∈ quiet →
        origin = .parameter ∧ line = l.index := by
  unfold headerActions
  refine ⟨_, _, rfl, ?_⟩
  split
  · exact ⟨by simp, by simp⟩
  · split
    · exact ⟨by simp, by simp⟩
    · constructor
      · intro a ha
        rcases List.mem_cons.mp ha with rfl | ha
        · rfl
        · obtain ⟨name, -, rfl⟩ := List.mem_map.mp ha
          rfl
      · intro name value tag origin line ha
        rcases List.mem_cons.mp ha with ha | ha
        · simp at ha
        · obtain ⟨name, -, heq⟩ := List.mem_map.mp ha
          rw [parameterAction, Action.insert.injEq] at heq
          obtain ⟨-, -, -, rfl, rfl⟩ := heq
          exact ⟨rfl, rfl⟩

/-- The statement of a line is quiet: it declares or assigns, and leaves the nesting alone. -/
theorem isQuiet_of_mem_statementActions {c : Collector} {l : Line} {first : Token}
    {tokens : List Token} {a : Action} (h : a ∈ c.statementActions l first tokens) : a.isQuiet := by
  rcases statementActions_cases c l first tokens with hnil | ⟨b, hone, hb⟩
  · simp [hnil] at h
  · rw [hone, List.mem_singleton] at h
    subst h
    cases hb <;> rfl

/-! ## 3. The reader goes in step with the marks -/

/-- A reader that has performed these actions is in step with the marks read so far: it opened and
closed what they open and close, and waits for a brace exactly after a header. The actions are kept
as a list since their edges are compared with those of the marks as a whole. -/
structure InStep (c : Collector) (as : List Action) (marks : List BraceMark) : Prop where
  edges_eq : edges as = scopeEdges marks
  waits : WaitsAfter marks.getLast? c.waits

namespace InStep

variable {c : Collector} {as : List Action} {marks : List BraceMark}

/-- Quiet actions keep step without a further mark. -/
theorem performAll_of_isQuiet (h : InStep c as marks) {bs : List Action}
    (hquiet : ∀ b ∈ bs, b.isQuiet) : InStep (c.performAll bs) (as ++ bs) marks := by
  refine ⟨?_, ?_⟩
  · rw [edges_append, edges_of_isQuiet hquiet, List.append_nil]
    exact h.edges_eq
  · rw [waits_performAll_of_isQuiet c hquiet]
    exact h.waits

/-- A closing brace closes the innermost frame, and none waits below it. It must not come right
after a header: that would close the header's own frame while it waits. -/
theorem closeFrame (h : InStep c as marks) (line : Nat)
    (hnot : ∀ n, marks.getLast? ≠ some (.header n)) :
    InStep (c.closeFrame line) (as ++ [.closeFrame line]) (marks ++ [.close line]) := by
  have hwaits := (waitsAfter_iff_of_not_header hnot).mp h.waits
  refine ⟨?_, ?_⟩
  · rw [edges_append, h.edges_eq, scopeEdges_concat]
    cases marks.getLast? with
    | none => rfl
    | some last => cases last <;> rfl
  · rw [List.getLast?_concat]
    intro w hw
    unfold Collector.closeFrame at hw
    cases hframes : c.frames with
    | nil => simp [Collector.waits, hframes] at hw
    | cons frame frames =>
      refine hwaits w ?_
      simp only [hframes, Collector.waits] at hw ⊢
      exact List.mem_cons_of_mem _ hw

/-- A header opens a frame that waits for its brace. It must not come right after another header, or
two frames would wait. -/
theorem openHeader (h : InStep c as marks) (kind : Frame.Kind) (line : Nat)
    (hnot : ∀ n, marks.getLast? ≠ some (.header n)) :
    InStep (c.openFrame kind line true) (as ++ [.openFrame kind line true])
      (marks ++ [.header line]) := by
  have hwaits := (waitsAfter_iff_of_not_header hnot).mp h.waits
  refine ⟨?_, ?_⟩
  · rw [edges_append, h.edges_eq, scopeEdges_concat]
    cases marks.getLast? with
    | none => rfl
    | some last => cases last <;> rfl
  · rw [List.getLast?_concat]
    exact ⟨c.waits, rfl, hwaits⟩

/-- A brace goes to the header before it, or opens a block. Which of the two the reader does is seen
from its frames, and `InStep` says that they agree with the last mark. -/
theorem readBrace (h : InStep c as marks) (line : Nat) :
    InStep (c.readBrace line) (as ++ [c.braceAction line]) (marks ++ [.brace line]) := by
  have hwaits := h.waits
  rw [← perform_braceAction]
  by_cases hheader : ∃ n, marks.getLast? = some (.header n)
  · -- the header's frame is the innermost one and takes the brace
    obtain ⟨n, hlast⟩ := hheader
    rw [hlast] at hwaits
    obtain ⟨rest, hcons, hrest⟩ := hwaits
    cases hframes : c.frames with
    | nil => simp [Collector.waits, hframes] at hcons
    | cons frame frames =>
      simp only [Collector.waits, hframes, List.map_cons, List.cons.injEq, Prod.mk.injEq] at hcons
      obtain ⟨⟨hawaits, -⟩, rfl⟩ := hcons
      have haction : c.braceAction line = .takeBrace := by simp [braceAction, hframes, hawaits]
      rw [haction]
      refine ⟨?_, ?_⟩
      · rw [edges_append, h.edges_eq, scopeEdges_concat, hlast]
        rfl
      · rw [List.getLast?_concat]
        intro w hw
        simp only [perform, hframes, Collector.waits, List.map_cons, List.mem_cons] at hw
        rcases hw with rfl | hw
        · rfl
        · exact hrest w hw
  · -- no frame waits, so the brace opens one of its own
    have hnot : ∀ n, marks.getLast? ≠ some (.header n) := fun n hn => hheader ⟨n, hn⟩
    have hnone := (waitsAfter_iff_of_not_header hnot).mp hwaits
    have haction : c.braceAction line = .openFrame .block line false := by
      unfold braceAction
      cases hframes : c.frames with
      | nil => rfl
      | cons frame frames =>
        have hidle := hnone (frame.awaitsBrace, frame.openedAt) (by simp [Collector.waits, hframes])
        simp only at hidle
        simp [hidle]
    rw [haction]
    refine ⟨?_, ?_⟩
    · rw [edges_append, h.edges_eq, scopeEdges_concat]
      cases hlast : marks.getLast? with
      | none => rfl
      | some last =>
        cases last with
        | header n => exact absurd hlast (hnot n)
        | brace | close => rfl
    · rw [List.getLast?_concat]
      intro w hw
      rcases List.mem_cons.mp hw with rfl | hw
      · rfl
      · exact hnone w hw

/-- **One token keeps step**, if a header is followed by nothing but its brace. The hypothesis rules
out the two cases in which a closing brace or a header runs into one that waits. -/
theorem readToken (h : InStep c as marks) (line : Nat) (t : Token)
    (hnext : ∀ n mark, marks.getLast? = some (.header n) → tokenMark? line t = some mark →
      ∃ k, mark = .brace k) :
    InStep (readToken line c t) (as ++ tokenActions line c t)
      (marks ++ (tokenMark? line t).toList) := by
  unfold Collector.readToken tokenActions
  fun_cases tokenMark? line t with
  | case1 hkind =>
    rw [hkind]
    refine h.closeFrame line fun n hn => ?_
    -- behind a header there is no closing brace
    obtain ⟨k, hk⟩ := hnext n (.close line) hn (by simp [tokenMark?, hkind])
    simp at hk
  | case2 hkind =>
    rw [hkind]
    exact h.readBrace line
  | case3 hkind hdo =>
    rw [hkind]
    simp only [hdo, if_true]
    refine h.openHeader .doBlock line fun n hn => ?_
    -- nor is there another header
    obtain ⟨k, hk⟩ := hnext n (.header line) hn (by simp [tokenMark?, hkind, hdo])
    simp at hk
  | case4 hkind hdo =>
    rw [hkind]
    simpa [hdo] using h
  | case5 hcloser hopener hname =>
    split
    · next hkind => exact absurd hkind hcloser
    · next hkind => exact absurd hkind hopener
    · next hkind => exact absurd hkind hname
    · simpa using h

/-- The tokens of a line after the first keep step, one after the other. -/
theorem readTokens (h : InStep c as marks) (line : Nat) (ts : List Token)
    (hfollow : BracesFollow (marks ++ ts.filterMap (tokenMark? line))) :
    InStep (c.performAll (tokensActions line c ts)) (as ++ tokensActions line c ts)
      (marks ++ ts.filterMap (tokenMark? line)) := by
  induction ts generalizing c as marks with
  | nil => simpa [tokensActions] using h
  | cons t ts ih =>
    have hsplit : marks ++ (t :: ts).filterMap (tokenMark? line) =
        marks ++ (tokenMark? line t).toList ++ ts.filterMap (tokenMark? line) := by
      rw [List.filterMap_cons, List.append_assoc]
      cases tokenMark? line t <;> rfl
    rw [hsplit] at hfollow ⊢
    have hstep := h.readToken line t fun n mark hlast hmark => by
      have hone := hfollow.of_append
      rw [hmark, Option.toList_some] at hone
      exact hone.of_getLast? hlast
    rw [tokensActions, performAll_append, performAll_tokenActions, ← List.append_assoc]
    exact ih hstep hfollow

/-- The first token of a line keeps step as well. If it is a header of a function or a class, what
it does after opening its frame is quiet. -/
theorem readFirst (h : InStep c as marks) (l : Line) (first : Token) (tokens : List Token)
    (hfollow : BracesFollow (marks ++ (firstMark? l.index first).toList)) :
    InStep (c.performAll (c.firstActions l first tokens)) (as ++ c.firstActions l first tokens)
      (marks ++ (firstMark? l.index first).toList) := by
  unfold firstActions
  unfold firstMark? at hfollow ⊢
  split
  · next hheader =>
    rw [if_pos hheader, Option.toList_some] at hfollow
    obtain ⟨kind, quiet, hactions, hquiet, -⟩ := headerActions_eq l first tokens
    rw [hactions, performAll_cons, List.append_cons]
    refine (h.openHeader kind l.index fun n hn => ?_).performAll_of_isQuiet hquiet
    obtain ⟨k, hk⟩ := hfollow.of_getLast? hn
    simp at hk
  · next hheader =>
    rw [if_neg hheader] at hfollow
    rw [performAll_tokenActions]
    refine h.readToken l.index first fun n mark hlast hmark => ?_
    rw [hmark, Option.toList_some] at hfollow
    exact hfollow.of_getLast? hlast

/-- A header waits on its own line only, so that none expires. -/
theorem expiryActions_eq_nil (h : InStep c as marks) {line : Nat}
    (hlast : ∀ n, marks.getLast? = some (.header n) → n = line) : c.expiryActions line = [] := by
  have hwaits := h.waits
  unfold expiryActions
  cases hframes : c.frames with
  | nil => rfl
  | cons frame frames =>
    rw [Collector.waits, hframes, List.map_cons] at hwaits
    by_cases hheader : ∃ n, marks.getLast? = some (.header n)
    · obtain ⟨n, hn⟩ := hheader
      rw [hn] at hwaits
      obtain ⟨rest, hcons, -⟩ := hwaits
      have hopened : frame.openedAt = n := congrArg Prod.snd (List.cons.inj hcons).1
      simp [hopened, hlast n hn]
    · have hidle := (waitsAfter_iff_of_not_header fun n hn => hheader ⟨n, hn⟩).mp hwaits _
        List.mem_cons_self
      simp only at hidle
      simp [hidle]

end InStep

/-- **The frames of a line keep step.** Its tokens do, and nothing expires at its end, since a
header that still waits there stands on this very line. -/
theorem InStep.frameActions {before after : List Line} {l : Line} {first : Token}
    {rest : List Token} {c : Collector} {as : List Action}
    (h : InStep c as (before.flatMap lineMarks)) (hbraced : HeadersBraced (before ++ l :: after))
    (hscan : Token.scan l.code = first :: rest) :
    InStep (c.performAll (c.frameActions l first rest)) (as ++ c.frameActions l first rest)
      ((before ++ [l]).flatMap lineMarks) := by
  have hmarks : (before ++ [l]).flatMap lineMarks = before.flatMap lineMarks ++
      (firstMark? l.index first).toList ++ rest.filterMap (tokenMark? l.index) := by
    rw [List.flatMap_append, List.flatMap_singleton, lineMarks, hscan, List.append_assoc]
  have hfollow : BracesFollow ((before ++ [l]).flatMap lineMarks) := by
    have hall := hbraced.bracesFollow
    rw [List.append_cons, List.flatMap_append] at hall
    exact hall.of_append
  -- a header that still waits is on this very line, so no frame expires at its end
  have hlast : ∀ n, ((before ++ [l]).flatMap lineMarks).getLast? = some (.header n) →
      n = l.index := fun n hn =>
    line_eq_of_header_mem (List.mem_of_getLast? (hbraced.line_eq_of_getLast? hn))
  rw [hmarks] at hfollow hlast ⊢
  have hnested := (h.readFirst l first (first :: rest) hfollow.of_append).readTokens l.index rest
    hfollow
  unfold Collector.frameActions
  simp only
  rw [hnested.expiryActions_eq_nil hlast, List.append_nil, performAll_append, ← List.append_assoc]
  exact hnested

/-- **The reader goes in step with the braces of the document**, line after line. The induction
takes lines off the end, as `BracesFollow` is known of the marks up to each line. -/
theorem inStep_lines {before after : List Line} (hbraced : HeadersBraced (before ++ after)) :
    InStep (before.foldl readLine {}) (actionsFrom {} before) (before.flatMap lineMarks) := by
  induction before using List.reverseRecOn generalizing after with
  | nil => exact ⟨rfl, by simp [WaitsAfter, waits]⟩
  | append_singleton before l ih =>
    rw [List.append_assoc] at hbraced
    have h := ih hbraced
    rw [List.foldl_append, List.foldl_cons, List.foldl_nil, actionsFrom_append,
      ← performAll_lineActions]
    simp only [actionsFrom, List.append_nil]
    unfold lineActions
    cases hscan : Token.scan l.code with
    | nil => simpa [lineMarks, hscan] using h
    | cons first rest =>
      have hframes := h.frameActions hbraced hscan
      simp only
      rw [performAll_append, ← List.append_assoc]
      exact hframes.performAll_of_isQuiet fun a ha => isQuiet_of_mem_statementActions ha

end Collector

end MacroScript
