import MacroScript.Text.Lemmas
import MacroScript.Text.Word
import Mathlib.Data.List.DropRight

/-!
# Parts of a text

A part of a text is known by the byte at which it stands (`StandsAt`). Parts of parts are parts, at
the sum of the two offsets. Whatever the scans of a text return, a cut between two boundaries, an
occurrence, a whole word or the text without the white space around it, is a part at the offset that
they give. **An offset computed from such pieces is therefore a boundary**, however many of them go
into the sum.
-/
namespace MacroScript

namespace Text

/-! ## 1. Standing in a text -/

/-- The text `t` stands in `whole` at byte `base`. The rest of `whole` is left open, so that the two
ends of a part are known without the texts around it. -/
def StandsAt (whole : Text) (base : Nat) (t : Text) : Prop :=
  ∃ front back, whole = front ++ t ++ back ∧ byteSize front = base

theorem standsAt_self (t : Text) : StandsAt t 0 t :=
  ⟨[], [], by simp, rfl⟩

namespace StandsAt

variable {whole t s : Text} {base k : Nat}

/-- **A part of a part is a part**, at the sum of the two offsets. -/
theorem trans (h : StandsAt whole base t) (hs : StandsAt t k s) : StandsAt whole (base + k) s := by
  obtain ⟨front, back, rfl, rfl⟩ := h
  obtain ⟨front', back', rfl, rfl⟩ := hs
  exact ⟨front ++ front', back' ++ back, by simp, by simp⟩

/-- The front of a part stands where the part does. -/
theorem left (h : StandsAt whole base (s ++ t)) : StandsAt whole base s := by
  obtain ⟨front, back, rfl, rfl⟩ := h
  exact ⟨front, t ++ back, by simp, rfl⟩

/-- The back of a part stands after its front. -/
theorem right (h : StandsAt whole base (s ++ t)) : StandsAt whole (base + byteSize s) t := by
  obtain ⟨front, back, rfl, rfl⟩ := h
  exact ⟨front ++ s, back, by simp, by simp⟩

theorem cons (h : StandsAt whole base t) (c : Char) :
    StandsAt (c :: whole) (c.utf8Size + base) t := by
  obtain ⟨front, back, rfl, rfl⟩ := h
  exact ⟨c :: front, back, rfl, rfl⟩

theorem of_isPrefix (h : StandsAt whole base t) (hs : s <+: t) : StandsAt whole base s := by
  obtain ⟨more, rfl⟩ := hs
  exact h.left

/-- A part does not reach beyond the whole. -/
theorem stop_le (h : StandsAt whole base t) : base + byteSize t ≤ byteSize whole := by
  obtain ⟨front, back, rfl, rfl⟩ := h
  simp only [byteSize_append]
  omega

/-- A part starts at a boundary, since a whole text stands before it. -/
theorem isBoundary_start (h : StandsAt whole base t) : isBoundary base whole := by
  obtain ⟨front, back, rfl, rfl⟩ := h
  exact isBoundary_iff.mpr ⟨front, t ++ back, by simp, rfl⟩

theorem isBoundary_stop (h : StandsAt whole base t) : isBoundary (base + byteSize t) whole := by
  obtain ⟨front, back, rfl, rfl⟩ := h
  exact isBoundary_iff.mpr ⟨front ++ t, back, rfl, by simp⟩

/-- The cut from the start of a part to its end is the part. In particular the cut does not fail, as
both are boundaries. -/
theorem slice?_eq (h : StandsAt whole base t) :
    slice? base (base + byteSize t) whole = some t := by
  rw [slice?, h.isBoundary_start, h.isBoundary_stop]
  obtain ⟨front, back, rfl, rfl⟩ := h
  rw [List.append_assoc, between_append]
  simp

end StandsAt

theorem isBoundary_byteSize (t : Text) : isBoundary (byteSize t) t := by
  have h := (standsAt_self t).isBoundary_stop
  rwa [Nat.zero_add] at h

/-- A cut between two boundaries in their order never fails. -/
theorem exists_slice? {t : Text} {start stop : Nat} (hstart : isBoundary start t)
    (hstop : isBoundary stop t) (hle : start ≤ stop) : ∃ part, slice? start stop t = some part := by
  refine ⟨between start stop t, ?_⟩
  simp [slice?, hstart, hstop, hle]

/-- What follows a boundary stands there, up to the end of the text. -/
theorem standsAt_dropBytes {n : Nat} {t : Text} (h : isBoundary n t) :
    StandsAt t n (dropBytes n t) := by
  obtain ⟨u, v, rfl, rfl⟩ := isBoundary_iff.mp h
  exact ⟨u, [], by simp, rfl⟩

/-- Of two cuts of one text, the first in bytes comes first, and what stands between them is a text
of its own. Each character has at least one byte, so that no two cuts have the same size. -/
theorem exists_middle {u v u' v' : Text} (heq : u ++ v = u' ++ v')
    (hle : byteSize u ≤ byteSize u') : ∃ m, u' = u ++ m ∧ v = m ++ v' := by
  rcases List.append_eq_append_iff.mp heq with hmiddle | ⟨m, rfl, rfl⟩
  · exact hmiddle
  · rw [byteSize_append] at hle
    obtain rfl : m = [] := byteSize_eq_zero.mp (by omega)
    exact ⟨[], by simp, by simp⟩

/-- Two boundaries cut out what stands between them, with the right number of bytes in front of both
ends. -/
theorem exists_between {start stop : Nat} {t : Text} (hstart : isBoundary start t)
    (hstop : isBoundary stop t) (hle : start ≤ stop) :
    ∃ front back, t = front ++ between start stop t ++ back ∧ byteSize front = start ∧
      byteSize (front ++ between start stop t) = stop := by
  obtain ⟨u, v, rfl, rfl⟩ := isBoundary_iff.mp hstart
  obtain ⟨u', v', heq, rfl⟩ := isBoundary_iff.mp hstop
  obtain ⟨m, rfl, rfl⟩ := exists_middle heq hle
  have hbetween : between (byteSize u) (byteSize (u ++ m)) (u ++ (m ++ v')) = m := by
    rw [byteSize_append]
    exact between_append u m v'
  exact ⟨u, v', by rw [hbetween, List.append_assoc], rfl, by rw [hbetween]⟩

theorem standsAt_between {start stop : Nat} {t : Text} (hstart : isBoundary start t)
    (hstop : isBoundary stop t) (hle : start ≤ stop) : StandsAt t start (between start stop t) := by
  obtain ⟨front, back, heq, hfront, -⟩ := exists_between hstart hstop hle
  exact ⟨front, back, heq, hfront⟩

/-- What stands between two boundaries stands in what they cut out, as many bytes from its start as
it stands from the first boundary. -/
theorem StandsAt.between {start stop n : Nat} {t s : Text} (hs : StandsAt t n s)
    (hstart : isBoundary start t) (hstop : isBoundary stop t) (hle : start ≤ n)
    (hge : n + byteSize s ≤ stop) : StandsAt (between start stop t) (n - start) s := by
  obtain ⟨front, back, heq, hfront, hmiddle⟩ := exists_between hstart hstop (by omega)
  obtain ⟨front', back', heq', rfl⟩ := hs
  generalize Text.between start stop t = m at *
  rw [heq, List.append_assoc] at heq'
  obtain ⟨m₁, rfl, -⟩ := exists_middle (heq'.trans (List.append_assoc ..)) (by omega)
  rw [← List.append_assoc] at heq'
  obtain ⟨m₂, hm, -⟩ := exists_middle heq'.symm (by rw [byteSize_append]; omega)
  refine ⟨m₁, m₂, ?_, by rw [byteSize_append]; omega⟩
  rw [List.append_assoc, List.append_assoc] at hm
  rw [List.append_cancel_left hm, List.append_assoc]

/-! ## 2. Ends -/

/-- Taking characters off the end of a text is what the library does for any list, so that its
lemmas hold here. -/
theorem dropEndWhile_eq_rdropWhile (p : Char → Bool) (t : Text) :
    dropEndWhile p t = t.rdropWhile p := rfl

/-- Characters are taken off the front of two texts only if nothing is left of the back. -/
theorem dropEndWhile_append (p : Char → Bool) (t u : Text) :
    dropEndWhile p (t ++ u) =
      if (dropEndWhile p u).isEmpty then dropEndWhile p t else t ++ dropEndWhile p u := by
  simp only [dropEndWhile, List.reverse_append, List.dropWhile_append, List.isEmpty_reverse]
  split
  · rfl
  · rw [List.reverse_append, List.reverse_reverse]

/-- A character that stays keeps what stands before it. -/
theorem dropEndWhile_append_cons {p : Char → Bool} {c : Char} (hc : p c = false) (t u : Text) :
    dropEndWhile p (t ++ c :: u) = t ++ c :: dropEndWhile p u := by
  have hcons : dropEndWhile p (c :: u) = c :: dropEndWhile p u := by
    rw [← List.singleton_append, dropEndWhile_append]
    split
    · next hempty =>
      rw [List.isEmpty_iff.mp hempty, dropEndWhile_eq_rdropWhile]
      exact List.rdropWhile_concat_neg p [] c (by simp [hc])
    · rfl
  rw [dropEndWhile_append, hcons, List.isEmpty_cons, if_neg Bool.false_ne_true]

/-- White space behind the last character that is none goes, and that character keeps all before it.
-/
theorem trimEnd_append {back : Text} (hback : isAllBlank back) {c : Char}
    (hc : isBlank c = false) (rest : Text) : trimEnd (rest ++ [c] ++ back) = rest ++ [c] := by
  have hnil : dropEndWhile isBlank back = [] := by
    rw [dropEndWhile_eq_rdropWhile, List.rdropWhile_eq_nil_iff]
    exact List.all_eq_true.mp hback
  rw [trimEnd, List.append_assoc, List.singleton_append, dropEndWhile_append_cons hc, hnil]

/-- The text is not empty, and neither of its ends is a space. What covers literals with spaces
keeps such a text in sight at both ends. -/
def isSolid (t : Text) : Bool :=
  t.head?.any (· != ' ') && t.getLast?.any (· != ' ')

/-- The text is not empty, and neither of its ends is white space. Such a text is its own core. -/
def isTrimmed (t : Text) : Bool :=
  t.head?.any (!isBlank ·) && t.getLast?.any (!isBlank ·)

theorem ne_space_of_not_isBlank {c : Char} (h : isBlank c = false) : c ≠ ' ' := by
  rintro rfl
  revert h
  decide

/-- A space is white space, so the stronger condition on the ends gives the weaker. -/
theorem isSolid_of_isTrimmed {t : Text} (h : t.isTrimmed) : t.isSolid := by
  rw [isTrimmed, Bool.and_eq_true, Option.any_eq_true, Option.any_eq_true] at h
  obtain ⟨⟨c, hhead, hc⟩, d, hlast, hd⟩ := h
  rw [Bool.not_eq_true'] at hc hd
  simp [isSolid, hhead, hlast, ne_space_of_not_isBlank hc, ne_space_of_not_isBlank hd]

theorem exists_head_of_isTrimmed {t : Text} (h : t.isTrimmed) :
    ∃ c cs, t = c :: cs ∧ isBlank c = false := by
  rw [isTrimmed, Bool.and_eq_true] at h
  cases t with
  | nil => simp at h
  | cons c cs => exact ⟨c, cs, rfl, by simpa using h.1⟩

theorem exists_last_of_isTrimmed {t : Text} (h : t.isTrimmed) :
    ∃ cs c, t = cs ++ [c] ∧ isBlank c = false := by
  rw [isTrimmed, Bool.and_eq_true] at h
  rcases List.eq_nil_or_concat t with rfl | ⟨cs, c, rfl⟩
  · simp at h
  · exact ⟨cs, c, by simp, by simpa using h.2⟩

theorem isTrimmed_of_forall {t : Text} (hne : t ≠ []) (h : ∀ c ∈ t, isBlank c = false) :
    t.isTrimmed := by
  have hhead := h _ (List.head_mem hne)
  have hlast := h _ (List.getLast_mem hne)
  simp [isTrimmed, List.head?_eq_some_head hne, List.getLast?_eq_some_getLast hne, hhead, hlast]

/-- Whether a text is trimmed is told from its first and last character alone. -/
theorem isTrimmed_of_ends {c d : Char} (hc : isBlank c = false) (hd : isBlank d = false)
    (middle : Text) : isTrimmed (c :: (middle ++ [d])) := by
  rw [isTrimmed, Bool.and_eq_true]
  refine ⟨by simp [hc], ?_⟩
  rw [← List.cons_append, List.getLast?_concat]
  simp [hd]

/-- A text that starts and ends with trimmed texts is trimmed, whatever is in between. -/
theorem isTrimmed_append {t u : Text} (ht : t.isTrimmed) (hu : u.isTrimmed) (middle : Text) :
    (t ++ middle ++ u).isTrimmed := by
  obtain ⟨c, cs, rfl, hc⟩ := exists_head_of_isTrimmed ht
  obtain ⟨ds, d, rfl, hd⟩ := exists_last_of_isTrimmed hu
  simpa using isTrimmed_of_ends hc hd (cs ++ middle ++ ds)

theorem exists_head_of_isSolid {t : Text} (h : t.isSolid) : ∃ c cs, t = c :: cs ∧ c ≠ ' ' := by
  rw [isSolid, Bool.and_eq_true] at h
  cases t with
  | nil => simp at h
  | cons c cs => exact ⟨c, cs, rfl, by simpa using h.1⟩

theorem exists_last_of_isSolid {t : Text} (h : t.isSolid) : ∃ cs c, t = cs ++ [c] ∧ c ≠ ' ' := by
  rw [isSolid, Bool.and_eq_true] at h
  rcases List.eq_nil_or_concat t with rfl | ⟨cs, c, rfl⟩
  · simp at h
  · exact ⟨cs, c, by simp, by simpa using h.2⟩

/-- A text without spaces is solid unless it is empty. -/
theorem isSolid_of_forall_ne {t : Text} (hne : t ≠ []) (h : ∀ c ∈ t, c ≠ ' ') : t.isSolid := by
  have hhead := h _ (List.head_mem hne)
  have hlast := h _ (List.getLast_mem hne)
  simp [isSolid, List.head?_eq_some_head hne, List.getLast?_eq_some_getLast hne, hhead, hlast]

theorem byteSize_pos_of_isSolid {t : Text} (h : t.isSolid) : 0 < byteSize t := by
  obtain ⟨c, cs, rfl, -⟩ := exists_head_of_isSolid h
  have := c.utf8Size_pos
  rw [byteSize_cons]
  omega

/-- A text that holds more than white space, cut at the first character that is none. -/
theorem exists_trimStart {t : Text} (h : isAllBlank t = false) :
    ∃ front c rest, t = front ++ c :: rest ∧ isAllBlank front ∧ isBlank c = false ∧
      trimStart t = c :: rest := by
  induction t with
  | nil => simp [isAllBlank] at h
  | cons d t ih =>
    cases hd : isBlank d with
    | false => exact ⟨[], d, t, rfl, rfl, hd, by simp [trimStart, hd]⟩
    | true =>
      obtain ⟨front, c, rest, rfl, hfront, hc, htrim⟩ := ih (by simpa [isAllBlank, hd] using h)
      refine ⟨d :: front, c, rest, rfl, ?_, hc, ?_⟩
      · simpa [isAllBlank, hd] using hfront
      · simpa [trimStart, hd] using htrim

/-- The white space at the start of a text, and what is left of it. -/
theorem exists_append_trimStart (t : Text) :
    ∃ front, isAllBlank front ∧ t = front ++ trimStart t :=
  ⟨t.takeWhile isBlank, List.all_eq_true.mpr fun _ => List.mem_takeWhile_imp,
    List.takeWhile_append_dropWhile.symm⟩

/-- **The core of a text**: a text that holds more than white space is its core with white space
around it, and `coreSpan` is the span of the core. The core is found from both ends, the second time
in the reversed text. -/
theorem exists_core {t : Text} (h : isAllBlank t = false) :
    ∃ front core back, t = front ++ core ++ back ∧ isAllBlank front ∧ isAllBlank back ∧
      core.isTrimmed ∧ coreSpan t = (byteSize front, byteSize front + byteSize core) := by
  obtain ⟨front, c, rest, rfl, hfront, hc, hstart⟩ := exists_trimStart h
  -- from the other end, too, there is a first character that is no white space
  have hreverse : isAllBlank (c :: rest).reverse = false := by simp [isAllBlank, hc]
  obtain ⟨back, d, middle, hsplit, hback, hd, -⟩ := exists_trimStart hreverse
  have hcore : c :: rest = (d :: middle).reverse ++ back.reverse := by
    rw [← List.reverse_append, ← hsplit, List.reverse_reverse]
  have htrimEnd : trimEnd (front ++ c :: rest) = front ++ (d :: middle).reverse := by
    have hblank : isAllBlank back.reverse := by simpa [isAllBlank] using hback
    rw [hcore, List.reverse_cons, ← List.append_assoc, ← List.append_assoc,
      trimEnd_append hblank hd, List.append_assoc]
  refine ⟨front, (d :: middle).reverse, back.reverse, ?_, hfront, ?_, ?_, ?_⟩
  · rw [hcore, List.append_assoc]
  · simpa [isAllBlank] using hback
  · have hhead : (d :: middle).reverse.head? = some c := by
      cases hm : (d :: middle).reverse with
      | nil => simp at hm
      | cons e es =>
        rw [hm] at hcore
        rw [List.head?_cons, (List.cons.inj hcore).1]
    simp only [isTrimmed, hhead, List.getLast?_reverse, List.head?_cons, Option.any_some, hc, hd]
    rfl
  · rw [coreSpan, hstart, htrimEnd, byteSize_append, byteSize_append, Nat.add_sub_cancel]
    simp

theorem trimStart_append {front : Text} (hfront : isAllBlank front) {c : Char}
    (hc : isBlank c = false) (rest : Text) : trimStart (front ++ c :: rest) = c :: rest := by
  rw [trimStart, List.dropWhile_append_of_pos (List.all_eq_true.mp hfront),
    List.dropWhile_cons_of_neg (by simp [hc])]

/-- A run of characters stops where the text does not go on with one of them. -/
theorem takeWhile_append {p : Char → Bool} {cs rest : Text} (hcs : ∀ c ∈ cs, p c)
    (hrest : ∀ c ∈ rest.head?, p c = false) : (cs ++ rest).takeWhile p = cs := by
  rw [List.takeWhile_append_of_pos hcs]
  cases rest with
  | nil => simp
  | cons c rest => rw [List.takeWhile_cons_of_neg (by simp [hrest c rfl]), List.append_nil]

theorem drop_length_takeWhile (p : Char → Bool) (t : Text) :
    t.drop (t.takeWhile p).length = t.dropWhile p := by
  have hdrop : (t.takeWhile p ++ t.dropWhile p).drop (t.takeWhile p).length = t.dropWhile p :=
    List.drop_left
  rwa [List.takeWhile_append_dropWhile] at hdrop

theorem trim_of_isAllBlank {t : Text} (h : isAllBlank t) : trim t = [] := by
  rw [trim, trimStart, List.dropWhile_eq_nil_iff.mpr (List.all_eq_true.mp h)]
  rfl

section Core

variable {front core back : Text} (hfront : isAllBlank front) (hcore : core.isTrimmed)
  (hback : isAllBlank back)
include hfront hcore hback

/-- **The span of a core** is where it stands, if there is nothing but white space around it. -/
theorem coreSpan_core :
    coreSpan (front ++ core ++ back) = (byteSize front, byteSize front + byteSize core) := by
  obtain ⟨c, cs, rfl, hc⟩ := exists_head_of_isTrimmed hcore
  obtain ⟨ds, d, hlast, hd⟩ := exists_last_of_isTrimmed hcore
  have hstart : trimStart (front ++ (c :: cs) ++ back) = c :: cs ++ back := by
    rw [List.append_assoc, List.cons_append, trimStart_append hfront hc]
  have hend : trimEnd (front ++ (c :: cs) ++ back) = front ++ (c :: cs) := by
    rw [hlast, ← List.append_assoc, trimEnd_append hback hd]
  simp only [coreSpan, hstart, hend, byteSize_append]
  ext <;> dsimp only <;> omega

end Core

theorem coreSpan_of_isTrimmed {t : Text} (h : t.isTrimmed) : coreSpan t = (0, byteSize t) := by
  have hblank : isAllBlank [] := rfl
  have hspan := coreSpan_core hblank h hblank
  rwa [List.nil_append, List.append_nil, byteSize_nil, Nat.zero_add] at hspan

/-- A word that starts a text starts its front, if the back does not go on with a character of the
word's kind. Otherwise the word would have to reach into the back. -/
theorem isPrefix_of_append {p : Char → Bool} {word core back : Text} (h : word <+: core ++ back)
    (hword : ∀ c ∈ word, p c) (hback : ∀ c ∈ back.head?, p c = false) : word <+: core := by
  rcases List.prefix_or_prefix_of_prefix h (List.prefix_append core back) with hshort | ⟨more, rfl⟩
  · exact hshort
  · have hmore : more <+: back := (List.prefix_append_right_inj core).mp h
    cases more with
    | nil => simp
    | cons c more =>
      obtain ⟨rest, rfl⟩ := hmore
      have hc := hback c (by simp)
      rw [hword c (by simp)] at hc
      contradiction

/-- A word without white space that starts a text with white space at its end starts the rest. -/
theorem isPrefix_of_append_blank {word core back : Text} (h : word <+: core ++ back)
    (hword : word.any isBlank = false) (hback : isAllBlank back) : word <+: core := by
  refine isPrefix_of_append (p := fun c => !isBlank c) h (fun c hc => ?_) fun c hc => ?_
  · simpa using List.any_eq_false.mp hword c hc
  · simpa using List.all_eq_true.mp hback c (List.mem_of_mem_head? hc)

/-- A text of white space has an empty core at its end, where the search for its start has stopped.
-/
theorem coreSpan_of_isAllBlank {t : Text} (h : isAllBlank t) :
    coreSpan t = (byteSize t, byteSize t) := by
  have hstart : trimStart t = [] := List.dropWhile_eq_nil_iff.mpr (List.all_eq_true.mp h)
  have hend : trimEnd t = [] := by
    rw [trimEnd, dropEndWhile_eq_rdropWhile, List.rdropWhile_eq_nil_iff]
    exact List.all_eq_true.mp h
  rw [coreSpan, hstart, hend]
  simp

/-- **White space around a text goes when it is trimmed**, and nothing else does. -/
theorem trim_core {front core back : Text} (hfront : isAllBlank front) (hcore : core.isTrimmed)
    (hback : isAllBlank back) : trim (front ++ core ++ back) = core := by
  obtain ⟨c, cs, hcons, hc⟩ := exists_head_of_isTrimmed hcore
  obtain ⟨ds, d, hconcat, hd⟩ := exists_last_of_isTrimmed hcore
  have hstart : trimStart (front ++ core ++ back) = core ++ back := by
    rw [hcons, List.append_assoc, List.cons_append]
    exact trimStart_append hfront hc (cs ++ back)
  rw [trim, hstart, hconcat]
  exact trimEnd_append hback hd ds

theorem trim_of_isTrimmed {t : Text} (h : t.isTrimmed) : trim t = t := by
  simpa using @trim_core [] t [] rfl h rfl

/-- **What is left of a trimmed text** is what `coreSpan` cuts out of it, and around it is white
space. -/
theorem exists_trim (t : Text) :
    ∃ front back, isAllBlank front ∧ isAllBlank back ∧ t = front ++ trim t ++ back ∧
      coreSpan t = (byteSize front, byteSize front + byteSize (trim t)) := by
  cases hblank : isAllBlank t with
  | true =>
    rw [trim_of_isAllBlank hblank, coreSpan_of_isAllBlank hblank]
    exact ⟨t, [], hblank, rfl, by simp, rfl⟩
  | false =>
    obtain ⟨front, core, back, rfl, hfront, hback, hcore, hspan⟩ := exists_core hblank
    rw [trim_core hfront hcore hback]
    exact ⟨front, back, hfront, hback, rfl, hspan⟩

/-- Trimming only takes characters away, whichever end they stand at. -/
theorem trim_subset (t : Text) : trim t ⊆ t := fun _ hc =>
  (List.dropWhile_suffix _).subset ((List.rdropWhile_prefix _ _).subset hc)

/-- Nothing is left of a text exactly if it is white space. -/
theorem trim_eq_nil_iff {t : Text} : trim t = [] ↔ isAllBlank t := by
  constructor
  · intro hempty
    obtain ⟨front, back, hfront, hback, heq, -⟩ := exists_trim t
    rw [hempty, List.append_nil] at heq
    rw [heq, isAllBlank, List.all_append, Bool.and_eq_true]
    exact ⟨hfront, hback⟩
  · exact trim_of_isAllBlank

/-- The core stands at the start of its span, and the span cuts it out. -/
theorem standsAt_core {t front core back : Text} (heq : t = front ++ core ++ back)
    (hspan : coreSpan t = (byteSize front, byteSize front + byteSize core)) :
    StandsAt t (coreSpan t).1 core ∧ between (coreSpan t).1 (coreSpan t).2 t = core := by
  rw [hspan]
  refine ⟨⟨front, back, heq, rfl⟩, ?_⟩
  rw [heq, List.append_assoc]
  exact between_append front core back

/-- A character other than white space lies in the core, since all around the core is white space.
-/
theorem stop_le_coreSpan {t : Text} {n : Nat} {c : Char} (hc : StandsAt t n [c])
    (hblank : isBlank c = false) : n + c.utf8Size ≤ (coreSpan t).2 := by
  have hmem : c ∈ t := by
    obtain ⟨front, back, rfl, -⟩ := hc
    simp
  have hnot : isAllBlank t = false := by
    rw [isAllBlank, List.all_eq_false]
    exact ⟨c, hmem, by simp [hblank]⟩
  obtain ⟨front, core, back, heq, -, hback, -, hspan⟩ := exists_core hnot
  obtain ⟨front', back', heq', rfl⟩ := hc
  rw [hspan, ← byteSize_append]
  rw [heq, List.append_assoc front' [c] back'] at heq'
  rcases Nat.lt_or_ge (byteSize front') (byteSize (front ++ core)) with hlt | hge
  · obtain ⟨m, hm, hrest⟩ := exists_middle heq'.symm (Nat.le_of_lt hlt)
    cases m with
    | nil => simp [hm] at hlt
    | cons d m =>
      obtain ⟨rfl, -⟩ := List.cons.inj hrest
      rw [hm, byteSize_append, byteSize_cons]
      omega
  · -- it would be among the white space at the end
    obtain ⟨m, -, hm⟩ := exists_middle heq' hge
    have hcback := List.all_eq_true.mp hback c (by rw [hm]; simp)
    rw [hblank] at hcback
    contradiction

/-! ## 3. Occurrences -/

/-- A word that is dropped was at the start. -/
theorem eq_append_of_dropWord? {word t rest : Text} (h : dropWord? word t = some rest) :
    t = word ++ rest := by
  unfold dropWord? at h
  split at h
  · next hstarts =>
    rw [← Option.some.inj h]
    exact (List.prefix_iff_eq_append.mp (List.isPrefixOf_iff_prefix.mp hstarts)).symm
  · simp at h

theorem isPrefix_of_opensWithWord {word t : Text} (h : opensWithWord word t) : word <+: t := by
  obtain ⟨rest, hrest, -⟩ := (Option.any_eq_true _ _).mp h
  exact ⟨rest, (eq_append_of_dropWord? hrest).symm⟩

/-- Where a word is found, it stands. The offset that the search counts with is that of the rest of
the text, so that the part is told from there. -/
theorem exists_of_mem_occurrencesFrom {needle t : Text} {offset covered n : Nat}
    (h : n ∈ occurrencesFrom needle offset covered t) :
    ∃ k, n = offset + k ∧ StandsAt t k needle := by
  induction t generalizing offset covered with
  | nil => simp [occurrencesFrom] at h
  | cons c cs ih =>
    have hlater {covered : Nat} (h : n ∈ occurrencesFrom needle (offset + c.utf8Size) covered cs) :
        ∃ k, n = offset + k ∧ StandsAt (c :: cs) k needle := by
      obtain ⟨k, rfl, hk⟩ := ih h
      exact ⟨c.utf8Size + k, Nat.add_assoc .., hk.cons c⟩
    rw [occurrencesFrom] at h
    split at h
    · next hhere =>
      rcases List.mem_cons.mp h with rfl | h
      · rw [Bool.and_eq_true, List.isPrefixOf_iff_prefix] at hhere
        exact ⟨0, rfl, (standsAt_self _).of_isPrefix hhere.2⟩
      · exact hlater h
    · exact hlater h

theorem standsAt_of_mem_occurrences {needle t : Text} {n : Nat} (h : n ∈ occurrences needle t) :
    StandsAt t n needle := by
  obtain ⟨k, rfl, hk⟩ := exists_of_mem_occurrencesFrom h
  rwa [Nat.zero_add]

/-- A whole word is an occurrence with a condition on the characters around it, and stands where it
is found as well. -/
theorem exists_of_mem_wholeWordsFrom {word before t : Text} {offset : Nat} {w : WordOccurrence}
    (h : w ∈ wholeWordsFrom word before offset t) :
    ∃ k, w.offset = offset + k ∧ StandsAt t k word := by
  induction t generalizing before offset with
  | nil => simp [wholeWordsFrom] at h
  | cons c cs ih =>
    have hlater (h : w ∈ wholeWordsFrom word (c :: before) (offset + c.utf8Size) cs) :
        ∃ k, w.offset = offset + k ∧ StandsAt (c :: cs) k word := by
      obtain ⟨k, hoffset, hk⟩ := ih h
      exact ⟨c.utf8Size + k, by omega, hk.cons c⟩
    rw [wholeWordsFrom] at h
    split at h
    · next hhere =>
      rcases List.mem_cons.mp h with rfl | h
      · rw [Bool.and_eq_true, Bool.and_eq_true, List.isPrefixOf_iff_prefix] at hhere
        exact ⟨0, rfl, (standsAt_self _).of_isPrefix hhere.1.2⟩
      · exact hlater h
    · exact hlater h

theorem standsAt_of_mem_wholeWords {word t : Text} {w : WordOccurrence}
    (h : w ∈ wholeWords word t) : StandsAt t w.offset word := by
  obtain ⟨k, hoffset, hk⟩ := exists_of_mem_wholeWordsFrom h
  rwa [hoffset, Nat.zero_add]

end Text

end MacroScript
