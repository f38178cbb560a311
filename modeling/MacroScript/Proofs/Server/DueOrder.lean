import MacroScript.Proofs.Server.Publication

/-!
# Which validation has the last word

Several validations may be pending for one version of a document, each with a limit of its own. Only
one of them gets to publish: the first that runs leaves the document marked, and the others then
give up.

The validations that are to run at one time run in the order in which they are due, and those that
are due at once in the order in which they were scheduled (`DueFirst.mergeSort`). So the one that
publishes can be told from the list of pending validations alone, however the run goes on, as long
as no event touches the document (`publisher_of_dueFirst`).
-/
namespace MacroScript

namespace Server

/-! ## 1. The validation that is due first -/

/-- The validation is for that version of the document. -/
def Validation.isFor (v : Validation) (uri : String) (version : Int) : Bool :=
  v.uri == uri && v.version == version

theorem Validation.isFor_iff {v : Validation} {uri : String} {version : Int} :
    v.isFor uri version ↔ v.uri = uri ∧ v.version = version := by
  simp [isFor]

theorem Validation.due_trans (a b c : Validation) (hab : decide (a.due ≤ b.due))
    (hbc : decide (b.due ≤ c.due)) : decide (a.due ≤ c.due) := by
  simp only [decide_eq_true_eq] at hab hbc ⊢
  omega

theorem Validation.due_total (a b : Validation) :
    decide (a.due ≤ b.due) || decide (b.due ≤ a.due) := by
  simp only [Bool.or_eq_true, decide_eq_true_eq]
  omega

/-- Sorting leaves validations that are due at one time in their order, since merging is stable. -/
theorem filter_mergeSort_due {q : Validation → Bool} (time : Nat)
    (hq : ∀ u, q u → u.due = time) (pending : List Validation) :
    (pending.mergeSort fun v u => v.due ≤ u.due).filter q = pending.filter q := by
  have hequal : (pending.filter q).Pairwise fun v u => decide (v.due ≤ u.due) := by
    refine List.pairwise_of_forall_mem_list fun v hv u hu => ?_
    rw [hq v (List.mem_filter.mp hv).2, hq u (List.mem_filter.mp hu).2]
    simp
  have hsub := (List.sublist_mergeSort Validation.due_trans Validation.due_total hequal
    List.filter_sublist).filter q
  rw [List.filter_filter] at hsub
  simp only [Bool.and_self] at hsub
  have hperm := List.mergeSort_perm pending fun v u => decide (v.due ≤ u.due)
  have hlength := (hperm.filter q).length_eq
  exact (hsub.eq_of_length hlength.symm).symm

/-- Of the pending validations for a version of a document, `first` is the one that is due first; of
those that are due at the same time, it was scheduled first. This is told from the list of pending
validations, in which they stand as they were scheduled. -/
def DueFirst (uri : String) (version : Int) (first : Validation) (pending : List Validation) :
    Prop :=
  first.isFor uri version ∧ ∃ earlier later, pending = earlier ++ first :: later ∧
    (∀ u ∈ earlier, u.isFor uri version → first.due < u.due) ∧
    ∀ u ∈ later, u.isFor uri version → first.due ≤ u.due

namespace DueFirst

variable {uri : String} {version : Int} {first : Validation} {pending : List Validation}

theorem mem (h : DueFirst uri version first pending) : first ∈ pending := by
  obtain ⟨-, earlier, later, rfl, -, -⟩ := h
  simp

/-- No other one for the version is due sooner. -/
theorem due_le {u : Validation} (h : DueFirst uri version first pending) (hu : u ∈ pending)
    (hfor : u.isFor uri version) : first.due ≤ u.due := by
  obtain ⟨-, earlier, later, rfl, hearlier, hlater⟩ := h
  rcases List.mem_append.mp hu with hu | hu
  · exact Nat.le_of_lt (hearlier u hu hfor)
  · rcases List.mem_cons.mp hu with rfl | hu
    · exact Nat.le_refl _
    · exact hlater u hu hfor

/-- What others are taken away does not matter. Time goes on by taking away those that have run. -/
theorem filter {p : Validation → Bool} (h : DueFirst uri version first pending) (hp : p first) :
    DueFirst uri version first (pending.filter p) := by
  obtain ⟨hfor, earlier, later, rfl, hearlier, hlater⟩ := h
  refine ⟨hfor, earlier.filter p, later.filter p, ?_, ?_, ?_⟩
  · rw [List.filter_append, List.filter_cons_of_pos hp]
  · intro u hu
    exact hearlier u (List.mem_of_mem_filter hu)
  · intro u hu
    exact hlater u (List.mem_of_mem_filter hu)

/-- Nor does it matter what is scheduled for other documents. -/
theorem append {more : List Validation} (h : DueFirst uri version first pending)
    (hmore : ∀ u ∈ more, u.uri ≠ uri) : DueFirst uri version first (pending ++ more) := by
  obtain ⟨hfor, earlier, later, rfl, hearlier, hlater⟩ := h
  refine ⟨hfor, earlier, later ++ more, by simp, hearlier, ?_⟩
  intro u hu hu'
  rcases List.mem_append.mp hu with hu | hu
  · exact hlater u hu hu'
  · exact absurd (Validation.isFor_iff.mp hu').1 (hmore u hu)

/-- Of the validations for its version that are due when it is, it comes first. These are the only
ones that sorting could put before it. -/
theorem filter_rivals (h : DueFirst uri version first pending) :
    ∃ rest, pending.filter (fun u => u.isFor uri version && u.due == first.due) =
      first :: rest := by
  obtain ⟨hfor, earlier, later, rfl, hearlier, -⟩ := h
  have hnone : earlier.filter (fun u => u.isFor uri version && u.due == first.due) = [] := by
    refine List.filter_eq_nil_iff.mpr fun u hu hrival => ?_
    simp only [Bool.and_eq_true, beq_iff_eq] at hrival
    have hlt := hearlier u hu hrival.1
    omega
  refine ⟨later.filter (fun u => u.isFor uri version && u.due == first.due), ?_⟩
  rw [List.filter_append, hnone, List.nil_append, List.filter_cons_of_pos]
  simp [hfor]

/-- **The validation that is due first runs first**: in the order in which validations run, no other
one for its version comes before it. -/
theorem mergeSort (h : DueFirst uri version first pending) :
    ∃ sooner rest, pending.mergeSort (fun v u => v.due ≤ u.due) = sooner ++ first :: rest ∧
      ∀ u ∈ sooner, u.isFor uri version = false := by
  -- its rivals are those for the same version that are due at the same time
  have hrivals := filter_mergeSort_due (q := fun u => u.isFor uri version && u.due == first.due)
    first.due (by simp) pending
  obtain ⟨rest, hrest⟩ := h.filter_rivals
  obtain ⟨sooner, rest', hsorted, hsooner, -, -⟩ :=
    List.filter_eq_cons_iff.mp (hrivals.trans hrest)
  refine ⟨sooner, rest', hsorted, ?_⟩
  intro u hu
  by_contra hne
  have hfor : u.isFor uri version := by simpa using hne
  have hmem : u ∈ pending := by
    rw [← (List.mergeSort_perm pending fun v u => decide (v.due ≤ u.due)).mem_iff, hsorted]
    exact List.mem_append_left _ hu
  -- one that comes before it and is no rival would be due later, against the order
  have hge : first.due ≤ u.due := h.due_le hmem hfor
  have hnot : u.due ≠ first.due := by simpa [hfor] using hsooner u hu
  have hle : u.due ≤ first.due := by
    have hpairs := List.pairwise_mergeSort Validation.due_trans Validation.due_total pending
    rw [hsorted] at hpairs
    simpa using (List.pairwise_append.mp hpairs).2.2 u hu first List.mem_cons_self
  omega

end DueFirst

/-! ## 2. Moments that pass a document by -/

/-- The client is ready, and the document is open in that version, its text published or not. -/
def Standing (uri : String) (version : Int) (published : Bool) (w : World) : Prop :=
  w.isConnected ∧ ∃ d, w.documents.get? uri = some d ∧ d.version = version ∧
    d.isPublished = published

/-- What does nothing to a document that stands so: an event that does not touch it, or a validation
that is for something else or comes too late. -/
def Cause.passesBy (uri : String) (version : Int) (published : Bool) : Cause → Bool
  | event e => !e.touches uri
  | validation v => published || !v.isFor uri version

variable {uri : String} {version : Int} {published : Bool} {w : World}

/-- A moment that passes a document by leaves it as it stands, and says nothing of it. A validation
of another document is the case to look at: it changes the documents, but not this one. -/
theorem Standing.step {m : Moment} (hw : Standing uri version published w) (hstep : Step w m)
    (hpasses : m.cause.passesBy uri version published) :
    m.publishes uri = false ∧ Standing uri version published m.world := by
  obtain ⟨hconnected, d, hget, hversion, hpub⟩ := hw
  cases hstep with
  | event event =>
    have htouch : event.touches uri = false := by simpa [Cause.passesBy] using hpasses
    constructor
    · refine handle_silent ?_
      rintro rfl
      simp [Event.touches] at htouch
    · have heffect := (w.handle_effect event uri).eq_of_not_touches htouch
      simp only [hget, Option.map_some] at heffect
      obtain ⟨d', hget', hsame⟩ := Option.map_eq_some_iff.mp heffect
      obtain ⟨hversion', hpub'⟩ := Prod.mk.inj hsame
      exact ⟨World.handle_isConnected event hconnected, d', hget', hversion'.trans hversion,
        hpub'.trans hpub⟩
  | validation v pending hperm =>
    rcases w.validate_cases v with ⟨hrun, -⟩ | ⟨d', a, hget', hversion', hpub', -, -, hrun⟩
    · simp only [hrun]
      exact ⟨by simp [Moment.publishes], hconnected, d, hget, hversion, hpub⟩
    · have hother : uri ≠ v.uri := by
        -- it would have found the document in its version and published, or come too late
        rintro rfl
        obtain rfl : d = d' := Option.some.inj (hget.symm.trans hget')
        simp [Cause.passesBy, Validation.isFor, ← hpub, hpub', ← hversion, hversion'] at hpasses
      simp only [hrun]
      refine ⟨?_, hconnected, d, ?_, hversion, hpub⟩
      · simpa [Moment.publishes, World.receives, hconnected, Message.uri?] using Ne.symm hother
      · rw [Store.get?_put_of_ne _ _ hother]
        exact hget

/-- Moments that pass a document by publish nothing for it and leave it as it stands, by induction
along the moments. -/
theorem Standing.linked {ms : List Moment} (hw : Standing uri version published w)
    (hlinked : Linked w ms) (hpasses : ∀ m ∈ ms, m.cause.passesBy uri version published) :
    publisher uri ms = none ∧ Standing uri version published (lastWorld w ms) := by
  refine Linked.invariant
    (P := fun past w => publisher uri past = none ∧ Standing uri version published w)
    (Q := fun m => m.cause.passesBy uri version published) ?_ [] hlinked hpasses ⟨rfl, hw⟩
  rintro past w m ⟨hnone, hstanding⟩ hstep hpass
  obtain ⟨hsilent, hnext⟩ := hstanding.step hstep hpass
  refine ⟨?_, hnext⟩
  rw [publisher_append, publisher_eq_none (by simpa using hsilent), hnone]
  rfl

/-- Moments made by validations pass by what all these validations pass by. -/
theorem passesBy_of_map_cause {ms : List Moment} {queue : List Validation}
    (hcauses : ms.map (fun m => m.cause) = queue.map Cause.validation)
    (hqueue : ∀ u ∈ queue, (Cause.validation u).passesBy uri version published) :
    ∀ m ∈ ms, m.cause.passesBy uri version published := by
  intro m hm
  have hcause : m.cause ∈ queue.map Cause.validation := hcauses ▸ List.mem_map_of_mem hm
  obtain ⟨u, hu, hu'⟩ := List.mem_map.mp hcause
  rw [← hu']
  exact hqueue u hu

/-- A validation for the version of a document that is not published publishes it, since it finds
the document as it was scheduled for. -/
theorem Standing.publish {m : Moment} {v : Validation} (hw : Standing uri version false w)
    (hstep : Step w m) (hcause : m.cause = .validation v) (hfor : v.isFor uri version) :
    publisher uri [m] = some (.validation v) ∧ Standing uri version true m.world := by
  obtain ⟨hconnected, d, hget, hversion, hpub⟩ := hw
  obtain ⟨rfl, hv⟩ := Validation.isFor_iff.mp hfor
  cases hstep with
  | event event => simp at hcause
  | validation u pending hperm =>
    obtain rfl : u = v := Cause.validation.inj hcause
    rcases w.validate_cases u with ⟨-, hgone⟩ | ⟨d', a, hget', hversion', -, -, -, hrun⟩
    · rw [hgone d hget (hversion.trans hv.symm)] at hpub
      contradiction
    · simp only [hrun]
      constructor
      · simp [publisher, Moment.publishes, World.receives, hconnected, Message.uri?]
      · exact ⟨hconnected, _, Store.get?_put_self .., hversion'.trans hv,
          d'.isPublished_publish a⟩

/-! ## 3. The last word -/

variable {first : Validation}

/-- If the validation that is due first is to run now, it is the one that publishes. Those before it
are for something else, and those after it come too late. -/
theorem publisher_settle_of_due (hw : Standing uri version false w)
    (hfirst : DueFirst uri version first w.pending) (hdue : first.due ≤ w.now) :
    publisher uri (w.withoutDue.validationMoments w.due) = some (.validation first) ∧
      Standing uri version true w.settle.1 := by
  obtain ⟨hlinked, hlast⟩ := w.linked_settle
  have hcauses := w.withoutDue.map_cause_validationMoments w.due
  obtain ⟨sooner, rest, hqueue, hsooner⟩ :=
    (hfirst.filter (p := fun v => v.due ≤ w.now) (by simpa using hdue)).mergeSort
  change w.due = sooner ++ first :: rest at hqueue
  rw [hqueue, List.map_append, List.map_cons] at hcauses
  -- the moments split as the queue does: those before, the one that publishes, those too late
  obtain ⟨before, tail, hsplit, hbefore, htail⟩ := List.map_eq_append_iff.mp hcauses
  obtain ⟨m, late, rfl, hm, hlate⟩ := List.map_eq_cons_iff.mp htail
  rw [hqueue, hsplit] at hlinked hlast
  rw [hqueue, hsplit]
  obtain ⟨hlinked₁, hlinked₂⟩ := linked_append.mp hlinked
  obtain ⟨-, hstanding⟩ := hw.linked hlinked₁
    (passesBy_of_map_cause hbefore fun u hu => by simp [Cause.passesBy, hsooner u hu])
  obtain ⟨hpublisher, hstanding'⟩ := hstanding.publish hlinked₂.1 hm hfirst.1
  obtain ⟨hnone', hend⟩ := hstanding'.linked hlinked₂.2 (passesBy_of_map_cause hlate fun u _ => rfl)
  constructor
  · rw [publisher_append, ← List.singleton_append, publisher_append, hnone', hpublisher]
    rfl
  · rw [← hlast, lastWorld_append, lastWorld_cons]
    exact hend

/-- If it is to run later, nothing is published for the document now, and it stays the one that is
due first: no validation for the version is due sooner. -/
theorem publisher_settle_of_not_due (hw : Standing uri version false w)
    (hfirst : DueFirst uri version first w.pending) (hdue : w.now < first.due) :
    publisher uri (w.withoutDue.validationMoments w.due) = none ∧
      Standing uri version false w.settle.1 ∧ DueFirst uri version first w.settle.1.pending := by
  obtain ⟨hlinked, hlast⟩ := w.linked_settle
  have hpasses : ∀ m ∈ w.withoutDue.validationMoments w.due,
      m.cause.passesBy uri version false := by
    refine passesBy_of_map_cause (w.withoutDue.map_cause_validationMoments w.due) ?_
    intro u hu
    obtain ⟨hpending, hnow⟩ := List.mem_filter.mp ((List.mergeSort_perm _ _).mem_iff.mp hu)
    have hother : u.isFor uri version = false := by
      by_contra hfor
      have hle := hfirst.due_le hpending (by simpa using hfor)
      have hnow' : u.due ≤ w.now := by simpa using hnow
      omega
    simp [Cause.passesBy, hother]
  obtain ⟨hnone, hstanding⟩ := hw.linked hlinked hpasses
  refine ⟨hnone, hlast ▸ hstanding, ?_⟩
  have hpending : w.settle.1.pending = w.pending.filter fun v => w.now < v.due :=
    World.runAll_pending _ _
  rw [hpending]
  exact hfirst.filter (by simpa using hdue)

/-- Nothing more is published for a document once it is published and left alone, whatever happens
to the others. -/
theorem publisher_of_published {events : List Event} (hw : Standing uri version true w)
    (htouch : ∀ e ∈ events, e.touches uri = false) : publisher uri (w.moments events) = none := by
  refine (hw.linked (w.linked_moments events).1 ?_).1
  intro m hm
  cases hcause : m.cause with
  | event e => simp [Cause.passesBy, htouch e (World.mem_of_cause_event hm hcause)]
  | validation v => rfl

/-- **The validation that is due first has the last word.** If an event leaves a document
unpublished, no later event touches it, and the validation that is then due first for its version
has run, that validation is the one behind the last publication for the document. It publishes when
its time comes, and nothing is published before or after. -/
theorem publisher_of_dueFirst (w : World) (event : Event) (later : List Event)
    (hstanding : Standing uri version false (w.handle event).world)
    (hfirst : DueFirst uri version first (w.handle event).world.pending)
    (hlater : ∀ e ∈ later, e.touches uri = false)
    (hran : first ∉ (w.after (event :: later)).pending) :
    publisher uri (w.moments (event :: later)) = some (.validation first) := by
  -- the induction follows the events until the one after which the validation is due
  induction later generalizing w event with
  | nil =>
    by_cases hdue : first.due ≤ (w.handle event).world.now
    · obtain ⟨hpublisher, -⟩ := publisher_settle_of_due hstanding hfirst hdue
      rw [World.moments, World.moments, List.append_nil, ← List.singleton_append,
        publisher_append, hpublisher]
      rfl
    · obtain ⟨-, -, hstays⟩ := publisher_settle_of_not_due hstanding hfirst (by omega)
      exact absurd hstays.mem hran
  | cons next later ih =>
    rw [World.moments, ← List.singleton_append, publisher_append, publisher_append]
    by_cases hdue : first.due ≤ (w.handle event).world.now
    · obtain ⟨hpublisher, hdone⟩ := publisher_settle_of_due hstanding hfirst hdue
      have hsilent : publisher uri ((w.step event).world.moments (next :: later)) = none :=
        publisher_of_published hdone hlater
      rw [hsilent, hpublisher]
      rfl
    · obtain ⟨-, hstays, hstill⟩ := publisher_settle_of_not_due hstanding hfirst (by omega)
      have htouch : next.touches uri = false := hlater next List.mem_cons_self
      have hnext : publisher uri ((w.step event).world.moments (next :: later)) =
          some (.validation first) := by
        refine ih (w.step event).world next ?_ ?_
          (fun e he => hlater e (List.mem_cons_of_mem next he)) hran
        · exact (Standing.step (w := (w.step event).world) hstays (Step.event next)
            (by simpa [Cause.passesBy] using htouch)).2
        · rw [World.handle_pending]
          exact hstill.append fun u hu => World.ne_of_mem_scheduled htouch hu
      rw [hnext]
      rfl

end Server

end MacroScript
