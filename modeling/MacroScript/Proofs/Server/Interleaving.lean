import MacroScript.Proofs.Server.Publication
import Mathlib.Data.List.Infix
import Mathlib.Logic.Function.Iterate

/-!
# Validations under any interleaving

Validations and completion requests are tasks, and the segments of several tasks run in any order,
with events between them. `System` is the server with its tasks: an action is an event, the end of a
validation's delay, the start of a request, or the next segment of one task.

The last look of a validation compares the document's version and the text of the *installed*
analysis, not the analysis that the validation has in hand. `analysis_in_hand_current_iff` says what
that is worth: when the last look succeeds, the analysis in hand is of the text that the document
held when the task took it up, and it is of the present text exactly if the last edit under the
scheduled version since then, if there was one, left that same text. A document that was closed and
opened again under the same version shows that this can fail (`stale_analysis_in_hand`).
-/
namespace MacroScript

namespace Server

/-! ## 1. Tasks -/

/-- What a task is for. Only a validation publishes; a completion request installs an analysis, too.
-/
inductive Purpose where
  | validation (v : Validation)
  | completion (uri : String)
deriving DecidableEq

/-- The document that the task is about. -/
def Purpose.uri : Purpose → String
  | validation v => v.uri
  | completion uri => uri

/-- A task, by the segment that it runs next. What it has in hand between two segments stands with
it, as the documents may move on meanwhile. -/
inductive Task where
  | starting (purpose : Purpose)
  | reading (purpose : Purpose)
  | building (purpose : Purpose) (snapshot : Snapshot)
  | installing (purpose : Purpose) (snapshot : Snapshot) (analysis : Analysis)
  | finishing (v : Validation) (analysis : Analysis)
  | ended
deriving DecidableEq

namespace Task

/-- The next segment of a task: what is left of the task, and the documents after it. -/
def advance (store : Store) : Task → Task × Store
  | starting (.validation v) =>
    match v.firstLook store with
    | .giveUp => (ended, store)
    | .reuse analysis => (finishing v analysis, store)
    | .refresh => (reading (.validation v), store)
  | starting (.completion uri) =>
    match store.get? uri with
    | some d => (if d.analysis.isNone then reading (.completion uri) else ended, store)
    | none => (ended, store)
  | reading purpose =>
    match Snapshot.read? store purpose.uri with
    | some snapshot => (building purpose snapshot, store)
    | none => (ended, store)
  | building purpose snapshot => (installing purpose snapshot snapshot.build, store)
  | installing (.validation v) snapshot analysis =>
    (finishing v analysis, snapshot.install analysis store v.uri)
  | installing (.completion uri) snapshot analysis =>
    (ended, snapshot.install analysis store uri)
  | finishing v _ => (ended, (v.lastLook store).getD store)
  | ended => (ended, store)

/-- The analysis that the next segment of the task goes on to publish: the last look succeeds. -/
def publishes? (store : Store) : Task → Option Analysis
  | finishing v analysis => (v.lastLook store).map fun _ => analysis
  | _ => none

/-- The text that the task has in hand, and the validation that it is for. A completion request
publishes nothing, so it has none here. -/
def inHand : Task → Option (Validation × Text)
  | building (.validation v) snapshot => some (v, snapshot.text)
  | installing (.validation v) snapshot _ => some (v, snapshot.text)
  | finishing v analysis => some (v, analysis.text)
  | _ => none

end Task

/-- Run some segments of a task with nothing in between: the documents after them, and the analysis
that is published. -/
def Task.runSegments : Nat → Task → Store → Store × Option Analysis
  | 0, _, store => (store, none)
  | count + 1, task, store =>
    let rest := runSegments count (task.advance store).1 (task.advance store).2
    (rest.1, (task.publishes? store).or rest.2)

@[simp] theorem Task.runSegments_ended (count : Nat) (store : Store) :
    Task.ended.runSegments count store = (store, none) := by
  induction count with
  | zero => rfl
  | succ count ih => simp [runSegments, advance, publishes?, ih]

theorem Task.runSegments_finishing (count : Nat) (v : Validation) (a : Analysis) (store : Store) :
    (Task.finishing v a).runSegments (count + 1) store = v.finish store a := by
  rw [runSegments, Validation.finish]
  cases hlook : v.lastLook store <;> simp [advance, publishes?, hlook]

/-- **The segments of a validation make up the validation**: five of them, with nothing in between,
do what it does and publish what it publishes. -/
theorem Task.runSegments_validation (v : Validation) (store : Store) :
    (Task.starting (.validation v)).runSegments 5 store = v.run store := by
  rw [runSegments, Validation.run]
  cases hlook : v.firstLook store with
  | giveUp => simp [advance, publishes?, hlook]
  | reuse a =>
    simp only [advance, publishes?, hlook, Option.none_or]
    exact runSegments_finishing 3 v a store
  | refresh =>
    simp only [advance, publishes?, hlook, Option.none_or]
    rw [runSegments, refresh]
    cases hread : Snapshot.read? store v.uri with
    | none => simp [advance, publishes?, Purpose.uri, hread]
    | some snapshot =>
      simp only [advance, publishes?, Purpose.uri, hread, Option.none_or]
      exact runSegments_finishing 0 v snapshot.build (snapshot.install snapshot.build store v.uri)

/-! ## 2. Tasks and events in any order -/

/-- The server and its tasks. -/
structure System where
  world : World := {}
  tasks : List Task := []

/-- What happens next: an event, the end of the delay of a pending validation, a completion request
that starts, or the next segment of a task. No order is asked for, so validations may also wake in
another order than they are due. -/
inductive Action where
  | event (event : Event)
  | wake (index : Nat)
  | request (uri : String)
  | advance (index : Nat)

namespace System

/-- The documents. -/
def store (s : System) : Store :=
  s.world.documents

/-- The state after an action. -/
def step (s : System) : Action → System
  | .event event => { s with world := (s.world.handle event).world }
  | .wake index =>
    match s.world.pending[index]? with
    | some v =>
      { world := { s.world with pending := s.world.pending.eraseIdx index }
        tasks := s.tasks ++ [.starting (.validation v)] }
    | none => s
  | .request uri => { s with tasks := s.tasks ++ [.starting (.completion uri)] }
  | .advance index =>
    match s.tasks[index]? with
    | some task =>
      { world := { s.world with documents := (task.advance s.store).2 }
        tasks := s.tasks.set index (task.advance s.store).1 }
    | none => s

/-- The state after some actions. -/
def run (s : System) (actions : List Action) : System :=
  actions.foldl step s

/-- The texts that the documents hold between the actions. The fingerprints of these must not
collide. -/
def texts (actions : List Action) : List Text :=
  actions.inits.flatMap fun past => (run {} past).store.texts

theorem run_append (s : System) (actions later : List Action) :
    s.run (actions ++ later) = (s.run actions).run later :=
  List.foldl_append

theorem run_concat (s : System) (actions : List Action) (action : Action) :
    s.run (actions ++ [action]) = (s.run actions).step action := by
  rw [run_append]
  rfl

theorem mem_texts_of_isPrefix {actions later : List Action} {t : Text} (h : actions <+: later)
    (ht : t ∈ texts actions) : t ∈ texts later := by
  obtain ⟨past, hpast, ht⟩ := List.mem_flatMap.mp ht
  refine List.mem_flatMap.mpr ⟨past, ?_, ht⟩
  exact (List.mem_inits _ _).mpr (((List.mem_inits _ _).mp hpast).trans h)

theorem mem_texts_of_mem_store {actions : List Action} {t : Text}
    (ht : t ∈ (run {} actions).store.texts) : t ∈ texts actions :=
  List.mem_flatMap.mpr ⟨actions, (List.mem_inits _ _).mpr (List.prefix_refl _), ht⟩

/-- **What an action does to a task**: it stands where it stood, it was just started, or it has run
its next segment. -/
theorem task_cases {s : System} {action : Action} {i : Nat} {task : Task}
    (h : (s.step action).tasks[i]? = some task) :
    s.tasks[i]? = some task ∨ (∃ purpose, task = .starting purpose) ∨
      ∃ task', action = .advance i ∧ s.tasks[i]? = some task' ∧
        task = (task'.advance s.store).1 := by
  -- a task that an action adds stands at its start
  have hadded : ∀ purpose, (s.tasks ++ [.starting purpose])[i]? = some task →
      s.tasks[i]? = some task ∨ ∃ purpose, task = .starting purpose := by
    intro purpose hi
    rw [List.getElem?_append] at hi
    split at hi
    · exact .inl hi
    · have hmem := List.mem_of_getElem? hi
      exact .inr ⟨purpose, List.mem_singleton.mp hmem⟩
  cases action with
  | event event => exact .inl h
  | wake index =>
    rw [step] at h
    split at h
    · exact (hadded _ h).imp_right .inl
    · exact .inl h
  | request uri => exact (hadded _ h).imp_right .inl
  | advance index =>
    cases htask : s.tasks[index]? with
    | none =>
      simp only [step, htask] at h
      exact .inl h
    | some task' =>
      simp only [step, htask, List.getElem?_set] at h
      split at h
      · next hsame =>
        subst hsame
        split at h
        · exact .inr (.inr ⟨task', rfl, htask, (Option.some.inj h).symm⟩)
        · simp at h
      · exact .inl h

end System

/-! ## 3. What a segment does to the documents -/

/-- Installing leaves a document as it is, or gives it the analysis. Which of the two depends on
whether the document has moved on. -/
theorem Snapshot.install_get? {snapshot : Snapshot} {a : Analysis} {store : Store}
    {name uri : String} {d : Document}
    (h : (snapshot.install a store name).get? uri = some d) :
    ∃ d', store.get? uri = some d' ∧ (d = d' ∨ d = d'.install a) := by
  rw [Snapshot.install] at h
  cases hname : store.get? name with
  | none =>
    rw [hname] at h
    exact ⟨d, h, .inl rfl⟩
  | some d₀ =>
    rw [hname] at h
    dsimp only at h
    split at h
    · rw [Store.get?_put] at h
      split at h
      · next hsame =>
        obtain rfl := Option.some.inj h
        exact ⟨d₀, hsame ▸ hname, .inr rfl⟩
      · exact ⟨d, h, .inl rfl⟩
    · exact ⟨d, h, .inl rfl⟩

/-- The first look reuses an installed analysis only if its text has the document's fingerprint. -/
theorem Validation.firstLook_eq_reuse {v : Validation} {store : Store} {a : Analysis}
    (h : v.firstLook store = .reuse a) :
    ∃ d, store.get? v.uri = some d ∧ d.analysis = some a ∧
      a.text.fingerprint = d.fingerprint := by
  rw [Validation.firstLook] at h
  cases hget : store.get? v.uri with
  | none => simp [hget] at h
  | some d =>
    rw [hget] at h
    dsimp only at h
    split at h
    · simp at h
    · cases ha : d.analysis with
      | none => simp [ha] at h
      | some a' =>
        rw [ha] at h
        dsimp only at h
        split at h
        · next hanalysed =>
          obtain rfl : a' = a := by simpa using h
          obtain ⟨a'', ha'', hfp⟩ := Document.isAnalysed_iff.mp hanalysed
          obtain rfl : a' = a'' := Option.some.inj (ha.symm.trans ha'')
          exact ⟨d, rfl, ha, hfp⟩
        · simp at h

/-- The last look puts a mark on its document, if it succeeds, and changes nothing else. -/
theorem Validation.lastLook_get? {v : Validation} {store marked : Store} {uri : String}
    {d : Document} (hlook : v.lastLook store = some marked) (h : marked.get? uri = some d) :
    ∃ d', store.get? uri = some d' ∧ ∃ mark, d = { d' with published := mark } := by
  rw [Validation.lastLook] at hlook
  cases hname : store.get? v.uri with
  | none => simp [hname] at hlook
  | some d₀ =>
    rw [hname] at hlook
    dsimp only at hlook
    split at hlook
    · simp at hlook
    · obtain rfl := Option.some.inj hlook
      rw [Store.get?_put] at h
      split at h
      · next hsame =>
        obtain rfl := Option.some.inj h
        exact ⟨d₀, hsame ▸ hname, d₀.analysed, rfl⟩
      · exact ⟨d, h, d.published, rfl⟩

/-- **What a segment does to a document.** No segment opens a document or changes its text or
version, and only the segment that installs gives it an analysis. -/
theorem Task.advance_get? {task : Task} {store : Store} {uri : String} {d : Document}
    (h : (task.advance store).2.get? uri = some d) :
    ∃ d', store.get? uri = some d' ∧ d.text = d'.text ∧ d.version = d'.version ∧
      (d.analysis = d'.analysis ∨
        ∃ purpose snapshot a, task = .installing purpose snapshot a ∧ d.analysis = some a) := by
  -- all segments but two leave the documents alone
  have hsame : (task.advance store).2 = store → ∃ d', store.get? uri = some d' ∧
      d.text = d'.text ∧ d.version = d'.version ∧ (d.analysis = d'.analysis ∨
        ∃ purpose snapshot a, task = .installing purpose snapshot a ∧ d.analysis = some a) :=
    fun heq => ⟨d, heq ▸ h, rfl, rfl, .inl rfl⟩
  cases task with
  | starting purpose =>
    apply hsame
    cases purpose <;> rw [advance] <;> split <;> rfl
  | reading purpose =>
    apply hsame
    rw [advance]
    split <;> rfl
  | building purpose snapshot => exact hsame rfl
  | ended => exact hsame rfl
  | installing purpose snapshot a =>
    have hinstall : (snapshot.install a store purpose.uri).get? uri = some d := by
      cases purpose <;> exact h
    obtain ⟨d', hget, rfl | rfl⟩ := Snapshot.install_get? hinstall
    · exact ⟨d, hget, rfl, rfl, .inl rfl⟩
    · exact ⟨d', hget, rfl, rfl, .inr ⟨purpose, snapshot, a, rfl, rfl⟩⟩
  | finishing v a =>
    cases hlook : v.lastLook store with
    | none => exact hsame (by rw [advance, hlook]; rfl)
    | some marked =>
      rw [advance, hlook] at h
      obtain ⟨d', hget, mark, rfl⟩ := Validation.lastLook_get? hlook h
      exact ⟨d', hget, rfl, rfl, .inl rfl⟩

/-! ## 4. Analyses in hand come from the texts of the run -/

/-- What the task has in hand is of a text of the run. An analysis in hand is moreover what
analysing that text gives. -/
def Task.Grounded (held : List Text) : Task → Prop
  | building _ snapshot => snapshot.text ∈ held
  | installing _ snapshot a => snapshot.text ∈ held ∧ a = Analysis.ofText snapshot.text
  | finishing _ a => a.text ∈ held ∧ a = Analysis.ofText a.text
  | _ => True

/-- Each segment hands on what the task has, or takes it from the documents, which are grounded
themselves. -/
theorem Task.Grounded.advance {held : List Text} {task : Task} {store : Store}
    (hstore : Server.Grounded held store) (htask : task.Grounded held) :
    (task.advance store).1.Grounded held := by
  cases task with
  | starting purpose =>
    cases purpose with
    | validation v =>
      rw [Task.advance]
      split
      · trivial
      · next a hlook =>
        -- an analysis that is reused is the one that the document has
        obtain ⟨d, hget, ha, -⟩ := Validation.firstLook_eq_reuse hlook
        exact hstore.analysis v.uri d a hget ha
      · trivial
    | completion uri =>
      rw [Task.advance]
      split
      · dsimp only
        split <;> trivial
      · trivial
  | reading purpose =>
    rw [Task.advance]
    cases hget : store.get? purpose.uri with
    | none => simp only [Snapshot.read?, hget]; trivial
    | some d =>
      simp only [Snapshot.read?, hget]
      exact hstore.text _ d hget
  | building purpose snapshot => exact ⟨htask, rfl⟩
  | installing purpose snapshot a =>
    obtain ⟨hheld, rfl⟩ := htask
    cases purpose with
    | validation v => exact ⟨hheld, rfl⟩
    | completion uri => trivial
  | finishing v a => trivial
  | ended => trivial

/-- Documents and tasks of the system hold texts of the run and their analyses. The two have to be
told together: tasks take from documents, and documents are given analyses by tasks. -/
structure System.Grounded (held : List Text) (s : System) : Prop where
  store : Server.Grounded held s.store
  tasks : ∀ task ∈ s.tasks, task.Grounded held

/-- One action keeps it. The segment that installs is the case to look at: the analysis that it
gives to the document was in hand. -/
theorem System.Grounded.step {held : List Text} {s : System} (hs : s.Grounded held)
    (action : Action) (hheld : ∀ t ∈ (s.step action).store.texts, t ∈ held) :
    (s.step action).Grounded held := by
  -- a task that has just been started has nothing in hand
  have hstarted (purpose : Purpose) :
      ∀ task ∈ s.tasks ++ [.starting purpose], task.Grounded held := by
    intro task htask
    rcases List.mem_append.mp htask with hold | hnew
    · exact hs.tasks task hold
    · rw [List.mem_singleton.mp hnew]
      trivial
  cases action with
  | event event => exact ⟨hs.store.step (Step.event event) hheld, hs.tasks⟩
  | wake index =>
    rw [System.step] at hheld ⊢
    split
    · exact ⟨hs.store, hstarted _⟩
    · exact hs
  | request uri => exact ⟨hs.store, hstarted _⟩
  | advance index =>
    cases htask : s.tasks[index]? with
    | none =>
      simpa only [System.step, htask] using hs
    | some task =>
      simp only [System.step, htask] at hheld ⊢
      have hground := hs.tasks task (List.mem_of_getElem? htask)
      refine ⟨⟨fun uri d hget => hheld _ (Store.text_mem_texts hget), ?_⟩, ?_⟩
      · intro uri d a hget ha
        -- the analysis was installed before, or the segment has just installed what it had in hand
        obtain ⟨d', hget', -, -, hold | ⟨purpose, snapshot, a', rfl, hnew⟩⟩ :=
          Task.advance_get? hget
        · exact hs.store.analysis uri d' a hget' (hold ▸ ha)
        · obtain rfl : a' = a := Option.some.inj (hnew.symm.trans ha)
          obtain ⟨htext, rfl⟩ := hground
          exact ⟨htext, rfl⟩
      · intro task' htask'
        rcases List.mem_or_eq_of_mem_set htask' with hold | rfl
        · exact hs.tasks task' hold
        · exact hground.advance hs.store

/-- Whatever the order of actions, what is in hand is of a text of the run. The induction takes off
the last action, so that the texts of the past are among those of the whole. -/
theorem System.grounded_run (actions : List Action) {held : List Text}
    (hheld : ∀ t ∈ System.texts actions, t ∈ held) : (System.run {} actions).Grounded held := by
  induction actions using List.reverseRecOn with
  | nil => exact ⟨grounded_empty held, by simp [System.run]⟩
  | append_singleton actions action ih =>
    rw [System.run_concat]
    have hpast := ih fun t ht => hheld t (System.mem_texts_of_isPrefix (List.prefix_append _ _) ht)
    refine hpast.step action fun t ht => hheld t (System.mem_texts_of_mem_store ?_)
    rw [System.run_concat]
    exact ht

/-! ## 5. Where the text in hand was taken up -/

/-- The segment at which a validation takes a text up: it reuses the installed analysis at its
start, or reads the document. The segments after it only hand the text on. -/
inductive Task.TakesUp (store : Store) (v : Validation) : Task → Text → Prop
  | reuse {a : Analysis} (h : v.firstLook store = .reuse a) :
    TakesUp store v (.starting (.validation v)) a.text
  | read {snapshot : Snapshot} (h : Snapshot.read? store v.uri = some snapshot) :
    TakesUp store v (.reading (.validation v)) snapshot.text

/-- **A task that has a text in hand had it before its latest segment, or took it up with this
one**, and then the document holds it. An analysis is reused because its text has the fingerprint of
the document's, so here two texts of the run must not share one. -/
theorem Task.inHand_advance {held : List Text} {task : Task} {store : Store} {v : Validation}
    {t : Text} (hfree : CollisionFree held) (hstore : Server.Grounded held store)
    (htask : task.Grounded held) (h : (task.advance store).1.inHand = some (v, t)) :
    task.inHand = some (v, t) ∨
      task.TakesUp store v t ∧ ∃ d, store.get? v.uri = some d ∧ d.text = t := by
  cases task with
  | starting purpose =>
    right
    cases purpose with
    | validation u =>
      rw [Task.advance] at h
      split at h
      · simp [inHand] at h
      · next a hlook =>
        -- the fingerprints agree, and no two texts of the run share one
        obtain ⟨d, hget, ha, hfp⟩ := Validation.firstLook_eq_reuse hlook
        obtain ⟨rfl, rfl⟩ : u = v ∧ a.text = t := by simpa [inHand] using h
        have hheld := (hstore.analysis u.uri d a hget ha).1
        exact ⟨.reuse hlook, d, hget, (hfree _ hheld _ (hstore.text u.uri d hget) hfp).symm⟩
      · simp [inHand] at h
    | completion uri =>
      rw [Task.advance] at h
      split at h
      · dsimp only at h
        split at h <;> simp [inHand] at h
      · simp [inHand] at h
  | reading purpose =>
    right
    rw [Task.advance] at h
    cases hget : store.get? purpose.uri with
    | none => simp [Snapshot.read?, hget, inHand] at h
    | some d =>
      simp only [Snapshot.read?, hget, Option.map_some] at h
      cases purpose with
      | validation u =>
        obtain ⟨rfl, rfl⟩ : u = v ∧ d.text = t := by simpa [inHand] using h
        have hread : Snapshot.read? store u.uri = some ⟨d.text, d.version⟩ :=
          Option.map_eq_some_iff.mpr ⟨d, hget, rfl⟩
        exact ⟨.read hread, d, hget, rfl⟩
      | completion uri => simp [inHand] at h
  | building purpose snapshot =>
    left
    cases purpose with
    | validation u => exact h
    | completion uri => simp [Task.advance, inHand] at h
  | installing purpose snapshot a =>
    left
    obtain ⟨-, rfl⟩ := htask
    cases purpose with
    | validation u => exact h
    | completion uri => simp [Task.advance, inHand] at h
  | finishing u a => simp [Task.advance, inHand] at h
  | ended => simp [Task.advance, inHand] at h

/-- **A text in hand was taken up from the document** by one of the task's segments. No later
segment of the task takes a text up, so there is one such segment in the run. -/
theorem System.taken_up (actions : List Action) {held : List Text} (hfree : CollisionFree held)
    (hheld : ∀ t ∈ System.texts actions, t ∈ held) {i : Nat} {task : Task} {v : Validation}
    {t : Text} (htask : (System.run {} actions).tasks[i]? = some task)
    (hhand : task.inHand = some (v, t)) :
    ∃ past since task₀ d, actions = past ++ .advance i :: since ∧
      (System.run {} past).tasks[i]? = some task₀ ∧
      task₀.TakesUp (System.run {} past).store v t ∧
      (System.run {} past).store.get? v.uri = some d ∧ d.text = t := by
  induction actions using List.reverseRecOn generalizing task with
  | nil => simp [System.run] at htask
  | append_singleton actions action ih =>
    have hpast : ∀ t ∈ System.texts actions, t ∈ held :=
      fun t ht => hheld t (System.mem_texts_of_isPrefix (List.prefix_append _ _) ht)
    -- a task that had the text in hand before this action took it up before
    have hbefore : ∀ task', (System.run {} actions).tasks[i]? = some task' →
        task'.inHand = some (v, t) → ∃ past since task₀ d,
          actions ++ [action] = past ++ .advance i :: since ∧
          (System.run {} past).tasks[i]? = some task₀ ∧
          task₀.TakesUp (System.run {} past).store v t ∧
          (System.run {} past).store.get? v.uri = some d ∧ d.text = t := by
      intro task' htask' hhand'
      obtain ⟨past, since, task₀, d, rfl, htaken⟩ := ih hpast htask' hhand'
      exact ⟨past, since ++ [action], task₀, d, by simp, htaken⟩
    rw [System.run_concat] at htask
    rcases System.task_cases htask with hsame | ⟨purpose, rfl⟩ | ⟨task', rfl, htask', rfl⟩
    · exact hbefore task hsame hhand
    · simp [Task.inHand] at hhand
    · have hground := System.grounded_run actions hpast
      rcases Task.inHand_advance hfree hground.store
        (hground.tasks task' (List.mem_of_getElem? htask')) hhand with
        hold | ⟨htakes, d, hget, ht⟩
      · exact hbefore task' htask' hold
      · exact ⟨actions, [], task', d, rfl, htask', htakes, hget, ht⟩

/-! ## 6. Until the version is used again -/

/-- The action opens or changes the document under that version. A client that numbers its edits
upwards does so once, but nothing makes it do that. -/
def Action.edits (uri : String) (version : Int) : Action → Bool
  | .event (.openDocument name number _) | .event (.changeDocument name number _) =>
    name == uri && number == version
  | _ => false

/-- If the document is there under that version, it holds that text. It may be closed, or there
under another version, and come back. -/
def Pinned (uri : String) (version : Int) (t : Text) (store : Store) : Prop :=
  ∀ d, store.get? uri = some d → d.version = version → d.text = t

/-- Only an edit under the version changes the text that goes with it. Segments of tasks leave texts
and versions alone, and other edits lead to another version. -/
theorem Pinned.step {uri : String} {version : Int} {t : Text} {s : System} {action : Action}
    (hs : Pinned uri version t s.store) (hedit : action.edits uri version = false) :
    Pinned uri version t (s.step action).store := by
  intro d hget hversion
  cases action with
  | event event =>
    -- what an event does to the document is one of six things, of which only two give it another
    -- text
    have heffect := s.world.handle_effect event uri
    have hget' : (s.world.handle event).world.documents.get? uri = some d := hget
    generalize (s.world.handle event).world.documents.get? uri = result at heffect hget'
    generalize hfound : s.world.documents.get? uri = found at heffect
    cases heffect with
    | same => exact hs d (hfound.trans hget') hversion
    | analysed position d' =>
      obtain rfl := Option.some.inj hget'
      exact hs d' hfound hversion
    | opened number text =>
      obtain rfl := Option.some.inj hget'
      have hother : number ≠ version := by simpa [Action.edits] using hedit
      exact absurd hversion hother
    | changed number changes =>
      obtain rfl := Option.some.inj hget'
      have hother : number ≠ version := by simpa [Action.edits] using hedit
      exact absurd hversion hother
    | closed => simp at hget'
    | forgotten =>
      obtain ⟨d', hd', rfl⟩ := Option.map_eq_some_iff.mp hget'
      exact hs d' (hfound.trans hd') hversion
  | wake index =>
    rw [System.step] at hget
    split at hget <;> exact hs d hget hversion
  | request name => exact hs d hget hversion
  | advance index =>
    cases htask : s.tasks[index]? with
    | none =>
      simp only [System.step, htask] at hget
      exact hs d hget hversion
    | some task =>
      simp only [System.step, htask] at hget
      -- a segment leaves the text and the version of every document
      obtain ⟨d', hget', htext, hsame, -⟩ := Task.advance_get? hget
      rw [htext]
      exact hs d' hget' (hsame ▸ hversion)

/-- So without such an edit the text stays pinned along any run. -/
theorem Pinned.run {uri : String} {version : Int} {t : Text} {s : System} {actions : List Action}
    (hs : Pinned uri version t s.store)
    (hedits : ∀ action ∈ actions, action.edits uri version = false) :
    Pinned uri version t (s.run actions).store := by
  induction actions generalizing s with
  | nil => exact hs
  | cons action actions ih =>
    exact ih (hs.step (hedits action (by simp))) fun a ha => hedits a (by simp [ha])

/-- An edit puts the document there under its version, also if it was not open before. -/
theorem System.get?_of_edits {s : System} {uri : String} {version : Int} {action : Action}
    (h : action.edits uri version) :
    ∃ d, (s.step action).store.get? uri = some d ∧ d.version = version := by
  cases action with
  | event event =>
    cases event with
    | openDocument name number text =>
      obtain ⟨rfl, rfl⟩ : name = uri ∧ number = version := by simpa [Action.edits] using h
      exact ⟨{ text, version := number },
        by simp [System.step, System.store, World.handle, World.openDocument, World.schedule], rfl⟩
    | changeDocument name number changes =>
      obtain ⟨rfl, rfl⟩ : name = uri ∧ number = version := by simpa [Action.edits] using h
      exact ⟨((s.world.documents.get? name).getD {}).change number changes,
        by simp [System.step, System.store, World.handle, World.changeDocument, World.schedule],
        rfl⟩
    | _ => simp [Action.edits] at h
  | _ => simp [Action.edits] at h

/-- No action of the list is an edit under the version, or there is a last one. -/
theorem exists_last_edit (uri : String) (version : Int) (actions : List Action) :
    (∀ action ∈ actions, action.edits uri version = false) ∨
    ∃ earlier edit later, actions = earlier ++ edit :: later ∧ edit.edits uri version ∧
      ∀ action ∈ later, action.edits uri version = false := by
  induction actions with
  | nil => simp
  | cons action actions ih =>
    rcases ih with hnone | ⟨earlier, edit, later, rfl, hedit, hlater⟩
    · by_cases haction : action.edits uri version
      · exact .inr ⟨[], action, actions, rfl, haction, hnone⟩
      · exact .inl (List.forall_mem_cons.mpr ⟨by simpa using haction, hnone⟩)
    · exact .inr ⟨action :: earlier, edit, later, rfl, hedit, hlater⟩

/-- The last edit under a version leaves the text that the document holds under this version later.
-/
theorem System.get?_of_last_edit {s : System} {uri : String} {version : Int} {edit : Action}
    {later : List Action} {d : Document} (hedit : edit.edits uri version)
    (hlater : ∀ action ∈ later, action.edits uri version = false)
    (hget : ((s.step edit).run later).store.get? uri = some d) (hversion : d.version = version) :
    ∃ d₁, (s.step edit).store.get? uri = some d₁ ∧ d₁.text = d.text := by
  obtain ⟨d₁, hget₁, -⟩ := s.get?_of_edits hedit
  have hpinned : Pinned uri version d₁.text (s.step edit).store := by
    intro d' hget' _
    rw [Option.some.inj (hget₁.symm.trans hget')]
  exact ⟨d₁, hget₁, (hpinned.run hlater d hget hversion).symm⟩

/-! ## 7. The analysis that is published -/

/-- **What the last look is worth.** Let the last look of a validation succeed, whatever tasks and
events came before it. The analysis in hand is what analysing gives for the text that the document
held at the segment with which the task took it up, by reusing the installed analysis or by reading.
It is of the text that the document holds now, if and only if the last edit since then under the
scheduled version, should there be one, left the text that is in hand. -/
theorem analysis_in_hand_current_iff (actions : List Action) (i : Nat) (v : Validation)
    (a : Analysis) (d : Document)
    (htask : (System.run {} actions).tasks[i]? = some (.finishing v a))
    (hlook : (Task.finishing v a).publishes? (System.run {} actions).store = some a)
    (hget : (System.run {} actions).store.get? v.uri = some d)
    (hfree : CollisionFree (System.texts actions)) :
    a = Analysis.ofText a.text ∧
    ∃ past since task₀ d₀, actions = past ++ .advance i :: since ∧
      (System.run {} past).tasks[i]? = some task₀ ∧
      task₀.TakesUp (System.run {} past).store v a.text ∧
      (System.run {} past).store.get? v.uri = some d₀ ∧ d₀.text = a.text ∧
      (a.text = d.text ↔
        ∀ earlier edit later, since = earlier ++ edit :: later → edit.edits v.uri v.version →
          (∀ action ∈ later, action.edits v.uri v.version = false) →
          ∃ d₁, (System.run {} (past ++ .advance i :: earlier ++ [edit])).store.get? v.uri =
            some d₁ ∧ d₁.text = a.text) := by
  have hground := System.grounded_run actions fun t ht => ht
  refine ⟨(hground.tasks _ (List.mem_of_getElem? htask)).2, ?_⟩
  obtain ⟨past, since, task₀, d₀, rfl, htask₀, htakes, hget₀, htext₀⟩ :=
    System.taken_up actions hfree (fun t ht => ht) htask rfl
  refine ⟨past, since, task₀, d₀, rfl, htask₀, htakes, hget₀, htext₀, ?_⟩
  -- the last look succeeds only for the scheduled version
  have hversion : d.version = v.version := by
    by_contra hmoved
    simp [Task.publishes?, Validation.lastLook, hget, hmoved] at hlook
  -- whichever edit under that version came last, the text that it left is there now
  have hedited : ∀ earlier edit later, since = earlier ++ edit :: later →
      edit.edits v.uri v.version → (∀ action ∈ later, action.edits v.uri v.version = false) →
      ∃ d₁, (System.run {} (past ++ .advance i :: earlier ++ [edit])).store.get? v.uri =
        some d₁ ∧ d₁.text = d.text := by
    rintro earlier edit later rfl hedit hlater
    rw [System.run_concat]
    refine System.get?_of_last_edit hedit hlater ?_ hversion
    rw [← System.run_concat, ← System.run_append]
    simpa using hget
  constructor
  · intro hsame earlier edit later hsince hedit hlater
    obtain ⟨d₁, hget₁, htext₁⟩ := hedited earlier edit later hsince hedit hlater
    exact ⟨d₁, hget₁, htext₁.trans hsame.symm⟩
  · intro hleft
    rcases exists_last_edit v.uri v.version since with
      hnone | ⟨earlier, edit, later, hsince, hedit, hlater⟩
    · -- taking the text up left the document as it was, and so did all that came after
      have hpinned : Pinned v.uri v.version a.text
          ((System.run {} past).step (.advance i)).store := by
        refine Pinned.step (fun d' hget' _ => ?_) rfl
        rw [← htext₀, Option.some.inj (hget₀.symm.trans hget')]
      have hend := hpinned.run hnone
      rw [← System.run_concat, ← System.run_append] at hend
      exact (hend d (by simpa using hget) hversion).symm
    · obtain ⟨d₁, hget₁, htext₁⟩ := hleft earlier edit later hsince hedit hlater
      obtain ⟨d₂, hget₂, htext₂⟩ := hedited earlier edit later hsince hedit hlater
      obtain rfl : d₁ = d₂ := Option.some.inj (hget₁.symm.trans hget₂)
      exact htext₁.symm.trans htext₂

/-- A document is closed and opened again under the same version while the first validation builds;
the second one installs its analysis before the first one gets to its last look. -/
def reopenedWhileBuilding : List Action :=
  [.event (.openDocument "doc" 1 ['x']), .event (.wait 200), .wake 0, .advance 0, .advance 0,
    .event (.closeDocument "doc"), .event (.openDocument "doc" 1 ['y', ';']), .event (.wait 200),
    .wake 0, .advance 1, .advance 1, .advance 1, .advance 1, .advance 0, .advance 0]

/-- **The analysis that is published can be stale.** The last look of the first validation succeeds,
and it goes on to publish the analysis of a text that the document no longer holds. -/
theorem stale_analysis_in_hand :
    CollisionFree (System.texts reopenedWhileBuilding) ∧
    ((System.run {} reopenedWhileBuilding).tasks[0]?).bind
      (fun task => task.publishes? (System.run {} reopenedWhileBuilding).store) =
        some (Analysis.ofText ['x']) ∧
    ((System.run {} reopenedWhileBuilding).store.get? "doc").map (fun d => d.text) =
      some ['y', ';'] ∧
    diagnose ['x'] ≠ diagnose ['y', ';'] := by
  decide +kernel

/-- The second validation of the same run has the right analysis in hand. -/
theorem current_analysis_in_hand :
    (System.run {} reopenedWhileBuilding).tasks[1]? =
      some (.finishing ⟨"doc", 1, 1000, 400⟩ (Analysis.ofText ['y', ';'])) ∧
    ∃ d past since task₀, (System.run {} reopenedWhileBuilding).store.get? "doc" = some d ∧
      reopenedWhileBuilding = past ++ .advance 1 :: since ∧
      (System.run {} past).tasks[1]? = some task₀ ∧
      task₀.TakesUp (System.run {} past).store ⟨"doc", 1, 1000, 400⟩ ['y', ';'] ∧
      (d.text = ['y', ';'] ↔
        ∀ earlier edit later, since = earlier ++ edit :: later → edit.edits "doc" 1 →
          (∀ action ∈ later, action.edits "doc" 1 = false) →
          ∃ d₁, (System.run {} (past ++ .advance 1 :: earlier ++ [edit])).store.get? "doc" =
            some d₁ ∧ d₁.text = ['y', ';']) := by
  have htask : (System.run {} reopenedWhileBuilding).tasks[1]? =
      some (.finishing ⟨"doc", 1, 1000, 400⟩ (Analysis.ofText ['y', ';'])) := by decide +kernel
  have htext : ((System.run {} reopenedWhileBuilding).store.get? "doc").map (fun d => d.text) =
      some ['y', ';'] := by decide +kernel
  obtain ⟨d, hget, -⟩ := Option.map_eq_some_iff.mp htext
  obtain ⟨-, past, since, task₀, -, hsplit, htask₀, htakes, -, -, hiff⟩ :=
    analysis_in_hand_current_iff
    reopenedWhileBuilding 1 ⟨"doc", 1, 1000, 400⟩ (Analysis.ofText ['y', ';']) d htask
    (by decide +kernel) hget (by decide +kernel)
  exact ⟨htask, d, past, since, task₀, hget, hsplit, htask₀, htakes, eq_comm.trans hiff⟩

end Server

end MacroScript
