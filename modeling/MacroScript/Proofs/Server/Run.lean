import MacroScript.Proofs.Server.Validation
import MacroScript.Server.World
import Mathlib.Data.List.Basic
import Mathlib.Data.List.Perm.Basic

/-!
# Runs, moment by moment

A run of the server is a list of events, and each event is followed by the validations that fall
due. Here such a run is taken apart into its moments: one for each event that is handled and one for
each validation that is run, with the state right after it and what was sent during it. What a
moment can do is said once, by `Effect` for the events and by `Validation.run_cases` for the
validations; every statement about runs is then an induction over linked moments
(`Linked.invariant`).

The moments of a run are linked, end in the state that the run ends in, and send what the run sends
(`linked_moments`, `sent_moments`), so a fact about them is one about the run.
-/
namespace MacroScript

namespace Server

/-! ## 1. What an event does to one document -/

/-- The event is about the document of that name, or about all documents. A completion request is
left out: it may install an analysis, but changes neither the text nor what is published. -/
def Event.touches (uri : String) : Event → Bool
  | .openDocument name _ _ | .changeDocument name _ _ | .closeDocument name => name == uri
  | .reloadSettings => true
  | _ => false

/-- What an event may do to the document of a name: what was found under the name before, and what
is found there afterwards. All that later proofs need to know of the events is said by these six
cases. -/
inductive Effect (uri : String) : Event → Option Document → Option Document → Prop
  | same (event : Event) (found : Option Document) (h : event.touches uri = false) :
      Effect uri event found found
  | analysed (position : Position) (d : Document) (h : d.analysis = none) :
      Effect uri (.complete uri position) (some d) (some (d.install (Analysis.ofText d.text)))
  | opened (version : Int) (text : Text) (found : Option Document) :
      Effect uri (.openDocument uri version text) found (some { text, version })
  | changed (version : Int) (changes : List Change) (found : Option Document) :
      Effect uri (.changeDocument uri version changes) found
        (some ((found.getD {}).change version changes))
  | closed (found : Option Document) : Effect uri (.closeDocument uri) found none
  | forgotten (found : Option Document) :
      Effect uri .reloadSettings found (found.map fun d => { d with published := none })

/-- The event makes the server ask for its settings. -/
def Event.loadsSettings : Event → Bool
  | .connect | .reloadSettings => true
  | _ => false

namespace World

/-! ## 2. Scheduling -/

/-- The validation that would be scheduled now. -/
def validationOf (w : World) (uri : String) (version : Int) : Validation :=
  ⟨uri, version, w.settings.limit, w.now + w.settings.delay⟩

/-- Scheduling one entry after the other only makes the list of pending validations longer. The
settings stay, so that all get the same limit and delay. -/
theorem foldl_schedule (entries : List (String × Document)) (w : World) :
    entries.foldl (fun w entry => w.schedule entry.1 entry.2.version) w =
      { w with
        pending := w.pending ++ entries.map fun entry =>
          w.validationOf entry.1 entry.2.version } := by
  induction entries generalizing w with
  | nil => simp
  | cons entry entries ih =>
    rw [List.foldl_cons, ih]
    simp [schedule, validationOf]

/-- A completion request leaves the documents alone, or gives an analysis to the one it is about.
Whatever else it does is about the list. -/
theorem completeAt_cases (w : World) (uri : String) (position : Position) :
    ∃ documents last,
      (w.completeAt uri position).world = { w with documents, lastCompleted := last } ∧
      (documents = w.documents ∨
        ∃ d, w.documents.get? uri = some d ∧ d.analysis = none ∧
          documents = w.documents.put uri (d.install (Analysis.ofText d.text))) := by
  cases hget : w.documents.get? uri with
  | none =>
    exact ⟨w.documents, w.lastCompleted, by simp [completeAt, analysisFor, hget], .inl rfl⟩
  | some d =>
    cases ha : d.analysis with
    | some a =>
      exact ⟨w.documents, some a, by simp [completeAt, analysisFor, hget, ha], .inl rfl⟩
    | none =>
      refine ⟨_, some (Analysis.ofText d.text), ?_, .inr ⟨d, rfl, ha, rfl⟩⟩
      simp [completeAt, analysisFor, hget, ha, refresh_of_get? hget]

theorem completeAt_sent (w : World) (uri : String) (position : Position) :
    (w.completeAt uri position).sent = [] := by
  simp only [completeAt]
  split <;> rfl

/-- **What an event does to a document**, by the event and by whether it is about this document or
another one. -/
theorem handle_effect (w : World) (event : Event) (uri : String) :
    Effect uri event (w.documents.get? uri) ((w.handle event).world.documents.get? uri) := by
  cases event with
  | openDocument name version text =>
    by_cases h : uri = name
    · subst h
      simpa [handle, openDocument, schedule] using Effect.opened version text _
    · have hother : (Event.openDocument name version text).touches uri = false := by
        simpa [Event.touches] using Ne.symm h
      simpa [handle, openDocument, schedule, Store.get?_put_of_ne _ _ h] using
        Effect.same _ _ hother
  | changeDocument name version changes =>
    by_cases h : uri = name
    · subst h
      simpa [handle, changeDocument, schedule] using
        Effect.changed version changes (w.documents.get? uri)
    · have hother : (Event.changeDocument name version changes).touches uri = false := by
        simpa [Event.touches] using Ne.symm h
      simpa [handle, changeDocument, schedule, Store.get?_put_of_ne _ _ h] using
        Effect.same _ _ hother
  | closeDocument name =>
    by_cases h : uri = name
    · subst h
      simpa [handle, closeDocument] using Effect.closed _
    · have hother : (Event.closeDocument name).touches uri = false := by
        simpa [Event.touches] using Ne.symm h
      simpa [handle, closeDocument, Store.get?_erase_of_ne _ h] using Effect.same _ _ hother
  | complete name position =>
    obtain ⟨documents, last, hworld, hdocs | ⟨d, hget, ha, hdocs⟩⟩ :=
      w.completeAt_cases name position
    · simpa [handle, hworld, hdocs] using Effect.same _ _ rfl
    · by_cases h : uri = name
      · subst h
        simpa [handle, hworld, hdocs, hget] using Effect.analysed position d ha
      · simpa [handle, hworld, hdocs, Store.get?_put_of_ne _ _ h] using Effect.same _ _ rfl
  | reloadSettings =>
    -- the settings are loaded, and then all documents are put back; scheduling leaves them alone
    simp only [handle, loadSettings, revalidate, foldl_schedule, Store.get?_map]
    exact Effect.forgotten _
  | connect => exact Effect.same _ _ rfl
  | resolve item => exact Effect.same _ _ rfl
  | answerWith values => exact Effect.same _ _ rfl
  | wait milliseconds => exact Effect.same _ _ rfl
  | shutdown => exact Effect.same _ _ rfl

/-- The validations that an event schedules: those that are pending after it and were not before. -/
def scheduled (w : World) (event : Event) : List Validation :=
  (w.handle event).world.pending.drop w.pending.length

/-- An event adds to the pending validations and takes none away. One that is out of date gives up
when it runs. -/
theorem handle_pending (w : World) (event : Event) :
    (w.handle event).world.pending = w.pending ++ w.scheduled event := by
  have hsub : w.pending <+: (w.handle event).world.pending := by
    cases event with
    | complete name position =>
      obtain ⟨documents, last, hworld, -⟩ := w.completeAt_cases name position
      simp [handle, hworld]
    | reloadSettings =>
      simp [handle, loadSettings, revalidate, foldl_schedule]
    | _ =>
      simp [handle, connect, loadSettings, openDocument, changeDocument, closeDocument, schedule]
  obtain ⟨more, hmore⟩ := hsub
  rw [scheduled, ← hmore, List.drop_left]

/-- **What an event schedules**: the document that it opens or changes, under the version that it
gives, or all documents. -/
theorem scheduled_eq (w : World) (event : Event) :
    w.scheduled event =
      match event with
      | .openDocument uri version _ | .changeDocument uri version _ => [w.validationOf uri version]
      | .reloadSettings =>
        (w.handle .reloadSettings).world.documents.entries.map fun entry =>
          (w.handle .reloadSettings).world.validationOf entry.1 entry.2.version
      | _ => [] := by
  cases event with
  | openDocument name version text =>
    simp [scheduled, handle, openDocument, schedule, validationOf]
  | changeDocument name version changes =>
    simp [scheduled, handle, changeDocument, schedule, validationOf]
  | reloadSettings =>
    simp only [scheduled, handle, loadSettings, revalidate, foldl_schedule, List.drop_left,
      validationOf]
  | complete name position =>
    obtain ⟨documents, last, hworld, -⟩ := w.completeAt_cases name position
    simp [scheduled, handle, hworld]
  | _ => simp [scheduled, handle, connect, loadSettings, closeDocument]

/-- **Settings are taken at the time of scheduling**: a validation that an event schedules has the
limit that stands after the event, and is due after the delay that stands then. -/
theorem eq_validationOf_of_mem_scheduled {w : World} {event : Event} {v : Validation}
    (h : v ∈ w.scheduled event) :
    v = (w.handle event).world.validationOf v.uri v.version := by
  rw [scheduled_eq] at h
  split at h
  · rw [List.mem_singleton.mp h]; rfl
  · rw [List.mem_singleton.mp h]; rfl
  · obtain ⟨entry, -, rfl⟩ := List.mem_map.mp h
    rfl
  · simp at h

/-- **An event that touches a document schedules it** under the version that it has afterwards,
unless the event closes it. -/
theorem exists_scheduled_of_touches {w : World} {event : Event} {uri : String} {d : Document}
    (htouch : event.touches uri)
    (h : (w.handle event).world.documents.get? uri = some d) :
    ∃ v ∈ w.scheduled event, v.uri = uri ∧ v.version = d.version := by
  rw [scheduled_eq]
  cases event with
  | openDocument name version text =>
    have hname : name = uri := by simpa [Event.touches] using htouch
    subst hname
    have hd : { text, version } = d := by simpa [handle, openDocument, schedule] using h
    subst hd
    exact ⟨_, List.mem_singleton_self _, rfl, rfl⟩
  | changeDocument name version changes =>
    have hname : name = uri := by simpa [Event.touches] using htouch
    subst hname
    have hd : ((w.documents.get? name).getD {}).change version changes = d := by
      simpa [handle, changeDocument, schedule] using h
    subst hd
    exact ⟨_, List.mem_singleton_self _, rfl, rfl⟩
  | closeDocument name =>
    have hname : name = uri := by simpa [Event.touches] using htouch
    subst hname
    simp [handle, closeDocument] at h
  | reloadSettings => exact ⟨_, List.mem_map_of_mem (Store.mem_entries_of_get? h), rfl, rfl⟩
  | _ => simp [Event.touches] at htouch

/-- An event schedules nothing for a document that it does not touch. -/
theorem ne_of_mem_scheduled {w : World} {event : Event} {uri : String} {v : Validation}
    (htouch : event.touches uri = false) (h : v ∈ w.scheduled event) : v.uri ≠ uri := by
  rw [scheduled_eq] at h
  split at h
  · rw [List.mem_singleton.mp h]
    exact ne_of_beq_false htouch
  · rw [List.mem_singleton.mp h]
    exact ne_of_beq_false htouch
  · contradiction
  · simp at h

/-- A client that is ready stays so, also after a shutdown was asked for. -/
theorem handle_isConnected {w : World} (event : Event) (h : w.isConnected) :
    (w.handle event).world.isConnected := by
  cases event with
  | complete name position =>
    obtain ⟨documents, last, hworld, -⟩ := w.completeAt_cases name position
    simpa [handle, hworld] using h
  | reloadSettings => simpa [handle, loadSettings, revalidate, foldl_schedule] using h
  | connect => rfl
  | _ => exact h

/-- Only a client that is asked changes the settings. -/
theorem handle_settings {w : World} {event : Event} (h : event.loadsSettings = false) :
    (w.handle event).world.settings = w.settings := by
  cases event with
  | complete name position =>
    obtain ⟨documents, last, hworld, -⟩ := w.completeAt_cases name position
    simp [handle, hworld]
  | connect => simp [Event.loadsSettings] at h
  | reloadSettings => simp [Event.loadsSettings] at h
  | _ => rfl

/-- An event by itself publishes nothing but the empty list for a document that it closes. All other
publications come from validations. -/
theorem eq_closed_of_mem_handle_sent {w : World} {event : Event} {message : Message} {uri : String}
    (h : message ∈ (w.handle event).sent) (huri : message.uri? = some uri) :
    event = .closeDocument uri ∧ message = .publish uri none [] := by
  cases event with
  | closeDocument name =>
    have hmessage : message = .publish name none [] := by
      simp only [handle, closeDocument, receives] at h
      split at h
      · simpa using h
      · simp at h
    subst hmessage
    simp only [Message.uri?, Option.some.injEq] at huri
    exact huri ▸ ⟨rfl, rfl⟩
  | connect =>
    have hmessage :
        message = .log "Macrorify Language Server started" ∨ message = .askSettings := by
      simpa [handle, connect, loadSettings, receives] using h
    rcases hmessage with rfl | rfl <;> simp [Message.uri?] at huri
  | reloadSettings =>
    simp only [handle, loadSettings, receives] at h
    split at h
    · rw [List.mem_singleton.mp h] at huri
      simp [Message.uri?] at huri
    · simp at h
  | complete name position => simp [handle, completeAt_sent] at h
  | _ => simp [handle] at h

/-- **What a validation does to the server.** It gives up and nothing happens, or it publishes for a
document that it found with its version and without a mark. -/
theorem validate_cases (w : World) (v : Validation) :
    (w.validate v = (w, []) ∧
      ∀ d, w.documents.get? v.uri = some d → d.version = v.version → d.isPublished) ∨
    ∃ d a, w.documents.get? v.uri = some d ∧ d.version = v.version ∧ d.isPublished = false ∧
      (d.analysis = some a ∨ a = Analysis.ofText d.text) ∧ a.text.fingerprint = d.fingerprint ∧
      w.validate v = ({ w with documents := w.documents.put v.uri (d.publish a) },
        w.receives [.publish v.uri (some v.version) (a.diagnostics.take v.limit)]) := by
  rcases v.run_cases w.documents with ⟨hrun, hgone⟩ | ⟨d, a, hget, hversion, hpub, ha, hfp, hrun⟩
  · refine .inl ⟨?_, hgone⟩
    simp [validate, hrun, receives]
  · refine .inr ⟨d, a, hget, hversion, hpub, ha, hfp, ?_⟩
    rw [validate, hrun]

end World

/-! ## 3. Moments -/

/-- What makes a moment. -/
inductive Cause where
  | event (event : Event)
  | validation (v : Validation)

/-- A moment of a run: its cause, the state right after it, and what the client received then.
Events and validations are put on one footing by it. -/
structure Moment where
  cause : Cause
  world : World
  sent : List Message

/-- **What can happen next in a state**: an event, or one of the pending validations, which is then
no longer pending. The order in which validations fall due is left open, so that what is proved from
it holds for any. -/
inductive Step (w : World) : Moment → Prop
  | event (event : Event) :
      Step w ⟨.event event, (w.handle event).world, (w.handle event).sent⟩
  | validation (v : Validation) (pending : List Validation)
      (h : w.pending.Perm (v :: pending)) :
      Step w ⟨.validation v, { (w.validate v).1 with pending }, (w.validate v).2⟩

/-- The state after some moments. -/
def lastWorld (w : World) (moments : List Moment) : World :=
  moments.foldl (fun _ m => m.world) w

@[simp] theorem lastWorld_nil (w : World) : lastWorld w [] = w := rfl

@[simp] theorem lastWorld_cons (w : World) (m : Moment) (ms : List Moment) :
    lastWorld w (m :: ms) = lastWorld m.world ms := rfl

theorem lastWorld_append (w : World) (ms later : List Moment) :
    lastWorld w (ms ++ later) = lastWorld (lastWorld w ms) later :=
  List.foldl_append

/-- Each of the moments happens in the state that the one before it left. -/
def Linked : World → List Moment → Prop
  | _, [] => True
  | w, m :: ms => Step w m ∧ Linked m.world ms

/-- Linked moments can be cut anywhere, at the state that the first part leads to. -/
theorem linked_append {w : World} {ms later : List Moment} :
    Linked w (ms ++ later) ↔ Linked w ms ∧ Linked (lastWorld w ms) later := by
  induction ms generalizing w with
  | nil => simp [Linked]
  | cons m ms ih => simp only [List.cons_append, Linked, ih, lastWorld_cons, and_assoc]

/-- **Invariants along linked moments.** What holds of the past and the state, and is kept by every
moment that satisfies `Q`, holds at the end. All invariants of the server are instances of it. -/
theorem Linked.invariant {P : List Moment → World → Prop} {Q : Moment → Prop}
    (hstep : ∀ past w m, P past w → Step w m → Q m → P (past ++ [m]) m.world)
    {w : World} {ms : List Moment} (past : List Moment) (hlinked : Linked w ms)
    (hall : ∀ m ∈ ms, Q m) (hstart : P past w) : P (past ++ ms) (lastWorld w ms) := by
  induction ms generalizing w past with
  | nil => simpa using hstart
  | cons m ms ih =>
    have hnext := hstep past w m hstart hlinked.1 (hall m (by simp))
    have hrest := ih (past ++ [m]) hlinked.2 (fun m' hm' => hall m' (by simp [hm'])) hnext
    simpa [List.append_assoc] using hrest

/-! ## 4. The moments of a run -/

namespace World

/-- The validations that are to run now, in their order. -/
def due (w : World) : List Validation :=
  (w.pending.filter fun v => v.due ≤ w.now).mergeSort fun v u => v.due ≤ u.due

/-- The state without the validations that are to run now. -/
def withoutDue (w : World) : World :=
  { w with pending := w.pending.filter fun v => w.now < v.due }

/-- The moments of some validations that are run in order. Until its turn comes, a validation counts
as pending. -/
def validationMoments (w : World) : List Validation → List Moment
  | [] => []
  | v :: queue =>
    let next := (w.validate v).1
    ⟨.validation v, { next with pending := next.pending ++ queue }, (w.validate v).2⟩ ::
      next.validationMoments queue

/-- The moments of a run. -/
def moments (w : World) : List Event → List Moment
  | [] => []
  | event :: events =>
    let handled := (w.handle event).world
    ⟨.event event, handled, (w.handle event).sent⟩ ::
      (handled.withoutDue.validationMoments handled.due ++ (w.step event).world.moments events)

/-- The state after a run. -/
def after (w : World) : List Event → World
  | [] => w
  | event :: events => (w.step event).world.after events

/-- Everything that the client received during a run. -/
def sent (w : World) (events : List Event) : List Message :=
  (w.run events).flatMap fun outcome => outcome.sent

/-- The texts that the documents hold at the moments of a run. -/
def texts (w : World) (events : List Event) : List Text :=
  (w.moments events).flatMap fun m => m.world.documents.texts

/-- Pending validations are to run now or not. They are known up to their order only, as those that
are to run are sorted. -/
theorem pending_perm (w : World) : w.pending.Perm (w.withoutDue.pending ++ w.due) := by
  have hsplit : (w.pending.filter (fun v => w.now < v.due) ++
      w.pending.filter (fun v => !decide (w.now < v.due))).Perm w.pending :=
    List.filter_append_perm _ _
  have hdue : (w.pending.filter fun v => !decide (w.now < v.due)) =
      w.pending.filter fun v => v.due ≤ w.now := by
    refine List.filter_congr fun v _ => ?_
    rw [← decide_not, decide_eq_decide]
    omega
  rw [hdue] at hsplit
  exact hsplit.symm.trans ((List.mergeSort_perm _ _).symm.append_left _)

/-- If nothing is to run now, all that is pending stays so. -/
theorem withoutDue_of_due_eq_nil {w : World} (h : w.due = []) : w.withoutDue = w := by
  have hnone : w.pending.filter (fun v => v.due ≤ w.now) = [] := by
    have hperm := List.mergeSort_perm (w.pending.filter fun v => v.due ≤ w.now)
      (fun v u => decide (v.due ≤ u.due))
    exact List.nil_perm.mp (h ▸ hperm)
  have hall : w.pending.filter (fun v => w.now < v.due) = w.pending := by
    refine List.filter_eq_self.mpr fun v hv => ?_
    have hnot := List.filter_eq_nil_iff.mp hnone v hv
    simpa using hnot
  rw [withoutDue, hall]

/-- The queue is taken from its front, and what is left of it counts as pending. -/
theorem linked_validationMoments (queue : List Validation) (w : World)
    (pending : List Validation) (h : pending.Perm (w.pending ++ queue)) :
    Linked { w with pending } (w.validationMoments queue) := by
  induction queue generalizing w pending with
  | nil => trivial
  | cons v queue ih =>
    -- the queue was sorted, so what is pending is known up to its order only
    have hperm : pending.Perm (v :: (w.pending ++ queue)) := h.trans List.perm_middle
    refine ⟨Step.validation (w := { w with pending }) v _ hperm, ?_⟩
    exact ih (w.validate v).1 _ (List.Perm.refl _)

/-- Run moment by moment, the validations lead to the state that they lead to when run at once. -/
theorem lastWorld_validationMoments (queue : List Validation) (w : World)
    (pending : List Validation) (h : queue = [] → pending = w.pending) :
    lastWorld { w with pending } (w.validationMoments queue) = (w.runAll queue).1 := by
  induction queue generalizing w pending with
  | nil => rw [h rfl]; rfl
  | cons v queue ih =>
    refine ih (w.validate v).1 _ ?_
    rintro rfl
    simp

theorem sent_validationMoments (queue : List Validation) (w : World) :
    (w.validationMoments queue).flatMap (fun m => m.sent) = (w.runAll queue).2 := by
  induction queue generalizing w with
  | nil => rfl
  | cons v queue ih =>
    rw [validationMoments, List.flatMap_cons, ih]
    rfl

/-- The validations that are to run now are linked, and lead to the settled state. -/
theorem linked_settle (w : World) : Linked w (w.withoutDue.validationMoments w.due) ∧
    lastWorld w (w.withoutDue.validationMoments w.due) = w.settle.1 := by
  constructor
  · exact linked_validationMoments w.due w.withoutDue w.pending w.pending_perm
  · refine lastWorld_validationMoments w.due w.withoutDue w.pending ?_
    intro hnone
    rw [withoutDue_of_due_eq_nil hnone]

/-- **The moments of a run are linked**, and lead to the state that the run ends in. So invariants
along linked moments hold at the end of a run. -/
theorem linked_moments (w : World) (events : List Event) : Linked w (w.moments events) ∧
    lastWorld w (w.moments events) = w.after events := by
  induction events generalizing w with
  | nil => exact ⟨trivial, rfl⟩
  | cons event events ih =>
    obtain ⟨hlinked, hlast⟩ := (w.handle event).world.linked_settle
    obtain ⟨hrest, hend⟩ := ih (w.step event).world
    constructor
    · refine ⟨Step.event event, linked_append.mpr ⟨hlinked, ?_⟩⟩
      rw [hlast]
      exact hrest
    · rw [moments, lastWorld_cons, lastWorld_append, hlast]
      exact hend

/-- The moments of a run send what the run sends. -/
theorem sent_moments (w : World) (events : List Event) :
    (w.moments events).flatMap (fun m => m.sent) = w.sent events := by
  induction events generalizing w with
  | nil => rfl
  | cons event events ih =>
    rw [moments, List.flatMap_cons, List.flatMap_append, sent_validationMoments, ih,
      ← List.append_assoc]
    rfl

theorem after_append (w : World) (events later : List Event) :
    w.after (events ++ later) = (w.after events).after later := by
  induction events generalizing w with
  | nil => rfl
  | cons event events ih => exact ih (w.step event).world

theorem moments_append (w : World) (events later : List Event) :
    w.moments (events ++ later) = w.moments events ++ (w.after events).moments later := by
  induction events generalizing w with
  | nil => rfl
  | cons event events ih =>
    rw [List.cons_append, moments, ih, moments, List.cons_append, List.append_assoc]
    rfl

/-! ## 5. Where validations come from -/

/-- The validation was scheduled by an event of the run, with the limit that stood right then. -/
def ScheduledIn (w : World) (events : List Event) (v : Validation) : Prop :=
  ∃ earlier event later, events = earlier ++ event :: later ∧
    v ∈ (w.after earlier).scheduled event ∧
    v.limit = ((w.after earlier).handle event).world.settings.limit

theorem ScheduledIn.cons {w : World} {event : Event} {events : List Event} {v : Validation}
    (h : (w.step event).world.ScheduledIn events v) : w.ScheduledIn (event :: events) v := by
  obtain ⟨earlier, e, later, rfl, hv⟩ := h
  exact ⟨event :: earlier, e, later, rfl, hv⟩

theorem runAll_pending (w : World) (queue : List Validation) :
    (w.runAll queue).1.pending = w.pending := by
  induction queue generalizing w with
  | nil => rfl
  | cons v queue ih => exact ih (w.validate v).1

/-- A validation that an event leaves pending was pending before, or the event scheduled it. -/
theorem mem_pending_of_mem_handle_pending {w : World} {event : Event} {events : List Event}
    {v : Validation} (h : v ∈ (w.handle event).world.pending) :
    v ∈ w.pending ∨ w.ScheduledIn (event :: events) v := by
  rw [handle_pending] at h
  rcases List.mem_append.mp h with hold | hnew
  · exact .inl hold
  · refine .inr ⟨[], event, events, rfl, hnew, ?_⟩
    rw [eq_validationOf_of_mem_scheduled hnew]
    rfl

/-- The moments of some validations are caused by these, in their order. -/
theorem map_cause_validationMoments (w : World) (queue : List Validation) :
    (w.validationMoments queue).map (fun m => m.cause) = queue.map Cause.validation := by
  induction queue generalizing w with
  | nil => rfl
  | cons v queue ih =>
    rw [validationMoments, List.map_cons, ih, List.map_cons]

theorem exists_cause_of_mem_validationMoments {w : World} {queue : List Validation} {m : Moment}
    (hm : m ∈ w.validationMoments queue) : ∃ v ∈ queue, m.cause = .validation v := by
  have hcause : m.cause ∈ queue.map Cause.validation := by
    rw [← w.map_cause_validationMoments]
    exact List.mem_map_of_mem hm
  obtain ⟨v, hv, hmv⟩ := List.mem_map.mp hcause
  exact ⟨v, hv, hmv.symm⟩

/-- The moments of a run that are no validations are caused by its events. -/
theorem mem_of_cause_event {w : World} {events : List Event} {m : Moment} {event : Event}
    (hm : m ∈ w.moments events) (hcause : m.cause = .event event) : event ∈ events := by
  induction events generalizing w with
  | nil => simp [moments] at hm
  | cons first events ih =>
    rw [moments, List.mem_cons, List.mem_append] at hm
    rcases hm with rfl | hm | hm
    · simp only [Cause.event.injEq] at hcause
      simp [hcause]
    · obtain ⟨v, -, hv⟩ := exists_cause_of_mem_validationMoments hm
      rw [hcause] at hv
      contradiction
    · exact List.mem_cons_of_mem first (ih hm)

/-- **Every validation of a run was scheduled**: one that runs was pending at the start, or an event
of the run scheduled it. -/
theorem scheduledIn_of_cause {w : World} {events : List Event} {m : Moment} {v : Validation}
    (hm : m ∈ w.moments events) (hcause : m.cause = .validation v) :
    v ∈ w.pending ∨ w.ScheduledIn events v := by
  induction events generalizing w with
  | nil => simp [moments] at hm
  | cons event events ih =>
    rw [moments, List.mem_cons, List.mem_append] at hm
    rcases hm with rfl | hm | hm
    · simp at hcause
    · obtain ⟨u, hdue, hu⟩ := exists_cause_of_mem_validationMoments hm
      obtain rfl : u = v := Cause.validation.inj (hu.symm.trans hcause)
      have hpending : u ∈ (w.handle event).world.pending :=
        (pending_perm _).mem_iff.mpr (List.mem_append_right _ hdue)
      exact mem_pending_of_mem_handle_pending hpending
    · rcases ih hm with hstep | hlater
      · have hrest : v ∈ (w.handle event).world.withoutDue.pending := by
          rw [← runAll_pending _ (w.handle event).world.due]
          exact hstep
        exact mem_pending_of_mem_handle_pending (List.mem_filter.mp hrest).1
      · exact .inr hlater.cons

end World

end Server

end MacroScript
