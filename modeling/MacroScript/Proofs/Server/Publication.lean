import MacroScript.Proofs.Server.Run

/-!
# What the client is told about a document

Diagnostics reach the client late: a validation runs after a delay, in the order in which
validations fall due, and it gives up when the document moved on or when its text counts as
published. This module proves that nothing is lost or mixed up on the way.

Three invariants along the moments of a run carry it:

* `Grounded`: every installed analysis is the analysis of a text that the run held;
* `Covered`: a document that is not published has a validation pending for its very version;
* `Announced`: the mark "published" on a document is the fingerprint of the text whose diagnostics
  the client was told last.

None of them mentions the order in which validations fall due. A fingerprint stands for a text only
as far as no two texts share one, so the main statements assume `CollisionFree` of the texts of the
run.
-/
namespace MacroScript

namespace Server

/-! ## 1. Messages about a document -/

/-- No two of the texts share a fingerprint. The server compares fingerprints where texts are meant,
so this is what has to be assumed for them to stand for the texts. -/
def CollisionFree (texts : List Text) : Prop :=
  ∀ t ∈ texts, ∀ u ∈ texts, t.fingerprint = u.fingerprint → t = u

instance (texts : List Text) : Decidable (CollisionFree texts) :=
  inferInstanceAs (Decidable (∀ t ∈ texts, ∀ u ∈ texts, t.fingerprint = u.fingerprint → t = u))

/-- The message that a validation sends for a text. -/
def Validation.publication (v : Validation) (t : Text) : Message :=
  .publish v.uri (some v.version) ((diagnose t).take v.limit)

@[simp] theorem Validation.publication_uri? (v : Validation) (t : Text) :
    (v.publication t).uri? = some v.uri := rfl

/-- The last of the messages that publishes diagnostics for the document. It replaces all that were
sent before. -/
def lastPublication (uri : String) (messages : List Message) : Option Message :=
  (messages.filter fun message => message.uri? == some uri).getLast?

theorem lastPublication_append (uri : String) (messages later : List Message) :
    lastPublication uri (messages ++ later) =
      (lastPublication uri later).or (lastPublication uri messages) := by
  rw [lastPublication, List.filter_append, List.getLast?_append]
  rfl

theorem lastPublication_singleton {uri : String} {message : Message}
    (h : message.uri? = some uri) : lastPublication uri [message] = some message := by
  simp [lastPublication, h]

namespace Moment

/-- Something is published for the document at this moment. -/
def publishes (m : Moment) (uri : String) : Bool :=
  m.sent.any fun message => message.uri? == some uri

theorem publishes_eq_false_iff {m : Moment} {uri : String} :
    m.publishes uri = false ↔ ∀ message ∈ m.sent, message.uri? ≠ some uri := by
  simp [publishes]

theorem lastPublication_sent_eq_none {m : Moment} {uri : String} (h : m.publishes uri = false) :
    lastPublication uri m.sent = none := by
  rw [lastPublication, List.getLast?_eq_none_iff, List.filter_eq_nil_iff]
  intro message hmessage
  simpa using publishes_eq_false_iff.mp h message hmessage

end Moment

/-- What made the last moment that published something for the document. Unlike the message itself
it tells which validation it was. -/
def publisher (uri : String) (moments : List Moment) : Option Cause :=
  ((moments.filter fun m => m.publishes uri).getLast?).map fun m => m.cause

theorem publisher_append (uri : String) (moments later : List Moment) :
    publisher uri (moments ++ later) = (publisher uri later).or (publisher uri moments) := by
  rw [publisher, List.filter_append, List.getLast?_append, Option.map_or]
  rfl

theorem publisher_eq_none {uri : String} {moments : List Moment}
    (h : ∀ m ∈ moments, m.publishes uri = false) : publisher uri moments = none := by
  have hnone : (moments.filter fun m => m.publishes uri) = [] :=
    List.filter_eq_nil_iff.mpr fun m hm => by simp [h m hm]
  rw [publisher, hnone]
  rfl

/-- The cause behind the last publication is that of one of the moments. -/
theorem exists_cause_of_publisher {uri : String} {moments : List Moment} {cause : Cause}
    (h : publisher uri moments = some cause) : ∃ m ∈ moments, m.cause = cause := by
  obtain ⟨m, hm, hcause⟩ := Option.map_eq_some_iff.mp h
  exact ⟨m, (List.mem_filter.mp (List.mem_of_getLast? hm)).1, hcause⟩

/-! ## 2. Analyses come from the texts of the run -/

/-- The documents hold texts of the run, and so do their analyses, which are what analysing gives.
So an analysis is known by its text. -/
structure Grounded (held : List Text) (documents : Store) : Prop where
  text : ∀ uri d, documents.get? uri = some d → d.text ∈ held
  analysis : ∀ uri d a, documents.get? uri = some d → d.analysis = some a →
    a.text ∈ held ∧ a = Analysis.ofText a.text

/-- An analysis that stands after an event stood before it, or was just made of the document's text.
An edit takes none with it that was not there. -/
theorem Effect.analysis_cases {uri : String} {event : Event} {found : Option Document}
    {d : Document} {a : Analysis} (h : Effect uri event found (some d)) (ha : d.analysis = some a) :
    ∃ d', found = some d' ∧ (d'.analysis = some a ∨ a = Analysis.ofText d'.text) := by
  generalize hresult : some d = result at h
  cases h with
  | same => exact ⟨d, hresult.symm, .inl ha⟩
  | analysed position d' =>
    obtain rfl := Option.some.inj hresult
    exact ⟨d', rfl, .inr (Option.some.inj ha).symm⟩
  | opened =>
    obtain rfl := Option.some.inj hresult
    simp at ha
  | changed version changes =>
    obtain rfl := Option.some.inj hresult
    cases found with
    | none => simp [Document.change] at ha
    | some d' => exact ⟨d', rfl, .inl ha⟩
  | closed => simp at hresult
  | forgotten =>
    obtain ⟨d', rfl, rfl⟩ := Option.map_eq_some_iff.mp hresult.symm
    exact ⟨d', rfl, .inl ha⟩

/-- **What a validation publishes.** With grounded documents a validation gives up, or it publishes
the diagnostics of a text of the run that has the fingerprint of the document's text. -/
theorem Grounded.validate_cases {held : List Text} {w : World} (hw : Grounded held w.documents)
    (v : Validation) :
    (w.validate v = (w, []) ∧
      ∀ d, w.documents.get? v.uri = some d → d.version = v.version → d.isPublished) ∨
    ∃ d t, w.documents.get? v.uri = some d ∧ d.version = v.version ∧ d.isPublished = false ∧
      t ∈ held ∧ t.fingerprint = d.fingerprint ∧
      w.validate v =
        ({ w with documents := w.documents.put v.uri (d.publish (Analysis.ofText t)) },
          w.receives [v.publication t]) := by
  rcases w.validate_cases v with hgone | ⟨d, a, hget, hversion, hpub, ha, hfp, hrun⟩
  · exact .inl hgone
  · -- installed before or made just now, the analysis is that of a text of the run
    have hanalysis : a.text ∈ held ∧ a = Analysis.ofText a.text := by
      rcases ha with ha | rfl
      · exact hw.analysis v.uri d a hget ha
      · exact ⟨hw.text v.uri d hget, rfl⟩
    refine .inr ⟨d, a.text, hget, hversion, hpub, hanalysis.1, hfp, ?_⟩
    rw [Validation.publication, diagnose, ← hanalysis.2]
    exact hrun

/-- A moment keeps it, if the texts that the documents hold after it are among those of the run. -/
theorem Grounded.step {held : List Text} {w : World} {m : Moment} (hw : Grounded held w.documents)
    (hstep : Step w m) (hheld : ∀ t ∈ m.world.documents.texts, t ∈ held) :
    Grounded held m.world.documents := by
  refine ⟨fun uri d hget => hheld _ (Store.text_mem_texts hget), ?_⟩
  intro uri d a hget ha
  cases hstep with
  | event event =>
    have heffect := w.handle_effect event uri
    rw [hget] at heffect
    obtain ⟨d', hget', hold | rfl⟩ := heffect.analysis_cases ha
    · exact hw.analysis uri d' a hget' hold
    · exact ⟨hw.text uri d' hget', rfl⟩
  | validation v pending h =>
    rcases hw.validate_cases v with ⟨hrun, -⟩ | ⟨d', t, -, -, -, ht, -, hrun⟩
    · simp only [hrun] at hget
      exact hw.analysis uri d a hget ha
    · simp only [hrun, Store.get?_put] at hget
      split at hget
      · obtain rfl := Option.some.inj hget
        obtain rfl : Analysis.ofText t = a := Option.some.inj ha
        exact ⟨ht, rfl⟩
      · exact hw.analysis uri d a hget ha

/-! ## 3. Documents that are not published are waiting for a validation -/

/-- Every document that is not published has a validation pending for its version. A validation for
another version would give up. -/
def Covered (w : World) : Prop :=
  ∀ uri d, w.documents.get? uri = some d → d.isPublished = false →
    ∃ v ∈ w.pending, v.uri = uri ∧ v.version = d.version

/-- An event that does not touch a document leaves its version alone, and whether it is published.
-/
theorem Effect.eq_of_not_touches {uri : String} {event : Event} {found result : Option Document}
    (h : Effect uri event found result) (htouch : event.touches uri = false) :
    result.map (fun d => (d.version, d.isPublished)) =
      found.map fun d => (d.version, d.isPublished) := by
  cases h with
  | same => rfl
  | analysed position d => rfl
  | opened | changed | closed | forgotten => simp [Event.touches] at htouch

theorem Document.isPublished_publish (d : Document) (a : Analysis) : (d.publish a).isPublished := by
  simp [isPublished, publish, fingerprint]

/-- **No document is left without a validation.** An event that touches a document schedules it; a
validation that gives up was for another version, or came too late; and one that publishes leaves
its document marked. -/
theorem Covered.step {w : World} {m : Moment} (hw : Covered w) (hstep : Step w m) :
    Covered m.world := by
  intro uri d hget hpub
  cases hstep with
  | event event =>
    simp only [World.handle_pending, List.mem_append]
    by_cases htouch : event.touches uri
    · -- the event itself schedules the document, whatever else is pending for it
      obtain ⟨v, hv, hv'⟩ := World.exists_scheduled_of_touches htouch hget
      exact ⟨v, .inr hv, hv'⟩
    · have heffect := (w.handle_effect event uri).eq_of_not_touches (by simpa using htouch)
      simp only [hget, Option.map_some] at heffect
      obtain ⟨d', hget', hsame⟩ := Option.map_eq_some_iff.mp heffect.symm
      obtain ⟨hversion, hpub'⟩ := Prod.mk.inj hsame
      obtain ⟨v, hv, hv'⟩ := hw uri d' hget' (hpub'.trans hpub)
      exact ⟨v, .inl hv, hversion ▸ hv'⟩
  | validation v pending hperm =>
    have hstays : ∀ u ∈ w.pending, u ≠ v → u ∈ pending := fun u hu hne =>
      (List.mem_cons.mp (hperm.mem_iff.mp hu)).resolve_left hne
    rcases w.validate_cases v with ⟨hrun, hgone⟩ | ⟨d', a, -, -, -, -, -, hrun⟩
    · -- a validation that gives up was not the one the document is waiting for
      simp only [hrun] at hget
      obtain ⟨u, hu, huri, hversion⟩ := hw uri d hget hpub
      refine ⟨u, hstays u hu ?_, huri, hversion⟩
      rintro rfl
      have hpublished := hgone d (huri ▸ hget) hversion.symm
      rw [hpub] at hpublished
      contradiction
    · simp only [hrun, Store.get?_put] at hget
      split at hget
      · obtain rfl := Option.some.inj hget
        rw [Document.isPublished_publish] at hpub
        contradiction
      · next hother =>
        obtain ⟨u, hu, huri, hversion⟩ := hw uri d hget hpub
        refine ⟨u, hstays u hu ?_, huri, hversion⟩
        rintro rfl
        exact hother huri.symm

/-- A document of which no validation is pending is published: otherwise one would be. -/
theorem Covered.published_of_quiet {w : World} {uri : String} {d : Document} (hw : Covered w)
    (hget : w.documents.get? uri = some d) (hquiet : ∀ v ∈ w.pending, v.uri ≠ uri) :
    d.published = some d.fingerprint := by
  by_contra hne
  obtain ⟨v, hv, huri, -⟩ := hw uri d hget (by simpa [Document.isPublished] using hne)
  exact hquiet v hv huri

/-! ## 4. The mark on a document is what the client was told last -/

/-- The last publication for the document was sent by a validation, for a text of the run that has
the fingerprint `mark`. The document may hold another text by now. -/
def Backed (held : List Text) (past : List Moment) (uri : String) (mark : UInt64) : Prop :=
  ∃ v t, v.uri = uri ∧ t ∈ held ∧ t.fingerprint = mark ∧
    publisher uri past = some (.validation v) ∧
    lastPublication uri (past.flatMap fun m => m.sent) = some (v.publication t)

/-- The client is ready, and the marks on the documents are backed. A client that is not ready
receives nothing, while marks would be set all the same. -/
structure Announced (held : List Text) (past : List Moment) (w : World) : Prop where
  connected : w.isConnected
  backed : ∀ uri d mark, w.documents.get? uri = some d → d.published = some mark →
    Backed held past uri mark

/-- A moment that publishes nothing for the document does not take the backing away. -/
theorem Backed.concat {held : List Text} {past : List Moment} {uri : String} {mark : UInt64}
    {m : Moment} (h : Backed held past uri mark) (hsilent : m.publishes uri = false) :
    Backed held (past ++ [m]) uri mark := by
  obtain ⟨v, t, huri, ht, hmark, hpublisher, hlast⟩ := h
  refine ⟨v, t, huri, ht, hmark, ?_, ?_⟩
  · rw [publisher_append, publisher_eq_none (by simpa using hsilent), hpublisher]
    rfl
  · rw [List.flatMap_append, List.flatMap_singleton, lastPublication_append,
      m.lastPublication_sent_eq_none hsilent, hlast]
    rfl

/-- A validation that publishes backs the mark it leaves, with its own message. -/
theorem backed_concat_of_sent {held : List Text} {past : List Moment} {m : Moment}
    {v : Validation} {t : Text} (ht : t ∈ held) (hcause : m.cause = .validation v)
    (hsent : m.sent = [v.publication t]) : Backed held (past ++ [m]) v.uri t.fingerprint := by
  have hpublishes : m.publishes v.uri := by simp [Moment.publishes, hsent]
  refine ⟨v, t, rfl, ht, rfl, ?_, ?_⟩
  · rw [publisher_append]
    simp [publisher, hpublishes, hcause]
  · rw [List.flatMap_append, List.flatMap_singleton, hsent, lastPublication_append,
      lastPublication_singleton (by simp)]
    rfl

/-- A mark that stands after an event stood before it, and the event did not close the document.
Closing is what sends a publication without a validation. -/
theorem Effect.published_cases {uri : String} {event : Event} {found : Option Document}
    {d : Document} {mark : UInt64} (h : Effect uri event found (some d))
    (hmark : d.published = some mark) :
    (∃ d', found = some d' ∧ d'.published = some mark) ∧ event ≠ .closeDocument uri := by
  generalize hresult : some d = result at h
  cases h with
  | same _ _ htouch =>
    refine ⟨⟨d, hresult.symm, hmark⟩, ?_⟩
    rintro rfl
    simp [Event.touches] at htouch
  | analysed position d' =>
    obtain rfl := Option.some.inj hresult
    exact ⟨⟨d', rfl, hmark⟩, by simp⟩
  | opened =>
    obtain rfl := Option.some.inj hresult
    simp at hmark
  | changed version changes =>
    obtain rfl := Option.some.inj hresult
    cases found with
    | none => simp [Document.change] at hmark
    | some d' => exact ⟨⟨d', rfl, hmark⟩, by simp⟩
  | closed => simp at hresult
  | forgotten =>
    obtain ⟨d', rfl, rfl⟩ := Option.map_eq_some_iff.mp hresult.symm
    simp at hmark

/-- An event that leaves the document there says nothing about it. -/
theorem handle_silent {w : World} {event : Event} {uri : String}
    (h : event ≠ .closeDocument uri) :
    (Moment.mk (.event event) (w.handle event).world (w.handle event).sent).publishes uri =
      false := by
  rw [Moment.publishes_eq_false_iff]
  intro message hmessage huri
  exact h (World.eq_closed_of_mem_handle_sent hmessage huri).1

/-- **A mark is what the client was told last.** Events send nothing about documents that stay open,
and a validation that publishes leaves the fingerprint of the text that it publishes for. -/
theorem Announced.step {held : List Text} {past : List Moment} {w : World} {m : Moment}
    (hw : Announced held past w) (hground : Grounded held w.documents) (hstep : Step w m) :
    Announced held (past ++ [m]) m.world := by
  cases hstep with
  | event event =>
    refine ⟨World.handle_isConnected event hw.connected, ?_⟩
    intro uri d mark hget hmark
    have heffect := w.handle_effect event uri
    rw [hget] at heffect
    -- a mark that is there after an event was there before, and nothing was said about its document
    obtain ⟨⟨d', hget', hmark'⟩, hclose⟩ := heffect.published_cases hmark
    exact (hw.backed uri d' mark hget' hmark').concat (handle_silent hclose)
  | validation v pending hperm =>
    rcases hground.validate_cases v with ⟨hrun, -⟩ | ⟨d', t, -, -, -, ht, hfp, hrun⟩
    · simp only [hrun]
      refine ⟨hw.connected, fun uri d mark hget hmark => ?_⟩
      exact (hw.backed uri d mark hget hmark).concat (by simp [Moment.publishes])
    · have hreceived : w.receives [v.publication t] = [v.publication t] := by
        simp [World.receives, hw.connected]
      simp only [hrun, hreceived]
      refine ⟨hw.connected, fun uri d mark hget hmark => ?_⟩
      rw [Store.get?_put] at hget
      split at hget
      · next hsame =>
        obtain rfl := Option.some.inj hget
        -- the validation has just left this mark, with the fingerprint of the text that it
        -- published for
        obtain rfl : d'.fingerprint = mark := Option.some.inj hmark
        rw [hsame, ← hfp]
        exact backed_concat_of_sent ht rfl rfl
      · next hother =>
        refine (hw.backed uri d mark hget hmark).concat ?_
        simpa [Moment.publishes] using Ne.symm hother

/-! ## 5. Convergence -/

/-- The texts of a run are held at its moments. -/
theorem mem_texts_of_mem_moments {w : World} {events : List Event} {m : Moment} {t : Text}
    (hm : m ∈ w.moments events) (ht : t ∈ m.world.documents.texts) : t ∈ w.texts events :=
  List.mem_flatMap.mpr ⟨m, hm, ht⟩

theorem grounded_empty (held : List Text) : Grounded held {} :=
  ⟨by simp [Store.get?], by simp [Store.get?]⟩

theorem covered_of_empty {w : World} (h : w.documents = {}) : Covered w := by
  intro uri d hget
  simp [h, Store.get?] at hget

/-- The three invariants hold after every run that begins with the client's being ready. They hold
once the client is ready, as no document is open then, and each moment keeps them. -/
theorem invariants_after_connect (events : List Event) :
    let run := Event.connect :: events
    Grounded (World.texts {} run) (World.after {} run).documents ∧
      Covered (World.after {} run) ∧
      Announced (World.texts {} run) (World.moments {} run) (World.after {} run) := by
  intro run
  obtain ⟨hlinked, hend⟩ := World.linked_moments {} run
  -- the first moment is the client's; no document is open after it
  obtain ⟨ms, hms⟩ : ∃ ms, World.moments {} run =
      ⟨.event .connect, (World.handle {} .connect).world, (World.handle {} .connect).sent⟩ :: ms :=
    ⟨_, rfl⟩
  have hfirst : Announced (World.texts {} run)
      [⟨.event .connect, (World.handle {} .connect).world, (World.handle {} .connect).sent⟩]
      (World.handle {} .connect).world := by
    refine ⟨rfl, ?_⟩
    intro uri d mark hget
    simp [World.handle, World.connect, World.loadSettings, Store.get?] at hget
  have hall : ∀ m ∈ ms, ∀ t ∈ m.world.documents.texts, t ∈ World.texts {} run := by
    intro m hm t ht
    exact mem_texts_of_mem_moments (hms ▸ List.mem_cons_of_mem _ hm) ht
  rw [hms] at hlinked hend ⊢
  rw [← hend]
  refine Linked.invariant
    (P := fun past w => Grounded (World.texts {} run) w.documents ∧ Covered w ∧
      Announced (World.texts {} run) past w)
    ?_ _ hlinked.2 hall ⟨grounded_empty _, covered_of_empty rfl, hfirst⟩
  rintro past w m ⟨hground, hcovered, hannounced⟩ hstep hheld
  exact ⟨hground.step hstep hheld, hcovered.step hstep, hannounced.step hground hstep⟩

/-- **Diagnostics converge.** After every run that begins with the client's being ready, a document
whose text does not count as published has a validation pending for its very version. So once no
validation of a document is pending, its text counts as published, and what the client was told last
about it are the diagnostics of that text, cut at the limit that stood when the publishing
validation was scheduled. -/
theorem diagnostics_converge (events : List Event) :
    (∀ uri d, (World.after {} (.connect :: events)).documents.get? uri = some d →
      d.published ≠ some d.fingerprint →
      ∃ v ∈ (World.after {} (.connect :: events)).pending, v.uri = uri ∧ v.version = d.version) ∧
    (CollisionFree (World.texts {} (.connect :: events)) →
      ∀ uri d, (World.after {} (.connect :: events)).documents.get? uri = some d →
        (∀ v ∈ (World.after {} (.connect :: events)).pending, v.uri ≠ uri) →
        d.published = some d.fingerprint ∧
        ∃ v, World.ScheduledIn {} (.connect :: events) v ∧ v.uri = uri ∧
          publisher uri (World.moments {} (.connect :: events)) = some (.validation v) ∧
          lastPublication uri (World.sent {} (.connect :: events)) =
            some (.publish uri (some v.version) ((diagnose d.text).take v.limit))) := by
  obtain ⟨hground, hcovered, hannounced⟩ := invariants_after_connect events
  refine ⟨fun uri d hget hpub => hcovered uri d hget (by simpa [Document.isPublished] using hpub),
    ?_⟩
  intro hfree uri d hget hquiet
  have hpub : d.published = some d.fingerprint := hcovered.published_of_quiet hget hquiet
  obtain ⟨v, t, huri, ht, hfp, hpublisher, hlast⟩ := hannounced.backed uri d _ hget hpub
  have htext : t = d.text := hfree t ht d.text (hground.text uri d hget) hfp
  obtain ⟨m, hm, hcause⟩ := exists_cause_of_publisher hpublisher
  have hscheduled : World.ScheduledIn {} (.connect :: events) v :=
    (World.scheduledIn_of_cause hm hcause).resolve_left (by simp)
  refine ⟨hpub, v, hscheduled, huri, hpublisher, ?_⟩
  rw [← World.sent_moments, hlast, Validation.publication, htext, huri]

/-- A document is edited, and edited back before the first edit was validated. -/
def revertedEdit : List Event :=
  [.openDocument "doc" 1 ['x'], .wait 200, .changeDocument "doc" 2 [⟨none, ['y']⟩], .wait 50,
    .changeDocument "doc" 3 [⟨none, ['x']⟩], .wait 150, .wait 50]

/-- The reverted edit is never published, and need not be. -/
theorem diagnostics_converge_after_revert :
    CollisionFree (World.texts {} (.connect :: revertedEdit)) ∧
    ∃ d, (World.after {} (.connect :: revertedEdit)).documents.get? "doc" = some d ∧
      d.version = 3 ∧ d.published = some d.fingerprint ∧
      ∃ v, World.ScheduledIn {} (.connect :: revertedEdit) v ∧ v.uri = "doc" ∧
        publisher "doc" (World.moments {} (.connect :: revertedEdit)) = some (.validation v) ∧
        lastPublication "doc" (World.sent {} (.connect :: revertedEdit)) =
          some (.publish "doc" (some v.version) ((diagnose d.text).take v.limit)) := by
  have hfree : CollisionFree (World.texts {} (.connect :: revertedEdit)) := by decide +kernel
  have hquiet : (World.after {} (.connect :: revertedEdit)).pending = [] := by decide +kernel
  have hversion : ((World.after {} (.connect :: revertedEdit)).documents.get? "doc").map
      (fun d => d.version) = some 3 := by decide +kernel
  obtain ⟨d, hget, hd⟩ := Option.map_eq_some_iff.mp hversion
  obtain ⟨hpub, hlast⟩ :=
    (diagnostics_converge revertedEdit).2 hfree "doc" d hget (by simp [hquiet])
  exact ⟨hfree, d, hget, hd, hpub, hlast⟩

/-! ## 6. Publications are of the current text, and none is repeated -/

/-- The document that the message gives diagnostics of a version for. The empty list that is sent
for a closed document has no version. -/
def Message.validated? : Message → Option String
  | publish uri (some _) _ => some uri
  | _ => none

/-- Diagnostics of a version of the document are sent at this moment. -/
def Moment.validates (m : Moment) (uri : String) : Bool :=
  m.sent.any fun message => message.validated? == some uri

/-- The event takes the mark off the document: it opens or closes it, or has everything published
anew. -/
def Event.resets (uri : String) : Event → Bool
  | .openDocument name _ _ | .closeDocument name => name == uri
  | .reloadSettings => true
  | _ => false

/-- The moment neither sends diagnostics of a version of the document nor takes its mark off. -/
def Moment.isQuiet (m : Moment) (uri : String) : Bool :=
  !m.validates uri &&
    match m.cause with
    | .event event => !event.resets uri
    | .validation _ => true

/-- A message about a version of a document is never sent by an event itself; validations alone send
them. -/
theorem handle_validates (w : World) (event : Event) (uri : String) :
    (Moment.mk (.event event) (w.handle event).world (w.handle event).sent).validates uri =
      false := by
  rw [Moment.validates, List.any_eq_false]
  intro message hmessage hvalidated
  have huri : message.uri? = some uri := by
    cases message with
    | publish name version diagnostics =>
      cases version <;> simp_all [Message.validated?, Message.uri?]
    | _ => simp [Message.validated?] at hvalidated
  rw [(World.eq_closed_of_mem_handle_sent hmessage huri).2] at hvalidated
  simp [Message.validated?] at hvalidated

/-- **A moment that sends diagnostics of a version** is a validation that found the document with
this version and not marked, and leaves it marked with the fingerprint of its text. -/
theorem Step.validated {held : List Text} {w : World} {m : Moment} {uri : String}
    (hground : Grounded held w.documents) (hstep : Step w m) (hvalid : m.validates uri) :
    ∃ v d t, m.cause = .validation v ∧ v.uri = uri ∧ m.sent = [v.publication t] ∧
      w.documents.get? uri = some d ∧ d.version = v.version ∧ d.isPublished = false ∧
      t ∈ held ∧ t.fingerprint = d.fingerprint ∧ m.world.isConnected ∧
      m.world.documents.get? uri = some (d.publish (Analysis.ofText t)) := by
  cases hstep with
  | event event =>
    rw [handle_validates] at hvalid
    contradiction
  | validation v pending hperm =>
    rcases hground.validate_cases v with ⟨hrun, -⟩ | ⟨d, t, hget, hversion, hpub, ht, hfp, hrun⟩
    · simp [hrun, Moment.validates] at hvalid
    · simp only [hrun] at hvalid ⊢
      by_cases hconnected : w.isConnected
      · have hreceived : w.receives [v.publication t] = [v.publication t] := by
          simp [World.receives, hconnected]
        rw [hreceived] at hvalid ⊢
        have huri : v.uri = uri := by
          simpa [Moment.validates, Validation.publication, Message.validated?] using hvalid
        subst huri
        exact ⟨v, d, t, rfl, rfl, rfl, hget, hversion, hpub, ht, hfp, hconnected, by simp⟩
      · -- a client that is not ready receives nothing
        simp [World.receives, hconnected, Moment.validates] at hvalid

/-- The client is ready, and the document is there with that mark. -/
def Marked (uri : String) (mark : UInt64) (w : World) : Prop :=
  w.isConnected ∧ ∃ d, w.documents.get? uri = some d ∧ d.published = some mark

/-- An event that does not reset a document leaves its mark. An edit leaves it as well, and the text
may come back to it. -/
theorem Effect.keeps_mark {uri : String} {event : Event} {d : Document} {result : Option Document}
    (h : Effect uri event (some d) result) (hreset : event.resets uri = false) :
    ∃ d', result = some d' ∧ d'.published = d.published := by
  cases h with
  | same => exact ⟨d, rfl, rfl⟩
  | analysed position => exact ⟨_, rfl, rfl⟩
  | changed version changes => exact ⟨_, rfl, rfl⟩
  | opened | closed | forgotten => simp [Event.resets] at hreset

/-- Only a publication or a reset changes the mark on a document. -/
theorem Marked.step {w : World} {m : Moment} {uri : String} {mark : UInt64}
    (hw : Marked uri mark w) (hstep : Step w m) (hquiet : m.isQuiet uri) :
    Marked uri mark m.world := by
  obtain ⟨hconnected, d, hget, hmark⟩ := hw
  cases hstep with
  | event event =>
    have hreset : event.resets uri = false := by
      simpa [Moment.isQuiet, handle_validates] using hquiet
    have heffect := w.handle_effect event uri
    rw [hget] at heffect
    obtain ⟨d', hget', hsame⟩ := heffect.keeps_mark hreset
    exact ⟨World.handle_isConnected event hconnected, d', hget', hsame.trans hmark⟩
  | validation v pending hperm =>
    rcases w.validate_cases v with ⟨hrun, -⟩ | ⟨d', a, -, -, -, -, -, hrun⟩
    · simp only [hrun]
      exact ⟨hconnected, d, hget, hmark⟩
    · have hother : uri ≠ v.uri := by
        rintro rfl
        simp [hrun, World.receives, hconnected, Moment.isQuiet, Moment.validates,
          Message.validated?] at hquiet
      simp only [hrun]
      exact ⟨hconnected, d, by rw [Store.get?_put_of_ne _ _ hother]; exact hget, hmark⟩

/-- A mark stands as long as the moments are quiet, however many they are. -/
theorem Marked.linked {w : World} {ms : List Moment} {uri : String} {mark : UInt64}
    (hw : Marked uri mark w) (hlinked : Linked w ms) (hquiet : ∀ m ∈ ms, m.isQuiet uri) :
    Marked uri mark (lastWorld w ms) :=
  Linked.invariant (P := fun _ w => Marked uri mark w) (Q := fun m => m.isQuiet uri)
    (fun _ _ _ hw hstep hquiet => hw.step hstep hquiet) [] hlinked hquiet hw

/-- At every moment of a run, the documents and their analyses hold texts of the run. -/
theorem grounded_lastWorld {events : List Event} {past rest : List Moment}
    (h : World.moments {} events = past ++ rest) :
    Grounded (World.texts {} events) (lastWorld {} past).documents := by
  have hlinked : Linked {} (past ++ rest) := h ▸ (World.linked_moments {} events).1
  refine Linked.invariant
    (P := fun _ w => Grounded (World.texts {} events) w.documents)
    (Q := fun m => ∀ t ∈ m.world.documents.texts, t ∈ World.texts {} events)
    (fun _ _ _ hw hstep hheld => hw.step hstep hheld) [] (linked_append.mp hlinked).1 ?_
    (grounded_empty _)
  intro m hm t ht
  exact mem_texts_of_mem_moments (h ▸ List.mem_append_left rest hm) ht

theorem grounded_after (events : List Event) :
    Grounded (World.texts {} events) (World.after {} events).documents := by
  have hground := grounded_lastWorld (List.append_nil (World.moments {} events)).symm
  rwa [(World.linked_moments {} events).2] at hground

/-- A moment of a run is a step from the state that the moments before it led to. -/
theorem step_of_moments {events : List Event} {past rest : List Moment} {m : Moment}
    (h : World.moments {} events = past ++ m :: rest) : Step (lastWorld {} past) m := by
  have hlinked : Linked {} (past ++ m :: rest) := h ▸ (World.linked_moments {} events).1
  exact (linked_append.mp hlinked).2.1

/-- Diagnostics of a version are those of the text that the document holds when they are sent. The
fingerprints agree, and no two texts of the run share one. -/
theorem publication_current {events : List Event} (hfree : CollisionFree (World.texts {} events))
    {m : Moment} (hm : m ∈ World.moments {} events) {uri : String} {version : Int}
    {diagnostics : List Diagnostic}
    (hmessage : Message.publish uri (some version) diagnostics ∈ m.sent) :
    ∃ d v, m.world.documents.get? uri = some d ∧ d.version = version ∧
      m.cause = .validation v ∧ World.ScheduledIn {} events v ∧ v.uri = uri ∧
      v.version = version ∧ diagnostics = (diagnose d.text).take v.limit := by
  obtain ⟨past, rest, hsplit⟩ := List.append_of_mem hm
  have hvalid : m.validates uri :=
    List.any_eq_true.mpr ⟨_, hmessage, by simp [Message.validated?]⟩
  obtain ⟨v, d, t, hcause, huri, hsent, hget, hversion, -, ht, hfp, -, hget'⟩ :=
    (step_of_moments hsplit).validated (grounded_lastWorld hsplit) hvalid
  have htext : t = d.text :=
    hfree t ht d.text ((grounded_lastWorld hsplit).text uri d hget) hfp
  have hscheduled : World.ScheduledIn {} events v :=
    (World.scheduledIn_of_cause hm hcause).resolve_left (by simp)
  rw [hsent, List.mem_singleton, Validation.publication, Message.publish.injEq] at hmessage
  obtain ⟨-, hv, rfl⟩ := hmessage
  obtain rfl := Option.some.inj hv
  exact ⟨_, v, hget', hversion, hcause, hscheduled, huri, rfl, by rw [htext]; rfl⟩

/-- Two moments that send diagnostics of versions of a document, with quiet ones between them, leave
it with different fingerprints. The first leaves its mark, which stands until the second, and the
second would give up on a document with the fingerprint of its mark. -/
theorem fingerprint_ne_of_quiet {events : List Event} {past between rest : List Moment}
    {first second : Moment} {uri : String} {d₁ d₂ : Document}
    (hsplit : World.moments {} events = past ++ first :: (between ++ second :: rest))
    (hfirst : first.validates uri) (hsecond : second.validates uri)
    (hquiet : ∀ m ∈ between, m.isQuiet uri)
    (hget₁ : first.world.documents.get? uri = some d₁)
    (hget₂ : second.world.documents.get? uri = some d₂) : d₁.fingerprint ≠ d₂.fingerprint := by
  have hsplit' : World.moments {} events = (past ++ first :: between) ++ second :: rest := by
    simpa using hsplit
  obtain ⟨-, d, t, -, -, -, -, -, -, -, -, hconnected, hget⟩ :=
    (step_of_moments hsplit).validated (grounded_lastWorld hsplit) hfirst
  obtain ⟨-, e, u, -, -, -, hbefore, -, hunmarked, -, -, -, hget'⟩ :=
    (step_of_moments hsplit').validated (grounded_lastWorld hsplit') hsecond
  obtain rfl : d.publish (Analysis.ofText t) = d₁ := Option.some.inj (hget.symm.trans hget₁)
  obtain rfl : e.publish (Analysis.ofText u) = d₂ := Option.some.inj (hget'.symm.trans hget₂)
  -- the mark that the first message left still stands when the second one is sent
  have hlast : lastWorld {} (past ++ first :: between) = lastWorld first.world between := by
    rw [lastWorld_append, lastWorld_cons]
  have hlinked : Linked first.world between := by
    have hall : Linked {} (past ++ first :: (between ++ second :: rest)) :=
      hsplit ▸ (World.linked_moments {} events).1
    exact (linked_append.mp (linked_append.mp hall).2.2).1
  have hmarked : Marked uri d.fingerprint (lastWorld first.world between) :=
    Marked.linked ⟨hconnected, _, hget, rfl⟩ hlinked hquiet
  obtain ⟨-, e', hget'', hmark⟩ := hmarked
  obtain rfl : e' = e := Option.some.inj (hget''.symm.trans (hlast ▸ hbefore))
  intro hsame
  simp only [Document.isPublished, hmark, beq_eq_false_iff_ne, ne_eq, Option.some.injEq]
    at hunmarked
  exact hunmarked hsame

/-- **No publication is stale, and none is repeated.** What a run sends is what its moments send.
Diagnostics of a version are sent at a moment when the document is open with this version, and they
are those of the text that it holds then, cut at the limit of the validation that sends them.
Between two such messages in a row for one document, unless it was opened or closed or everything
was to be published anew, the text took on another fingerprint. -/
theorem publications_current_and_distinct (events : List Event)
    (hfree : CollisionFree (World.texts {} events)) :
    (World.moments {} events).flatMap (fun m => m.sent) = World.sent {} events ∧
    (∀ m ∈ World.moments {} events, ∀ uri version diagnostics,
      Message.publish uri (some version) diagnostics ∈ m.sent →
      ∃ d v, m.world.documents.get? uri = some d ∧ d.version = version ∧
        m.cause = .validation v ∧ World.ScheduledIn {} events v ∧ v.uri = uri ∧
        v.version = version ∧ diagnostics = (diagnose d.text).take v.limit) ∧
    (∀ past first between second rest uri d₁ d₂,
      World.moments {} events = past ++ first :: (between ++ second :: rest) →
      first.validates uri → second.validates uri → (∀ m ∈ between, m.isQuiet uri) →
      first.world.documents.get? uri = some d₁ → second.world.documents.get? uri = some d₂ →
      d₁.fingerprint ≠ d₂.fingerprint) := by
  refine ⟨World.sent_moments {} events, ?_, ?_⟩
  · intro m hm uri version diagnostics hmessage
    exact publication_current hfree hm hmessage
  · intro past first between second rest uri d₁ d₂ hsplit hfirst hsecond hquiet hget₁ hget₂
    exact fingerprint_ne_of_quiet hsplit hfirst hsecond hquiet hget₁ hget₂

/-- A document is completed in before its first validation, which then finds an analysis installed;
it is edited afterwards. -/
def completedThenEdited : List Event :=
  [.connect, .openDocument "doc" 1 ['x'], .complete "doc" ⟨0, 1⟩, .wait 200,
    .changeDocument "doc" 2 [⟨none, ['y', ';']⟩], .wait 200]

/-- Both versions are published, the first from the analysis that the completion installed. -/
theorem publications_of_completedThenEdited :
    CollisionFree (World.texts {} completedThenEdited) ∧
    ∀ version ∈ [(1 : Int), 2], ∃ m ∈ World.moments {} completedThenEdited, ∃ d v,
      m.world.documents.get? "doc" = some d ∧ d.version = version ∧ m.cause = .validation v ∧
      Message.publish "doc" (some version) ((diagnose d.text).take v.limit) ∈ m.sent := by
  have hfree : CollisionFree (World.texts {} completedThenEdited) := by decide +kernel
  refine ⟨hfree, fun version hversion => ?_⟩
  have hsent : ∀ version ∈ [(1 : Int), 2], ∃ m ∈ World.moments {} completedThenEdited,
      ∃ message ∈ m.sent, ∃ diagnostics ∈ [diagnose ['x'], diagnose ['y', ';']],
        message = .publish "doc" (some version) diagnostics := by decide +kernel
  obtain ⟨m, hm, message, hmessage, diagnostics, -, rfl⟩ := hsent version hversion
  obtain ⟨d, v, hget, hd, hcause, -, -, -, rfl⟩ :=
    (publications_current_and_distinct completedThenEdited hfree).2.1 m hm "doc" version
      diagnostics hmessage
  exact ⟨m, hm, d, v, hget, hd, hcause, hmessage⟩

end Server

end MacroScript
