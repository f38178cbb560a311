import MacroScript.Proofs.Server.DueOrder

/-!
# Reloading the settings

A reload has every open document published anew, with the limit that the client just gave. A
validation keeps the limit that stood when it was scheduled, though, and one that was already
pending when the reload came can run first: it publishes with the old limit, and the validation that
the reload scheduled then finds the text published and gives up.

`reload_takes_effect_iff` says that this is all that can go wrong: once a document is at rest, what
the client was told last is cut at the new limit, unless the last word was had by a validation left
over from before the reload whose own limit cuts elsewhere. For a document that is left alone after
the reload, the last word is with the validation that is due first. `reload_overtaken` is a run
where that is one from before the reload.
-/
namespace MacroScript

/-! ## 1. The limit that a reload sets -/

/-- A section that gives a limit sets it, unless the limit is zero. A limit of zero stands for none
given. -/
theorem Settings.limit_apply (settings : Settings) {value : Json} {given : Settings.Section}
    {n : Nat} (hgiven : Settings.Section.ofJson value = .ok given) (hn : given.limit = some n)
    (hpos : 0 < n) : ∃ updated, settings.apply value = .ok updated ∧ updated.limit = n := by
  refine ⟨settings.overlay given, ?_, by simp [Settings.overlay, hn, Option.filter, hpos]⟩
  cases value with
  | null => simp [Settings.Section.ofJson] at hgiven
  | _ => simp [Settings.apply, hgiven, Except.map]

namespace Server

/-- The limit after a reload that the client answers with a section. The validations that the reload
schedules have this limit already. -/
theorem World.limit_handle_reload {w : World} {value : Json} {more : List Json}
    {given : Settings.Section} {n : Nat} (hconnected : w.isConnected)
    (hanswer : w.answer = some (value :: more))
    (hgiven : Settings.Section.ofJson value = .ok given) (hn : given.limit = some n)
    (hpos : 0 < n) : (w.handle .reloadSettings).world.settings.limit = n := by
  obtain ⟨updated, happly, hlimit⟩ := w.settings.limit_apply hgiven hn hpos
  have hasked : w.askedSettings = updated := by
    simp only [World.askedSettings, hconnected, hanswer, happly]
  simp only [World.handle, World.loadSettings, World.revalidate, World.foldl_schedule, hasked,
    hlimit]

/-! ## 2. Which validations run after a reload -/

/-- The limit is `n`, and so is that of all pending validations but those that are left over. -/
def Renewed (leftover : List Validation) (n : Nat) (w : World) : Prop :=
  w.settings.limit = n ∧ ∀ v ∈ w.pending, v ∈ leftover ∨ v.limit = n

/-- What an event schedules has the limit that stands after it, which need not be the one before. -/
theorem Renewed.handle {leftover : List Validation} {n : Nat} {w : World} {event : Event}
    (hlimit : (w.handle event).world.settings.limit = n)
    (hpending : ∀ v ∈ w.pending, v ∈ leftover ∨ v.limit = n) :
    Renewed leftover n (w.handle event).world := by
  refine ⟨hlimit, fun v hv => ?_⟩
  rw [World.handle_pending] at hv
  rcases List.mem_append.mp hv with hold | hnew
  · exact hpending v hold
  · right
    rw [World.eq_validationOf_of_mem_scheduled hnew]
    exact hlimit

/-- A moment that loads no settings keeps it, and a validation that runs was pending. -/
theorem Renewed.step {leftover : List Validation} {n : Nat} {w : World} {m : Moment}
    (hw : Renewed leftover n w) (hstep : Step w m)
    (hkeeps : ∀ event, m.cause = .event event → event.loadsSettings = false) :
    Renewed leftover n m.world ∧
      ∀ v, m.cause = .validation v → v ∈ leftover ∨ v.limit = n := by
  cases hstep with
  | event event =>
    refine ⟨Renewed.handle ?_ hw.2, by simp⟩
    rw [World.handle_settings (hkeeps event rfl)]
    exact hw.1
  | validation v pending hperm =>
    refine ⟨⟨hw.1, fun u hu => hw.2 u (hperm.mem_iff.mpr (List.mem_cons_of_mem v hu))⟩, ?_⟩
    intro u hu
    obtain rfl : v = u := by simpa using hu
    exact hw.2 v (hperm.mem_iff.mpr (List.mem_cons_self ..))

/-! ## 3. The last word after a reload -/

/-- After a reload nothing is marked, so whatever is marked later was published since. The past that
counts can thus begin with the reload. -/
theorem announced_reload {held : List Text} {w : World} (hconnected : w.isConnected) :
    Announced held
      [⟨.event .reloadSettings, (w.handle .reloadSettings).world, (w.handle .reloadSettings).sent⟩]
      (w.handle .reloadSettings).world := by
  refine ⟨World.handle_isConnected _ hconnected, ?_⟩
  intro uri d mark hget hmark
  have hunmarked : d.published = none := by
    simp only [World.handle, World.loadSettings, World.revalidate, World.foldl_schedule,
      Store.get?_map] at hget
    obtain ⟨d', -, rfl⟩ := Option.map_eq_some_iff.mp hget
    rfl
  rw [hunmarked] at hmark
  contradiction

/-- After a reload every open document is to be published, in the version that it had. -/
theorem standing_reload {w : World} {uri : String} {d : Document} (hconnected : w.isConnected)
    (hget : w.documents.get? uri = some d) :
    Standing uri d.version false (w.handle .reloadSettings).world := by
  refine ⟨World.handle_isConnected _ hconnected, { d with published := none }, ?_, rfl, rfl⟩
  simp only [World.handle, World.loadSettings, World.revalidate, World.foldl_schedule,
    Store.get?_map, hget, Option.map_some]

/-- What holds along the moments since a reload: the invariants of every run, and that only
validations left over or with the new limit have run. -/
structure SinceReload (held : List Text) (leftover : List Validation) (n : Nat)
    (past : List Moment) (w : World) : Prop where
  grounded : Grounded held w.documents
  covered : Covered w
  announced : Announced held past w
  renewed : Renewed leftover n w
  causes : ∀ m ∈ past, ∀ v, m.cause = .validation v → v ∈ leftover ∨ v.limit = n

/-- Each part is kept by a moment on its own account; the last one grows with the past. -/
theorem SinceReload.step {held : List Text} {leftover : List Validation} {n : Nat}
    {past : List Moment} {w : World} {m : Moment} (hw : SinceReload held leftover n past w)
    (hstep : Step w m) (hheld : ∀ t ∈ m.world.documents.texts, t ∈ held)
    (hkeeps : ∀ event, m.cause = .event event → event.loadsSettings = false) :
    SinceReload held leftover n (past ++ [m]) m.world := by
  obtain ⟨hrenewed, hcause⟩ := hw.renewed.step hstep hkeeps
  refine ⟨hw.grounded.step hstep hheld, hw.covered.step hstep,
    hw.announced.step hw.grounded hstep, hrenewed, ?_⟩
  intro m' hm' v hv
  rcases List.mem_append.mp hm' with hpast | hnew
  · exact hw.causes m' hpast v hv
  · rw [List.mem_singleton.mp hnew] at hv
    exact hcause v hv

/-- **Who has the last word after a reload.** Once no validation of a document is pending and no
other settings were loaded, the last publication for it came from a validation that was pending
already when the reload came, or from one with the new limit; and it was for a text with the
fingerprint of the document's text. -/
theorem last_word_since_reload {held : List Text} {w : World} {later : List Event} {uri : String}
    {d : Document} {n : Nat} (hground : Grounded held w.documents) (hcovered : Covered w)
    (hconnected : w.isConnected)
    (hlimit : (w.handle .reloadSettings).world.settings.limit = n)
    (hlater : ∀ event ∈ later, event.loadsSettings = false)
    (hheld : ∀ t ∈ w.texts (.reloadSettings :: later), t ∈ held)
    (hget : (w.after (.reloadSettings :: later)).documents.get? uri = some d)
    (hquiet : ∀ v ∈ (w.after (.reloadSettings :: later)).pending, v.uri ≠ uri) :
    ∃ v t, v.uri = uri ∧ (v ∈ w.pending ∨ v.limit = n) ∧ t ∈ held ∧
      t.fingerprint = d.fingerprint ∧
      publisher uri (w.moments (.reloadSettings :: later)) = some (.validation v) ∧
      lastPublication uri (w.sent (.reloadSettings :: later)) = some (v.publication t) := by
  obtain ⟨hlinked, hend⟩ := w.linked_moments (.reloadSettings :: later)
  have hmem : ∀ m ∈ w.moments (.reloadSettings :: later), ∀ t ∈ m.world.documents.texts, t ∈ held :=
    fun m hm t ht => hheld t (mem_texts_of_mem_moments hm ht)
  have hsent := w.sent_moments (.reloadSettings :: later)
  rw [World.moments] at hlinked hend hmem hsent ⊢
  -- the past begins with the reload: what was published before it does not count
  have hstart : SinceReload held w.pending n [_] (w.handle .reloadSettings).world :=
    ⟨hground.step hlinked.1 (hmem _ List.mem_cons_self), hcovered.step hlinked.1,
      announced_reload hconnected, Renewed.handle hlimit fun v hv => .inl hv, by simp⟩
  have hkeeps : ∀ m ∈ (w.handle .reloadSettings).world.withoutDue.validationMoments
      (w.handle .reloadSettings).world.due ++ (w.step .reloadSettings).world.moments later,
      ∀ event, m.cause = .event event → event.loadsSettings = false := by
    intro m hm event hcause
    rcases List.mem_append.mp hm with hm | hm
    · obtain ⟨v, -, hv⟩ := World.exists_cause_of_mem_validationMoments hm
      rw [hcause] at hv
      contradiction
    · exact hlater event (World.mem_of_cause_event hm hcause)
  have hfinal := Linked.invariant (P := SinceReload held w.pending n)
    (Q := fun m => (∀ t ∈ m.world.documents.texts, t ∈ held) ∧
      ∀ event, m.cause = .event event → event.loadsSettings = false)
    (fun _ _ _ hw hstep hq => hw.step hstep hq.1 hq.2) _ hlinked.2
    (fun m hm => ⟨hmem m (List.mem_cons_of_mem _ hm), hkeeps m hm⟩) hstart
  rw [lastWorld_cons] at hend
  rw [hend] at hfinal
  have hpub := hfinal.covered.published_of_quiet hget hquiet
  obtain ⟨v, t, huri, ht, hfp, hpublisher, hlast⟩ := hfinal.announced.backed uri d _ hget hpub
  obtain ⟨m, hm, hcause⟩ := exists_cause_of_publisher hpublisher
  exact ⟨v, t, huri, hfinal.causes m hm v hcause, ht, hfp, hpublisher, hsent ▸ hlast⟩

/-- The same for a whole run that begins with the client's being ready: the last publication is for
the text that the document holds. -/
theorem last_word_of_run {before later : List Event} {uri : String} {d : Document} {n : Nat}
    (hlimit :
      ((World.after {} (.connect :: before)).handle .reloadSettings).world.settings.limit = n)
    (hlater : ∀ event ∈ later, event.loadsSettings = false)
    (hget : (World.after {} (.connect :: before ++ .reloadSettings :: later)).documents.get? uri =
      some d)
    (hquiet : ∀ v ∈ (World.after {} (.connect :: before ++ .reloadSettings :: later)).pending,
      v.uri ≠ uri)
    (hfree : CollisionFree (World.texts {} (.connect :: before ++ .reloadSettings :: later))) :
    ∃ v, v.uri = uri ∧ (v ∈ (World.after {} (.connect :: before)).pending ∨ v.limit = n) ∧
      publisher uri (World.moments {} (.connect :: before ++ .reloadSettings :: later)) =
        some (.validation v) ∧
      lastPublication uri (World.sent {} (.connect :: before ++ .reloadSettings :: later)) =
        some (v.publication d.text) := by
  have hmoments := World.moments_append {} (.connect :: before) (.reloadSettings :: later)
  obtain ⟨-, hcovered, hannounced⟩ := invariants_after_connect before
  have hground := grounded_lastWorld hmoments
  rw [(World.linked_moments {} (.connect :: before)).2] at hground
  -- what the documents hold after the reload are texts of the whole run
  have hheld : ∀ t ∈ (World.after {} (.connect :: before)).texts (.reloadSettings :: later),
      t ∈ World.texts {} (.connect :: before ++ .reloadSettings :: later) := by
    intro t ht
    rw [World.texts, hmoments, List.flatMap_append]
    exact List.mem_append_right _ ht
  have htext := (grounded_after _).text uri d hget
  rw [World.after_append] at hget hquiet
  obtain ⟨v, t, huri, hv, ht, hfp, hpublisher, hsent⟩ := last_word_since_reload hground hcovered
    hannounced.connected hlimit hlater hheld hget hquiet
  -- the text that was published has the fingerprint of the document's, and no two texts share one
  obtain rfl : t = d.text := hfree t ht d.text htext hfp
  refine ⟨v, huri, hv, ?_, ?_⟩
  · rw [hmoments, publisher_append, hpublisher]
    rfl
  · rw [← World.sent_moments, hmoments, List.flatMap_append, lastPublication_append,
      World.sent_moments, hsent]
    rfl

/-- **When a reload takes effect.** In a run that begins with the client's being ready, let a reload
be answered with a section that sets the limit to `n`, and let no settings be loaded after it. Once
no validation of an open document is pending, what the client was told last about it are exactly the
first `n` diagnostics of its text, if and only if the last word was not had by a validation that was
pending already when the reload came and whose own limit cuts the list elsewhere. If no event
touches the document after the reload, the last word is with the validation for its version that is
due first. -/
theorem reload_takes_effect_iff (before later : List Event) (uri : String) (d : Document)
    (value : Json) (more : List Json) (given : Settings.Section) (n : Nat)
    (hanswer : (World.after {} (.connect :: before)).answer = some (value :: more))
    (hgiven : Settings.Section.ofJson value = .ok given) (hn : given.limit = some n)
    (hpos : 0 < n) (hlater : ∀ event ∈ later, event.loadsSettings = false)
    (hget : (World.after {} (.connect :: before ++ .reloadSettings :: later)).documents.get? uri =
      some d)
    (hquiet : ∀ v ∈ (World.after {} (.connect :: before ++ .reloadSettings :: later)).pending,
      v.uri ≠ uri)
    (hfree : CollisionFree (World.texts {} (.connect :: before ++ .reloadSettings :: later))) :
    ((∃ version, lastPublication uri
          (World.sent {} (.connect :: before ++ .reloadSettings :: later)) =
        some (.publish uri version ((diagnose d.text).take n))) ↔
      ¬ ∃ v ∈ (World.after {} (.connect :: before)).pending, v.uri = uri ∧
        publisher uri (World.moments {} (.connect :: before ++ .reloadSettings :: later)) =
          some (.validation v) ∧
        min v.limit (diagnose d.text).length ≠ min n (diagnose d.text).length) ∧
    ∀ found first, (World.after {} (.connect :: before)).documents.get? uri = some found →
      (∀ event ∈ later, event.touches uri = false) →
      DueFirst uri found.version first
        ((World.after {} (.connect :: before)).handle .reloadSettings).world.pending →
      publisher uri (World.moments {} (.connect :: before ++ .reloadSettings :: later)) =
        some (.validation first) := by
  have hconnected := (invariants_after_connect before).2.2.connected
  obtain ⟨v, huri, hv, hpublisher, hsent⟩ := last_word_of_run
    (World.limit_handle_reload hconnected hanswer hgiven hn hpos) hlater hget hquiet hfree
  -- with the cause of the last publication known, the question is where its limit cuts the list
  have hcut : (∃ version, lastPublication uri
        (World.sent {} (.connect :: before ++ .reloadSettings :: later)) =
      some (.publish uri version ((diagnose d.text).take n))) ↔
      min v.limit (diagnose d.text).length = min n (diagnose d.text).length := by
    rw [hsent, ← List.take_eq_take_iff]
    simp [Validation.publication, huri]
  rw [hcut]
  refine ⟨⟨?_, ?_⟩, ?_⟩
  · rintro hsame ⟨u, -, -, hu, hne⟩
    obtain rfl : v = u :=
      Cause.validation.inj (Option.some.inj (hpublisher.symm.trans hu))
    exact hne hsame
  · intro hnone
    -- the validation was left over, or it has the limit of the reload already
    rcases hv with hleft | hlimit
    · by_contra hne
      exact hnone ⟨v, hleft, huri, hpublisher, hne⟩
    · rw [hlimit]
  · intro found first hfound htouch hfirst
    rw [World.after_append] at hquiet
    -- nothing is pending for the document, so the validation that was due first has run
    have hran : first ∉ ((World.after {} (.connect :: before)).after
        (.reloadSettings :: later)).pending :=
      fun hmem => hquiet first hmem (Validation.isFor_iff.mp hfirst.1).1
    rw [World.moments_append, publisher_append, publisher_of_dueFirst _ _ _
      (standing_reload hconnected hfound) hfirst htouch hran]
    rfl

/-- A document with two diagnostics is opened; the client is to answer with a limit of one. -/
def openedDocument : List Event :=
  [.openDocument "doc" 1 ['x', '\n', 'y'], .wait 100, .answerWith (some [.array [.integer 1]])]

/-- The same, and the document was validated. -/
def validatedDocument : List Event :=
  openedDocument ++ [.wait 100]

/-- If the document was at rest when the reload came, the reload takes effect: the validation that
is due first is its own. -/
theorem reload_takes_effect_at_rest :
    (World.after {} (.connect :: validatedDocument)).pending = [] ∧
    (∃ version, lastPublication "doc"
      (World.sent {} (.connect :: validatedDocument ++ [.reloadSettings, .wait 200])) =
        some (.publish "doc" version ((diagnose ['x', '\n', 'y']).take 1))) ∧
    publisher "doc" (World.moments {} (.connect :: validatedDocument ++
      [.reloadSettings, .wait 200])) = some (.validation ⟨"doc", 1, 1, 400⟩) := by
  have hrest : (World.after {} (.connect :: validatedDocument)).pending = [] := by decide +kernel
  have hanswer : (World.after {} (.connect :: validatedDocument)).answer =
      some [.array [.integer 1]] := by with_unfolding_all rfl
  have htext : ((World.after {} (.connect :: validatedDocument ++
      [.reloadSettings, .wait 200])).documents.get? "doc").map (fun d => d.text) =
      some ['x', '\n', 'y'] := by decide +kernel
  have hquiet : (World.after {} (.connect :: validatedDocument ++
      [.reloadSettings, .wait 200])).pending = [] := by decide +kernel
  have hversion : ((World.after {} (.connect :: validatedDocument)).documents.get? "doc").map
      (fun d => d.version) = some 1 := by decide +kernel
  have hpending : ((World.after {} (.connect :: validatedDocument)).handle
      .reloadSettings).world.pending = [⟨"doc", 1, 1, 400⟩] := by decide +kernel
  obtain ⟨d, hget, hd⟩ := Option.map_eq_some_iff.mp htext
  obtain ⟨found, hfound, hfound'⟩ := Option.map_eq_some_iff.mp hversion
  obtain ⟨heffect, hfirst⟩ := reload_takes_effect_iff validatedDocument [.wait 200] "doc" d
    (.array [.integer 1]) [] ⟨some 1, none⟩ 1 hanswer rfl rfl (by decide) (by decide +kernel) hget
    (by rw [hquiet]; simp) (by decide +kernel)
  refine ⟨hrest, ?_, ?_⟩
  · rw [← hd]
    refine heffect.mpr ?_
    rw [hrest]
    simp
  · refine hfirst found _ hfound (by decide +kernel) ?_
    rw [hfound', hpending]
    exact ⟨by decide, [], [], rfl, by simp, by simp⟩

/-- **A reload can be overtaken.** The reload sets the limit to one, and no validation of the
document is left; but the validation from before the reload ran first, and what the client was told
last are both diagnostics. -/
theorem reload_overtaken :
    ((World.after {} (.connect :: openedDocument)).handle .reloadSettings).world.settings.limit =
      1 ∧
    (World.after {} (.connect :: openedDocument ++
      [.reloadSettings, .wait 100, .wait 100])).pending = [] ∧
    ((World.after {} (.connect :: openedDocument ++
      [.reloadSettings, .wait 100, .wait 100])).documents.get? "doc").map (fun d => d.text) =
      some ['x', '\n', 'y'] ∧
    lastPublication "doc" (World.sent {} (.connect :: openedDocument ++
      [.reloadSettings, .wait 100, .wait 100])) =
      some (.publish "doc" (some 1) (diagnose ['x', '\n', 'y'])) ∧
    (diagnose ['x', '\n', 'y']).length = 2 := by
  decide +kernel

end Server

end MacroScript
