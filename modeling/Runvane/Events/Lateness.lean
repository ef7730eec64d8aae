import Runvane.Events.Watcher

/-!
# Events that come too late

A worker reads the clock, writes the time into the run as its finishing time, and then persists the
run. The watcher compares finishing times with its watermark, which is the latest finishing time it
has been listed. So a run that is persisted after a poll with a finishing time from before it, or at
the very same millisecond, is never announced (`overtaken_run_is_lost`).

No event is lost as long as every terminal run is ahead of what the watcher has been listed when it
is persisted (`no_terminal_event_lost`).
-/

set_option autoImplicit false

namespace Runvane.Events

open Domain Library Persistence

/-! ### Runs that finish -/

structure Site where
  store : MemoryStore
  clockMs : ℤ

/-- The run is stored in the second store as terminal, and was not terminal in the first. -/
structure NewlyTerminal (s s' : MemoryStore) (id : RunId) (run : Run) : Prop where
  stored : s'.runs.get? id = some run
  terminal : run.isTerminal
  open_ : ∀ run₀, s.runs.get? id = some run₀ → ¬ run₀.isTerminal

def DefinesTerminal (s : MemoryStore) : Prop :=
  ∀ id run, s.runs.get? id = some run → run.isTerminal →
    ∃ record, s.getWorkflow run.tenant run.defName = .ok record

/-- What happens around a watcher. The clock does not go back, runs are not deleted, terminal runs
do not change, and the finishing time of a run that becomes terminal is a reading of the clock after
the boot of the watcher and up to now. -/
structure Advances (bootMs : ℤ) (x y : Site) : Prop where
  clock : x.clockMs ≤ y.clockMs
  stays : ∀ id, (x.store.runs.get? id).isSome → (y.store.runs.get? id).isSome
  settled : ∀ id run, x.store.runs.get? id = some run → run.isTerminal →
    y.store.runs.get? id = some run
  finished : ∀ id run, NewlyTerminal x.store y.store id run →
    ∃ atMs, run.finishedAtMs = some atMs ∧ bootMs < atMs ∧ atMs ≤ y.clockMs
  defined : DefinesTerminal y.store

/-- Runs that become terminal have a finishing time that is later than those of all terminal runs
the watcher has been listed. -/
def Ahead (listed : List MemoryStore) (x y : Site) : Prop :=
  ∀ id run atMs, NewlyTerminal x.store y.store id run → run.finishedAtMs = some atMs →
    ∀ s ∈ listed, ∀ id' run' atMs', s.runs.get? id' = some run' → run'.isTerminal →
      run'.finishedAtMs = some atMs' → atMs' < atMs

/-- A watcher over an in-memory store, which does not fail. -/
def siteEnv (lib : EventLibrary) (order : Watch Site → IterationOrder Run) : WatchEnv Site where
  lib := lib
  store := Site.store
  order := order
  fault _ _ := none

def Announced (emitted : List Emitted) (run : Run) : Prop :=
  ∃ e ∈ emitted, e.ev.runId = run.id.text ∧ RunEventDoc.terminalKindFor run.status = some e.kind

def Awaiting (todo : List Candidate) (run : Run) : Prop :=
  ∃ c ∈ todo, c.run = run ∧ RunEventDoc.terminalKindFor run.status = some c.kind

theorem exists_terminalKindFor {run : Run} (h : run.isTerminal) :
    ∃ kind, RunEventDoc.terminalKindFor run.status = some kind :=
  Option.isSome_iff_exists.mp ((RunEventDoc.isSome_terminalKindFor run.status).trans h)

/-! ### Nothing is lost -/

/-- The watermark is at the boot time or at the latest of the terminal runs that were listed, and
those are as they were. A run that became terminal since the boot is past the watermark, to be
announced, or announced. -/
structure Caught (bootMs : ℤ) (x₀ : Site) (cursor : Cursor) (todo : List Candidate)
    (w : Watch Site) : Prop where
  below : ∀ s ∈ w.listed, ∀ id run atMs, s.runs.get? id = some run → run.isTerminal →
    run.finishedAtMs = some atMs → atMs ≤ cursor.finishedMs
  mark : cursor.finishedMs = bootMs ∨ ∃ s ∈ w.listed, ∃ id run, s.runs.get? id = some run ∧
    run.isTerminal ∧ run.finishedAtMs = some cursor.finishedMs
  kept : ∀ s ∈ w.listed, ∀ id run, s.runs.get? id = some run → run.isTerminal →
    w.scene.store.runs.get? id = some run
  caught : ∀ id run, NewlyTerminal x₀.store w.scene.store id run →
    ∃ atMs, run.finishedAtMs = some atMs ∧
      (cursor.finishedMs < atMs ∨ Announced w.emitted run ∨ Awaiting todo run)
  defined : ∀ id run, NewlyTerminal x₀.store w.scene.store id run →
    ∃ record, w.scene.store.getWorkflow run.tenant run.defName = .ok record

variable {bootMs : ℤ} {x₀ : Site} {cursor : Cursor} {todo : List Candidate} {w : Watch Site}

theorem Caught.change (h : Caught bootMs x₀ cursor todo w) {y : Site}
    (hadvances : Advances bootMs w.scene y) (hahead : Ahead w.listed w.scene y) :
    Caught bootMs x₀ cursor todo { w with scene := y } where
  below := h.below
  mark := h.mark
  kept s hs id run hrun hterminal :=
    hadvances.settled id run (h.kept s hs id run hrun hterminal) hterminal
  caught id run hnew := by
    by_cases hbefore : ∃ run₀, w.scene.store.runs.get? id = some run₀ ∧ run₀.isTerminal
    · obtain ⟨run₀, hrun₀, hterminal₀⟩ := hbefore
      have hsame := hadvances.settled id run₀ hrun₀ hterminal₀
      obtain rfl : run₀ = run := Option.some.inj (hsame.symm.trans hnew.stored)
      exact h.caught id run₀ ⟨hrun₀, hterminal₀, hnew.open_⟩
    · have hstep : NewlyTerminal w.scene.store y.store id run :=
        ⟨hnew.stored, hnew.terminal, fun run₀ hrun₀ hterminal₀ ↦ hbefore ⟨run₀, hrun₀, hterminal₀⟩⟩
      obtain ⟨atMs, hatMs, hboot, -⟩ := hadvances.finished id run hstep
      refine ⟨atMs, hatMs, .inl ?_⟩
      rcases h.mark with hmark | ⟨s, hs, id', run', hrun', hterminal', hmark⟩
      · rwa [hmark]
      · exact hahead id run atMs hstep hatMs s hs id' run' _ hrun' hterminal' hmark
  defined id run hnew := hadvances.defined id run hnew.stored hnew.terminal

theorem Caught.list (h : Caught bootMs x₀ cursor [] w) {runs : List Run}
    (hperm : runs.Perm w.scene.store.runs.values) :
    Caught bootMs x₀ (cursor.advance runs) (cursor.batch runs)
      { w with listed := w.scene.store :: w.listed } := by
  have hlisted {id : RunId} {run : Run} (hrun : w.scene.store.runs.get? id = some run) :
      run ∈ runs := by
    obtain rfl := KeyedMap.key_of_get? hrun
    exact hperm.mem_iff.mpr (KeyedMap.mem_values.mpr hrun)
  have hcandidate {run : Run} {atMs : ℤ} {kind : EventKind} (hmem : run ∈ runs)
      (hatMs : run.finishedAtMs = some atMs)
      (hkind : RunEventDoc.terminalKindFor run.status = some kind)
      (hlt : cursor.finishedMs < atMs) :
      ⟨atMs, kind, run⟩ ∈ candidates finishedStamp cursor.finishedMs runs :=
    mem_candidates.mpr ⟨hmem, finishedStamp_eq_some.mpr ⟨hatMs, hkind⟩, hlt⟩
  have hmono : cursor.finishedMs ≤ (cursor.advance runs).finishedMs := le_newest_self
  refine ⟨?_, ?_, ?_, ?_, h.defined⟩
  · intro s hs id run atMs hrun hterminal hatMs
    rcases List.mem_cons.mp hs with rfl | hold
    · rcases le_or_gt atMs cursor.finishedMs with hle | hlt
      · exact hle.trans hmono
      · obtain ⟨kind, hkind⟩ := exists_terminalKindFor hterminal
        exact le_newest (hcandidate (hlisted hrun) hatMs hkind hlt)
    · exact (h.below s hold id run atMs hrun hterminal hatMs).trans hmono
  · rcases newest_cases (candidates finishedStamp cursor.finishedMs runs) cursor.finishedMs with
      ⟨hsame, -⟩ | ⟨c, hc, hlast⟩
    · have hfinished : (cursor.advance runs).finishedMs = cursor.finishedMs := hsame
      rw [hfinished]
      refine h.mark.imp id ?_
      rintro ⟨s, hs, hrun⟩
      exact ⟨s, List.mem_cons_of_mem _ hs, hrun⟩
    · obtain ⟨hrun, hstamp, -⟩ := mem_candidates.mp hc
      obtain ⟨hatMs, hkind⟩ := finishedStamp_eq_some.mp hstamp
      have hstored := KeyedMap.mem_values.mp (hperm.mem_iff.mp hrun)
      refine .inr ⟨_, List.mem_cons_self, c.run.id, c.run, hstored, ?_, ?_⟩
      · exact (RunEventDoc.isTerminal_of_terminalKindFor hkind).2
      · exact hatMs.trans (congrArg some hlast.symm)
  · intro s hs id run hrun hterminal
    rcases List.mem_cons.mp hs with rfl | hold
    · exact hrun
    · exact h.kept s hold id run hrun hterminal
  · intro id run hnew
    obtain ⟨atMs, hatMs, hcases⟩ := h.caught id run hnew
    refine ⟨atMs, hatMs, ?_⟩
    rcases hcases with hlt | htold | ⟨c, hc, -⟩
    · obtain ⟨kind, hkind⟩ := exists_terminalKindFor hnew.terminal
      refine .inr (.inr ⟨⟨atMs, kind, run⟩, ?_, rfl, hkind⟩)
      exact List.mem_append_right _ (hcandidate (hlisted hnew.stored) hatMs hkind hlt)
    · exact .inr (.inl htold)
    · cases hc

/-- No candidate for a terminal event is dropped, since its definition is stored. -/
theorem Caught.drop {c : Candidate} (h : Caught bootMs x₀ cursor (c :: todo) w) {e : StorageError}
    (hmissing : w.scene.store.getWorkflow c.run.tenant c.run.defName = .error e) :
    Caught bootMs x₀ cursor todo w := by
  refine { h with caught := fun id run hnew ↦ ?_ }
  obtain ⟨atMs, hatMs, hcases⟩ := h.caught id run hnew
  refine ⟨atMs, hatMs, ?_⟩
  rcases hcases with hlt | htold | ⟨c', hc', hrun, hkind⟩
  · exact .inl hlt
  · exact .inr (.inl htold)
  · rcases List.mem_cons.mp hc' with rfl | hlater
    · obtain ⟨record, hrecord⟩ := h.defined id run hnew
      rw [← hrun, hmissing] at hrecord
      cases hrecord
    · exact .inr (.inr ⟨c', hlater, hrun, hkind⟩)

theorem Caught.tell {c : Candidate} (h : Caught bootMs x₀ cursor (c :: todo) w) (nowMs : ℤ) :
    Caught bootMs x₀ cursor todo
      { w with emitted := w.emitted ++ [⟨c.kind, c.event nowMs⟩] } := by
  refine { h with caught := fun id run hnew ↦ ?_ }
  obtain ⟨atMs, hatMs, hcases⟩ := h.caught id run hnew
  refine ⟨atMs, hatMs, ?_⟩
  rcases hcases with hlt | ⟨e, he, hevent⟩ | ⟨c', hc', hrun, hkind⟩
  · exact .inl hlt
  · exact .inr (.inl ⟨e, List.mem_append_left _ he, hevent⟩)
  · rcases List.mem_cons.mp hc' with rfl | hlater
    · refine .inr (.inl ⟨_, List.mem_append_right _ (List.mem_singleton.mpr rfl), ?_, hkind⟩)
      rw [← hrun]
      rfl
    · exact .inr (.inr ⟨c', hlater, hrun, hkind⟩)

theorem inductive_caught (lib : EventLibrary) (order : Watch Site → IterationOrder Run) (bootMs : ℤ)
    (x₀ : Site) :
    Inductive (siteEnv lib order)
      (fun w y ↦ Advances bootMs w.scene y ∧ Ahead w.listed w.scene y) (Caught bootMs x₀) where
  change := fun h hmove ↦ h.change hmove.1 hmove.2
  list := fun h _ hperm ↦ h.list hperm
  drop := fun h hmissing ↦ h.drop hmissing
  tell := fun nowMs h ↦ h.tell nowMs

/-- Every run that becomes terminal while a watcher is at work is announced by the first poll that
lists it, provided that runs which become terminal are ahead of what the watcher has been listed by
then. -/
theorem no_terminal_event_lost {lib : EventLibrary} {order : Watch Site → IterationOrder Run}
    {watcher : Watcher}
    (h : Watched (siteEnv lib order)
      (fun w y ↦ Advances bootMs w.scene y ∧ Ahead w.listed w.scene y) bootMs x₀ watcher w)
    {s : MemoryStore} (hs : s ∈ w.listed) {id : RunId} {run : Run}
    (hrun : NewlyTerminal x₀.store s id run) : Announced w.emitted run := by
  have hboot : Caught bootMs x₀ ⟨bootMs, bootMs⟩ [] ⟨x₀, [], []⟩ := by
    refine ⟨by simp, .inl rfl, by simp, fun id run hnew ↦ ?_, fun id run hnew ↦ ?_⟩
    · exact absurd hnew.terminal (hnew.open_ run hnew.stored)
    · exact absurd hnew.terminal (hnew.open_ run hnew.stored)
  have hcaught := h.induction (inductive_caught lib order bootMs x₀) hboot
  have hstored := hcaught.kept s hs id run hrun.stored hrun.terminal
  obtain ⟨atMs, hatMs, hlt | htold | ⟨c, hc, -⟩⟩ :=
    hcaught.caught id run ⟨hstored, hrun.terminal, hrun.open_⟩
  · exact absurd (hcaught.below s hs id run atMs hrun.stored hrun.terminal hatMs) hlt.not_ge
  · exact htold
  · cases hc

/-! ### A run that is overtaken -/

/-- To persist a run as terminal is an advance. -/
theorem advances_putRun {x : Site} {run : Run} {atMs clockMs : ℤ}
    (hopen : ∀ run₀, x.store.runs.get? run.id = some run₀ → ¬ run₀.isTerminal)
    (hatMs : run.finishedAtMs = some atMs) (hboot : bootMs < atMs) (hclock : atMs ≤ clockMs)
    (hlater : x.clockMs ≤ clockMs) (hdefined : DefinesTerminal x.store)
    (hrecord : ∃ record, x.store.getWorkflow run.tenant run.defName = .ok record) :
    Advances bootMs x ⟨(x.store.putRun run).2, clockMs⟩ := by
  have hget (id : RunId) : (x.store.putRun run).2.runs.get? id =
      if run.id = id then some run else x.store.runs.get? id := KeyedMap.get?_put ..
  refine ⟨hlater, fun id hid ↦ ?_, fun id run' hrun' hterminal ↦ ?_, fun id run' hnew ↦ ?_,
    fun id run' hrun' hterminal ↦ ?_⟩
  · rw [hget]
    split_ifs
    · rfl
    · exact hid
  · rw [hget, if_neg]
    · exact hrun'
    · rintro rfl
      exact hopen run' hrun' hterminal
  · have hstored := hnew.stored
    rw [hget] at hstored
    split_ifs at hstored with hid
    · obtain rfl := Option.some.inj hstored
      exact ⟨atMs, hatMs, hboot, hclock⟩
    · exact absurd hnew.terminal (hnew.open_ run' hstored)
  · rw [hget] at hrun'
    split_ifs at hrun' with hid
    · obtain rfl := Option.some.inj hrun'
      exact hrecord
    · exact hdefined id run' hrun' hterminal

def sampleRunning (name : String) : Run where
  id := ⟨name⟩
  tenant := "t"
  defName := "flow"
  status := .running

/-- Two runs are running when the watcher is booted. -/
def sampleSite : Site := ⟨storeOf [sampleRunning "run_a", sampleRunning "run_b"], 10⟩

/-- The second of them has finished at 12. -/
def sampleSite₁ : Site := ⟨(sampleSite.store.putRun (sampleSucceeded "run_b" 12)).2, 12⟩

/-- The first is persisted at 14, with the finishing time that its worker has read. -/
def sampleSite₂ (atMs : ℤ) : Site :=
  ⟨(sampleSite₁.store.putRun (sampleSucceeded "run_a" atMs)).2, 14⟩

def sampleSiteEnv : WatchEnv Site := siteEnv plainLibrary fun _ ↦ .stored

/-- The watcher after a poll when the second run has finished. -/
def sampleWatch₁ : Watcher × Watch Site :=
  Watcher.polled sampleSiteEnv 13 (.new 10, ⟨sampleSite₁, [], []⟩)

/-- Then the first run is persisted. -/
def sampleLater (atMs : ℤ) : Watcher × Watch Site :=
  (sampleWatch₁.1, { sampleWatch₁.2 with scene := sampleSite₂ atMs })

def sampleWatch₂ (atMs : ℤ) : Watcher × Watch Site :=
  Watcher.polled sampleSiteEnv 15 (sampleLater atMs)

theorem sampleWatch₂_watched {move : Watch Site → Site → Prop} {atMs : ℤ}
    (hfirst : move ⟨sampleSite, [], []⟩ sampleSite₁)
    (hsecond : move sampleWatch₁.2 (sampleSite₂ atMs)) :
    Watched sampleSiteEnv move 10 sampleSite (sampleWatch₂ atMs).1 (sampleWatch₂ atMs).2 := by
  have hpolled : Watched sampleSiteEnv move 10 sampleSite sampleWatch₁.1 sampleWatch₁.2 :=
    Watched.polled (.new 10, ⟨sampleSite₁, [], []⟩) (Watched.boot.change hfirst) 13
  have hlater :
      Watched sampleSiteEnv move 10 sampleSite (sampleLater atMs).1 (sampleLater atMs).2 :=
    hpolled.change hsecond
  exact hlater.polled (sampleLater atMs) 15

/-- A store in which all runs are of one definition, and it is there. -/
theorem definesTerminal_of_values {s : MemoryStore}
    (h : (s.getWorkflow "t" "flow").isOk = true ∧
      ∀ run ∈ s.runs.values, run.tenant = "t" ∧ run.defName = "flow") : DefinesTerminal s := by
  intro id run hrun _
  obtain rfl := KeyedMap.key_of_get? hrun
  obtain ⟨htenant, hname⟩ := h.2 run (KeyedMap.mem_values.mpr hrun)
  rw [htenant, hname]
  exact exists_of_isOk h.1

theorem not_isTerminal_of_all {o : Option Run} (h : o.all (!·.isTerminal) = true) (run : Run)
    (hrun : o = some run) : ¬ run.isTerminal := by
  subst hrun
  simpa using h

theorem sampleSite₁_advances : Advances 10 sampleSite sampleSite₁ :=
  advances_putRun (not_isTerminal_of_all (by decide)) rfl (by decide) (by decide)
    (by decide)
    (definesTerminal_of_values (by decide)) ⟨_, rfl⟩

theorem sampleSite₂_advances {atMs : ℤ} (hlow : 10 < atMs) (hhigh : atMs ≤ 14) :
    Advances 10 sampleSite₁ (sampleSite₂ atMs) := by
  have hopen : (sampleSite₁.store.runs.get? ⟨"run_a"⟩).all (!·.isTerminal) = true := by
    decide
  have hrecord : (sampleSite₁.store.getWorkflow "t" "flow").isOk = true := by decide
  exact advances_putRun (not_isTerminal_of_all hopen) rfl hlow hhigh (by decide)
    (definesTerminal_of_values (by decide)) (exists_of_isOk hrecord)

theorem sampleSite₂_newlyTerminal (atMs : ℤ) :
    NewlyTerminal sampleSite.store (sampleSite₂ atMs).store ⟨"run_a"⟩
      (sampleSucceeded "run_a" atMs) :=
  ⟨(KeyedMap.get?_put ..).trans (if_pos rfl), rfl, not_isTerminal_of_all (by decide)⟩

theorem no_terminal_event_lost_sample : Announced (sampleWatch₂ 13).2.emitted
    (sampleSucceeded "run_a" 13) := by
  have hfirst : Advances 10 sampleSite sampleSite₁ ∧ Ahead [] sampleSite sampleSite₁ :=
    ⟨sampleSite₁_advances, fun _ _ _ _ _ _ hs ↦ by cases hs⟩
  have hahead : Ahead [sampleSite₁.store] sampleSite₁ (sampleSite₂ 13) := by
    intro id run atMs hnew hatMs s hs id' run' atMs' hrun' hterminal' hatMs'
    obtain rfl := List.mem_singleton.mp hs
    have hbefore : ∀ run ∈ sampleSite₁.store.runs.values, run.finishedAtMs.all (· < 13) := by
      decide
    have hlisted := hbefore run' (KeyedMap.mem_values.mpr (by rwa [KeyedMap.key_of_get? hrun']))
    have hstored : (sampleSite₁.store.runs.put (sampleSucceeded "run_a" 13)).get? id = some run :=
      hnew.stored
    rw [KeyedMap.get?_put] at hstored
    split_ifs at hstored with hid
    · obtain rfl := Option.some.inj hstored
      obtain rfl : 13 = atMs := Option.some.inj hatMs
      simpa [hatMs'] using hlisted
    · exact absurd hnew.terminal (hnew.open_ run hstored)
  have hsecond : Advances 10 sampleWatch₁.2.scene (sampleSite₂ 13) ∧
      Ahead sampleWatch₁.2.listed sampleWatch₁.2.scene (sampleSite₂ 13) :=
    ⟨sampleSite₂_advances (by decide) (by decide), hahead⟩
  exact no_terminal_event_lost (sampleWatch₂_watched hfirst hsecond)
    (s := (sampleSite₂ 13).store) List.mem_cons_self (sampleSite₂_newlyTerminal 13)

theorem overtaken_run_is_lost :
    Watched sampleSiteEnv (fun w y ↦ Advances 10 w.scene y) 10 sampleSite
      (sampleWatch₂ 11).1 (sampleWatch₂ 11).2 ∧
    (sampleSite₂ 11).store ∈ (sampleWatch₂ 11).2.listed ∧
    NewlyTerminal sampleSite.store (sampleSite₂ 11).store ⟨"run_a"⟩ (sampleSucceeded "run_a" 11) ∧
    ¬ Announced (sampleWatch₂ 11).2.emitted (sampleSucceeded "run_a" 11) := by
  have hsecond : Advances 10 sampleWatch₁.2.scene (sampleSite₂ 11) :=
    sampleSite₂_advances (by decide) (by decide)
  refine ⟨sampleWatch₂_watched sampleSite₁_advances hsecond, List.mem_cons_self,
    sampleSite₂_newlyTerminal 11, ?_⟩
  rintro ⟨e, he, hid, -⟩
  have hothers : ∀ e ∈ (sampleWatch₂ 11).2.emitted, e.ev.runId ≠ "run_a" := by decide
  exact hothers e he hid

end Runvane.Events
