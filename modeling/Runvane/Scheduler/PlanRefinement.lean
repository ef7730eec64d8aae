import Runvane.Engine.DryRun
import Runvane.Scheduler.Retry

/-!
# The executor follows the dry run

When every handler succeeds, the waves of a first attempt are the stages of the dry run, in the same
order and with the tasks of each in the same order (`attempt_follows_plan`). The two are computed in
different ways, the stages by a countdown of open dependencies and the waves from the statuses of
the tasks at the head of every turn; both are the layers of the dependency relation, and these are
determined.
-/

set_option autoImplicit false

namespace Runvane.Scheduler

open Library Domain Persistence Engine

section Plan

variable {parse : UrlParser} {env : Env} {r : RunId} {d : WorkflowDef} {w₀ w w' : World}
  {ws : List (List String)}

/-- What a run with successful handlers makes of a fresh board. -/
theorem Turns.cell (h : Turns (Touched r) env r d (fun _ ok ↦ ok = true) w₀ ws w)
    (hfresh : board r w₀.store = Board.fresh) (t : String) :
    board r w.store t = if t ∈ ws.flatten then ⟨.succeeded, 1⟩ else ⟨.pending, 0⟩ := by
  have hprogressed := Setting.progressed_turns (K := .alone env r d 0) h
  split_ifs with ht
  · obtain ⟨status, -, hresult, hcell⟩ := hprogressed.settled t ht
    rw [hcell, hfresh, of_decide_eq_true hresult]
    rfl
  · rw [hprogressed.untouched t ht, hfresh]
    rfl

/-- On such a board the next wave is the next layer. -/
theorem IsWave.isLayer {ts : List String} (h : IsWave r d ws.flatten w ts)
    (hturns : Turns (Touched r) env r d (fun _ ok ↦ ok = true) w₀ ws w)
    (hfresh : board r w₀.store = Board.fresh) :
    IsLayer (· ∈ d.names) d.DependsOn ws.flatten ts where
  sorted := h.sorted
  nodup := h.nodup
  mem_iff t := by
    have hsucceeded : ∀ dep, (board r w.store dep).status = .succeeded ↔ dep ∈ ws.flatten := by
      intro dep
      rw [hturns.cell hfresh dep]
      split_ifs with hdep <;> simp [hdep]
    rw [h.mem_iff t]
    refine and_congr_right fun _ ↦ and_congr_right fun hout ↦ ?_
    unfold Board.Startable Board.NeedsMet
    simp only [hsucceeded, hturns.cell hfresh t, if_neg hout, boardRules]
    simp

/-- The waves so far and the layers after them. -/
theorem Turns.layers (h : Turns (Touched r) env r d (fun _ ok ↦ ok = true) w₀ ws w)
    (hfresh : board r w₀.store = Board.fresh) {rest : List (List String)}
    (hrest : Layers (· ∈ d.names) d.DependsOn ws.flatten rest) :
    Layers (· ∈ d.names) d.DependsOn [] (ws ++ rest) := by
  induction h generalizing rest with
  | start => exact hrest
  | wave h hne hwave _ _ ih =>
    rw [List.flatten_append, List.flatten_singleton] at hrest
    rw [List.append_assoc, List.singleton_append]
    exact ih (.layer (hwave.isLayer h hfresh) hne hrest)

/-- Every turn looks at the run record, and then invokes the handlers of its wave. -/
theorem Turns.trail_eq {ok : String → Bool → Prop} (h : Turns (Touched r) env r d ok w₀ ws w)
    (hregistered : ∀ t, ¬ Unregistered env d t) : trail r w.log =
      trail r w₀.log ++ ws.flatMap fun ts ↦ .check :: ts.map .invoke := by
  induction h with
  | start => simp
  | wave _ _ _ hcheck hran ih =>
    obtain ⟨marks, hleaves, htouched⟩ := hran.touched
    rw [htouched.trail_eq, hcheck.trail_eq, ih, hleaves.eq_map fun t _ ↦ hregistered t]
    simp

/-- The course of an attempt with successful handlers on a fresh board. -/
theorem Course.layers {marks : List Mark}
    (h : Course (Touched r) env r d (fun _ ok ↦ ok = true) marks w ws w')
    (hfresh : board r w.store = Board.fresh) : Layers (· ∈ d.names) d.DependsOn [] ws := by
  obtain ⟨loop, drained, stopped, ts, hprelude, hturns, hlast, -⟩ := h
  have hloop : board r loop.store = Board.fresh := hprelude.board_eq.trans hfresh
  have hlayers := hturns.layers hloop (.done (hlast.isLayer hturns hloop))
  rwa [List.append_nil] at hlayers

theorem Course.trail_eq {marks : List Mark} {ok : String → Bool → Prop}
    (h : Course (Touched r) env r d ok marks w ws w') (hregistered : ∀ t, ¬ Unregistered env d t) :
    trail r w'.log = trail r w.log ++ marks ++
      (ws.flatMap fun ts ↦ .check :: ts.map .invoke) ++ [.check] := by
  obtain ⟨loop, drained, stopped, ts, hprelude, hturns, -, hcheck, -, hquiet⟩ := h
  rw [hquiet.trail_eq, hcheck.trail_eq, hturns.trail_eq hregistered, hprelude.trail_eq,
    List.append_nil]

/-- No task fails when every handler succeeds. -/
theorem Collapsed.not_failed {executed : List String}
    (h : Collapsed (Touched r) r d (fun _ ok ↦ ok = true) w executed w')
    (hfresh : board r w.store = Board.fresh) {t : String} (ht : t ∈ d.names) :
    (board r w'.store t).status ≠ .failed := by
  by_cases hexecuted : t ∈ executed
  · obtain ⟨status, -, hresult, hcell⟩ := h.settled t hexecuted
    simp [hcell, of_decide_eq_true hresult]
  · simp [(h.skipped t ht hexecuted (by rw [hfresh]; rfl)).1]

theorem count_invoke_flatMap (ws : List (List String)) (t : String) :
    (ws.flatMap fun ts ↦ Mark.check :: ts.map .invoke).count (.invoke t) = ws.flatten.count t := by
  have hinj : Function.Injective Mark.invoke := fun _ _ heq ↦ Mark.invoke.inj heq
  induction ws with
  | nil => rfl
  | cons ts ws ih =>
    rw [List.flatMap_cons, List.flatten_cons, List.count_append, List.count_append, ih,
      List.count_cons_of_ne (by simp), List.count_map_of_injective _ _ hinj]

/-- The first attempt of a run whose handlers all succeed invokes them stage by stage as the dry run
lists them: between two looks at the run record it dispatches one stage. Every task is invoked once,
and the run succeeds. -/
theorem attempt_follows_plan (ex : RunExecutor) (token : Option ClaimToken) (leaseMs : ℤ)
    {s : MemoryStore} (hvalid : validateDefinition parse d = .ok ())
    (hfirst : FirstDispatched r d s) (hopen : DeadlineOpen env r ⟨s, []⟩)
    (hreturn : HandlersReturn env r) (hok : Settles env r d fun _ ok ↦ ok = true) :
    ∃ report outcome w', simulateWorkflow d = .ok report ∧
      (attemptWithToken ex r token leaseMs).run (serve env) ⟨s, []⟩ = (.ok outcome, w') ∧
      trail r w'.log =
        .check :: (report.stages.flatMap fun stage ↦ .check :: stage.tasks.map .invoke) ++
          [.check] ∧
      (∀ t ∈ d.names, invocations r t w'.log = 1) ∧
      outcome.runStatus = .succeeded ∧ RunHasStatus w'.store r .succeeded := by
  have hd := wellFormed_of_validateDefinition hvalid
  obtain ⟨run, hrun, hstatus, -⟩ := hfirst.run
  have hfresh : board r s = Board.fresh := board_of_noTaskRuns hfirst.noTaskRuns
  have hregistered : ∀ t, ¬ Unregistered env d t := by
    rintro t ⟨task, htask, -, log, hmissing⟩
    simpa using (hok task htask).1 log hmissing
  obtain ⟨outcome, w', ws, w₁, hresult, hw', hcourse, hverdict⟩ :=
    attempt_decides ex token leaseMs hd hfirst.submitted.sound hok
      (MemoryStore.getRun_eq_ok.mp hrun) hstatus hopen hreturn
      (fun t _ ↦ by simp [hfresh, Board.fresh])
      fun executed w₁ hcollapsed hsome ↦ by
        obtain ⟨t, ht, hfailed⟩ := hsome
        exact absurd hfailed (hcollapsed.not_failed hfresh ht)
  obtain ⟨order, horder⟩ := hd.topo
  obtain ⟨report, hreport, hstages, -⟩ := simulateWorkflow_ok horder
  have hlayers := hcourse.layers hfresh
  have hplan : ws = report.stages.map DryRunStage.tasks := by
    rw [hstages]
    exact hlayers.unique (stages_layers hd.nodup)
  have htrail : trail r w'.log = [.check] ++
      (ws.flatMap fun ts ↦ .check :: ts.map .invoke) ++ [.check] := by
    rw [hverdict.trail_eq, hcourse.trail_eq hregistered]
    simp [trail]
  refine ⟨report, outcome, w', hreport, hresult, ?_, fun t ht ↦ ?_, ?_⟩
  · rw [htrail, hplan, List.flatMap_map]
    rfl
  · obtain ⟨rank, hrank⟩ := hd.rank
    have hmem : t ∈ [] ++ ws.flatten := by
      refine hlayers.mem_flatten rank ?_ ht
      rintro _ dep _ ⟨task, htask, rfl, hdep⟩
      exact ⟨hd.known task htask dep hdep, hrank task htask dep hdep⟩
    have hnodup := hlayers.nodup_flatten List.nodup_nil
    unfold invocations
    rw [htrail]
    simpa [count_invoke_flatMap] using List.count_eq_one_of_mem hnodup hmem
  · have hnone : ¬ AnyFailed r d w₁.store := by
      rintro ⟨t, ht, hfailed⟩
      exact (hcourse.collapsed (by simp)).not_failed hfresh ht hfailed
    cases hverdict with
    | succeeded _ hdecided =>
      obtain ⟨run', hrun', hstatus', -⟩ := hdecided.run
      exact ⟨rfl, run', MemoryStore.getRun_eq_ok.mpr hrun', hstatus'⟩
    | retried _ _ hsome => exact absurd hsome hnone
    | failed _ _ hsome => exact absurd hsome hnone

theorem attempt_follows_plan_sample : ∃ report outcome w', simulateWorkflow sampleDef = .ok report ∧
    (attemptWithToken plainExecutor sampleRun none 0).run (serve allUp) ⟨sampleStore, []⟩ =
      (.ok outcome, w') ∧
    trail sampleRun w'.log =
      .check :: (report.stages.flatMap fun stage ↦ .check :: stage.tasks.map .invoke) ++ [.check] ∧
    (∀ t ∈ sampleDef.names, invocations sampleRun t w'.log = 1) ∧
    outcome.runStatus = .succeeded ∧ RunHasStatus w'.store sampleRun .succeeded := by
  have hsettles : Settles allUp sampleRun sampleDef fun _ ok ↦ ok = true := by
    refine fun task _ ↦ ⟨fun _ hmissing ↦ ?_, fun _ _ answer _ _ hanswer ↦ ?_⟩
    · simp [allUp, answering] at hmissing
    · obtain rfl := Option.some.inj hanswer
      rfl
  exact attempt_follows_plan plainExecutor none 0 sampleDef_valid sampleStore_firstDispatched
    (deadlineOpen_of_none _ (by decide)) (handlersReturn_answering (by simp) sampleRun)
    hsettles

end Plan

end Runvane.Scheduler
