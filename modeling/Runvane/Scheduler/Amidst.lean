import Runvane.Scheduler.AttemptSpec

/-!
# An attempt in the midst of others

An attempt lists the task runs of its run once, and from then on relies on the statuses it keeps.
Here the store may be changed by others between any two of its calls, as long as they leave the task
runs and the definitions alone (`Shared`): the run may be cancelled, written and leased meanwhile.

In such surroundings the statuses that the attempt keeps are those in the store. Every task run that
it writes moves along an edge of the task machine, and the run it writes has the definition it was
submitted with (`Lawful`). When the attempt returns, the run was found cancelled, or all its tasks
are terminal and the status it was given agrees with them (`amid_runWaves`).
-/

set_option autoImplicit false

namespace Runvane.Scheduler

open Library Domain Persistence Retry Prog
open CallProgram (Amid amid_bind amid_mono amid_seq)
open Std (ExtTreeMap)

/-! ### Surroundings -/

def Defined (r : RunId) (d : WorkflowDef) (s : MemoryStore) : Prop :=
  ∀ {run : Run}, s.runs.get? r = some run →
    s.defs[WorkflowKey.mk run.tenant run.defName]? = some ⟨d⟩

/-- The task runs of the run are in order, and its definition is the given one. -/
structure Fit (r : RunId) (d : WorkflowDef) (w : World) : Prop where
  filed : TasksFiled w.store r d
  definition : Defined r d w.store

/-- What others may do: they leave the task runs and the definitions alone, and do not give the run
another definition. -/
structure Shared (r : RunId) (d : WorkflowDef) (w w' : World) : Prop where
  taskRuns : w'.store.taskRuns = w.store.taskRuns
  defs : w'.store.defs = w.store.defs
  definition : Defined r d w.store → Defined r d w'.store

/-- A status that does not change, or moves along an edge of the task machine. -/
def TaskStep (source target : TaskStatus) : Prop :=
  source = target ∨ TaskFsm.canTransition source target = true

instance : DecidableRel TaskStep := fun _ _ ↦ inferInstanceAs (Decidable (_ ∨ _))

/-- What an attempt may call: a task run that it writes belongs to a task of its run and moves along
an edge, and the run that it writes has its definition. -/
def Lawful (r : RunId) (d : WorkflowDef) : Call → World → Prop
  | .store (.putTaskRun tr), w => ∃ t ∈ d.names, tr.id = taskRunId r t ∧ tr.runId = r ∧
      tr.taskName = t ∧ TaskStep (board r w.store t).status tr.status
  | .store (.putRun run), w =>
    run.id = r ∧ w.store.defs[WorkflowKey.mk run.tenant run.defName]? = some ⟨d⟩
  | .store (.deleteRun _), _ | .store (.cancelRun ..), _ | .store (.putWorkflow _), _
  | .store (.updateWorkflowVersion ..), _ => False
  | _, _ => True

/-- The records of other tasks, and the definitions, are the same. -/
structure Apart (r : RunId) (ts : List String) (w w' : World) : Prop where
  task : ∀ t ∉ ts, storedTask w'.store r t = storedTask w.store r t
  defs : w'.store.defs = w.store.defs

section Surroundings

variable {r : RunId} {d : WorkflowDef} {w w' w'' : World} {ts ts' : List String}

theorem Shared.refl (r : RunId) (d : WorkflowDef) (w : World) : Shared r d w w :=
  ⟨rfl, rfl, fun h ↦ h⟩

theorem Shared.trans (h : Shared r d w w') (h' : Shared r d w' w'') : Shared r d w w'' :=
  ⟨h'.taskRuns.trans h.taskRuns, h'.defs.trans h.defs, fun hw ↦ h'.definition (h.definition hw)⟩

theorem Shared.of_changes {change : World → World → Prop}
    (hchange : ∀ w w', change w w' → Shared r d w w')
    (h : Relation.ReflTransGen change w w') : Shared r d w w' := by
  induction h with
  | refl => exact .refl r d w
  | tail _ hstep ih => exact ih.trans (hchange _ _ hstep)

theorem Shared.fit (h : Shared r d w w') (hw : Fit r d w) : Fit r d w' where
  filed := hw.filed.of_taskRuns h.taskRuns
  definition := h.definition hw.definition

theorem Shared.apart (h : Shared r d w w') : Apart r [] w w' where
  task t _ := storedTask_of_get? (by rw [h.taskRuns])
  defs := h.defs

theorem SameRecords.shared (h : SameRecords w.store w'.store) : Shared r d w w' where
  taskRuns := h.taskRuns
  defs := h.defs
  definition hw _ hrun := by
    rw [h.runs] at hrun
    rw [h.defs]
    exact hw hrun

theorem Apart.refl (r : RunId) (w : World) : Apart r [] w w := ⟨fun _ _ ↦ rfl, rfl⟩

theorem Apart.trans (h : Apart r ts w w') (h' : Apart r ts' w' w'') :
    Apart r (ts ++ ts') w w'' where
  task t ht := by
    rw [List.mem_append, not_or] at ht
    rw [h'.task t ht.2, h.task t ht.1]
  defs := h'.defs.trans h.defs

theorem Apart.mono (h : Apart r ts w w') (hts : ∀ t ∈ ts, t ∈ ts') : Apart r ts' w w' :=
  ⟨fun t ht ↦ h.task t fun hmem ↦ ht (hts t hmem), h.defs⟩

theorem Apart.board_apply (h : Apart r ts w w') {t : String} (ht : t ∉ ts) :
    board r w'.store t = board r w.store t := by
  simp only [board, h.task t ht]

theorem Apart.board_eq (h : Apart r [] w w') : board r w'.store = board r w.store :=
  funext fun _ ↦ h.board_apply List.not_mem_nil

end Surroundings

/-! ### Single calls -/

section Calls

variable {env : Env} {change : World → World → Prop} {r : RunId} {d : WorkflowDef} {w : World}
  {ε : Type}

theorem lawful_of_leavesRecords {call : Call} (h : call.LeavesRecords) (w : World) :
    Lawful r d call w := by
  cases call with
  | store call =>
    cases call with
    | putTaskRun | putRun | deleteRun | cancelRun | putWorkflow | updateWorkflowVersion =>
      exact h.elim
    | _ => trivial
  | _ => trivial

variable (hchange : ∀ w w', change w w' → Shared r d w w')

include hchange

variable {fail : Abort ε → World → Prop}

/-- A call that leaves the records alone. It is answered in a world that others have reached. -/
theorem amid_silent (call : Call) {post : call.Answer → World → Prop} (hcall : call.LeavesRecords)
    (hw : Fit r d w)
    (h : ∀ w₁ w', Relation.ReflTransGen change w w₁ → w'.store = (w₁.after env call).store →
      Fit r d w' → Apart r [] w w' → post (env.answer w₁ call).1 w') :
    Amid (serve env) change (Lawful r d) post fail (ask call) w := by
  intro w₁ hchanged
  have hshared := Shared.of_changes hchange hchanged
  have hsame : Shared r d w₁ (w₁.after env call) :=
    (sameRecords_after env w₁ call hcall).shared
  exact ⟨lawful_of_leavesRecords hcall w₁,
    h w₁ _ hchanged rfl ((hshared.trans hsame).fit hw) (hshared.trans hsame).apart⟩

end Calls

/-! ### The setting -/

/-- A move of the board takes each task along an edge of the task machine. -/
theorem taskStep_of_move {rules : BoardRules String} {b b' : Board String} (h : b.Move rules b')
    (t : String) : TaskStep (b t).status (b' t).status := by
  rcases Board.Advances.apply_cases (.inr h) t with heq | ⟨hrunning, hstart⟩ |
    ⟨hsettled, hrunning⟩ | ⟨hskipped, hpending⟩
  · exact .inl (congrArg Cell.status heq).symm
  · rw [hrunning]
    rcases hstart with ⟨hpending, -⟩ | ⟨hfailed, -⟩
    · exact .inr (by rw [hpending]; rfl)
    · exact .inr (by rw [hfailed]; rfl)
  · rw [hrunning]
    rcases hsettled with hend | hend <;> exact .inr (by rw [hend]; rfl)
  · exact .inr (by rw [hskipped, hpending]; rfl)

section Setting

variable {env : Env} {r : RunId} {d : WorkflowDef} {w : World}

theorem Fit.leavesRecords (hw : Fit r d w) (env : Env) (call : Call) (hcall : call.LeavesRecords) :
    Lawful r d call w ∧ Fit r d (w.after env call) ∧ Apart r [] w (w.after env call) :=
  have hsame : Shared r d w (w.after env call) := (sameRecords_after env w call hcall).shared
  ⟨lawful_of_leavesRecords hcall w, hsame.fit hw, hsame.apart⟩

/-- A task run that moves along an edge is written. -/
theorem Fit.putTaskRun (hw : Fit r d w) (env : Env) {t : String} {tr : TaskRun}
    (hrecord : IsRecord r d t tr) (hmove : (board r w.store).Move (boardRules d)
      (Function.update (board r w.store) t ⟨tr.status, tr.attempts⟩)) :
    Lawful r d (.store (.putTaskRun tr)) w ∧ Fit r d (w.after env (.store (.putTaskRun tr))) ∧
      Apart r [t] w (w.after env (.store (.putTaskRun tr))) := by
  obtain ⟨hid, hrun, hname, ht⟩ := hrecord
  have hstep := taskStep_of_move hmove t
  rw [Function.update_self] at hstep
  exact ⟨⟨t, ht, hid, hrun, hname, hstep⟩, ⟨hw.filed.put hid hrun hname ht, hw.definition⟩,
    (touched_putTaskRun env w hid).task, rfl⟩

theorem Fit.putRun (hw : Fit r d w) (env : Env) (run : Run) (hid : run.id = r)
    (hdef : w.store.defs[WorkflowKey.mk run.tenant run.defName]? = some ⟨d⟩) :
    Fit r d (w.after env (.store (.putRun run))) ∧
      RunHasStatus (w.after env (.store (.putRun run))).store r run.status := by
  have hget : (w.after env (.store (.putRun run))).store.runs.get? r = some run :=
    (KeyedMap.get?_put ..).trans (if_pos hid)
  refine ⟨⟨hw.filed.of_taskRuns rfl, fun {found} hfound ↦ ?_⟩,
    runHasStatus_iff.mpr (congrArg (Option.map _) hget)⟩
  obtain rfl := Option.some.inj (hget.symm.trans hfound)
  exact hdef

/-- Others change the store between any two calls, within `Shared`. -/
def Setting.amidst (env : Env) {r : RunId} {d : WorkflowDef} {change : World → World → Prop}
    (hchange : ∀ w w', change w w' → Shared r d w w') : Setting env r d where
  change := change
  pre := Lawful r d
  inv := Fit r d
  touched ts _ := Apart r ts
  armed _ _ := True
  owns run w := run.id = r ∧ w.store.defs[WorkflowKey.mk run.tenant run.defName]? = some ⟨d⟩
  decided status _ w w' := board r w'.store = board r w.store ∧ RunHasStatus w'.store r status
  filed hw := hw.filed
  refl := .refl r
  trans := .trans
  mono := .mono
  task h ht := h.task _ ht
  armed_of_touched _ _ := trivial
  owns_of_touched h howns := ⟨howns.1, by rw [h.defs, howns.2]⟩
  drift hchanged hw :=
    have hshared := Shared.of_changes hchange hchanged
    ⟨hshared.fit hw, hshared.apart⟩
  silent call hcall _ hw := hw.leavesRecords env call hcall
  check hw := hw.leavesRecords env (.store (.getRun r)) trivial
  execute handler ctx _ _ _ hw := hw.leavesRecords env (.execute handler ctx) trivial
  start {w t tr} hrecord hstart hstatus hattempts hw := by
    refine ⟨hw.putTaskRun env hrecord ?_, trivial⟩
    rw [hstatus, hattempts]
    exact .start t hstart
  put hrecord hmove _ hw := hw.putTaskRun env hrecord hmove
  write {w run written} howns hwrite _ hw := by
    have hid := hwrite.id_eq.trans howns.1
    have hdef : w.store.defs[WorkflowKey.mk written.tenant written.defName]? = some ⟨d⟩ := by
      rw [hwrite.key_eq, howns.2]
    obtain ⟨hfit, hstatus⟩ := hw.putRun env written hid hdef
    exact ⟨⟨hid, hdef⟩, hfit, fun h₀ ↦ ⟨h₀.board_eq, hstatus⟩⟩

end Setting

/-! ### The waves, the collapse and the decision -/

/-- The run has come to a decision that agrees with its tasks: all of them are terminal, and one has
failed unless the run has succeeded. -/
structure Concluded (r : RunId) (d : WorkflowDef) (s : MemoryStore) : Prop where
  terminal : ∀ t ∈ d.names, (board r s t).status.isTerminal = true
  status : RunHasStatus s r .succeeded ∨
    (RunHasStatus s r .failed ∨ RunHasStatus s r .queued) ∧
      ∃ t ∈ d.names, (board r s t).status = .failed

section Waves

variable {env : Env} {change : World → World → Prop} {r : RunId} {d : WorkflowDef} {w w' : World}
  {run : Run} {token : Option ClaimToken} {leaseMs : ℤ} {ex : RunExecutor}

variable (hchange : ∀ w w', change w w' → Shared r d w w')

theorem Verdict.concluded {outcome : AttemptOutcome}
    (h : Verdict (Setting.amidst env hchange).decided r d run w w' outcome)
    (hterminal : AllTerminal r d w.store) :
    Concluded r d w'.store := by
  cases h with
  | succeeded _ hdecided =>
    obtain ⟨hboard, hstatus⟩ := hdecided
    exact ⟨by rwa [hboard], .inl hstatus⟩
  | retried _ _ hsome _ hdecided =>
    obtain ⟨hboard, hstatus⟩ := hdecided
    exact ⟨by rwa [hboard], .inr ⟨.inr hstatus, by rwa [hboard]⟩⟩
  | failed _ _ hsome _ hdecided =>
    obtain ⟨hboard, hstatus⟩ := hdecided
    exact ⟨by rwa [hboard], .inr ⟨.inl hstatus, by rwa [hboard]⟩⟩

include hchange

/-- From the time an attempt lists the task runs, as long as others leave them alone: it panics, or
finds the run cancelled, or comes to a decision, unless a task was running before. -/
theorem amid_runWaves (hd : WellFormed d) (hw : Fit r d w) (hrun : run.id = r)
    (hdef : w.store.defs[WorkflowKey.mk run.tenant run.defName]? = some ⟨d⟩)
    (hstatus : run.status = .running) :
    Amid (serve env) change (Lawful r d)
      (fun _ w' ↦ Fit r d w' ∧ (RunHasStatus w'.store r .cancelled ∨ Concluded r d w'.store))
      (fun reason _ ↦ reason = .panic ∨ ∃ t ∈ d.names, (board r w.store t).status = .running)
      (runWaves ex run d token leaseMs) w := by
  refine amid_mono ?_ ?_ (Setting.holds_runWaves (K := .amidst env hchange) hd hw hrun ⟨hrun, hdef⟩
    hstatus (settles_true env r d))
  · rintro outcome w' ⟨hw', ⟨-, -, -, hcancelled⟩ | ⟨ws, w₁, -, hterminal, hverdict⟩⟩
    · exact ⟨hw', .inl hcancelled⟩
    · exact ⟨hw', .inr (hverdict.concluded hchange hterminal)⟩
  · rintro reason w' ⟨-, ⟨rfl, -⟩ | ⟨ws, w₁, hcourse, -, hfail⟩⟩
    · exact .inl rfl
    · rcases hfail with ⟨⟨t, ht, hopen⟩, -⟩ | ⟨-, -, rfl, -⟩
      · refine .inr ⟨t, ht, ?_⟩
        by_contra hidle
        have hcollapsed := Setting.collapsed_of_course hcourse (by simp)
        simp [(hcollapsed.isTerminal_iff ht).mpr hidle] at hopen
      · exact .inl rfl

end Waves

end Runvane.Scheduler
