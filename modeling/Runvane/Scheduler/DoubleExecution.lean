import Runvane.Scheduler.Amidst
import Runvane.Scheduler.History

/-!
# A run that is attempted twice at once

When the lease of a worker runs out while it is still at work, its run is claimed and attempted
again. Then two attempts of one run, or more, make their calls in any order, and each goes by the
task runs that it listed when it began. An attempt checks an edge of the task machine only when it
settles a task, and not when it starts one or skips it, so that it may overwrite what another has
persisted since: a task that has succeeded is stored as running again (`succeeded_task_restarted`).

It is otherwise when a task run is only ever written by the attempt that has listed them last
(`Orderly`). What the others do then leaves the task runs alone, and an attempt that has listed the
task runs is one in the midst of such changes. Before it has listed them it writes none. So every
status moves along an edge of the machine (`statuses_move_of_orderly`).
-/

set_option autoImplicit false

namespace Runvane.Scheduler

open Library Domain Persistence Prog
open CallProgram (Amid Meets Upto amid_mono keeps_bind keeps_mono upto_bind upto_of_meets)
open Relation (ReflTransGen)

/-! ### AttemptSystem that take turns -/

structure Attempter where
  ex : RunExecutor
  token : Option ClaimToken
  leaseMs : ℤ

def Attempter.program (r : RunId) (attempter : Attempter) : Prog ExecutorError AttemptOutcome :=
  attemptWithToken attempter.ex r attempter.token attempter.leaseMs

/-- Any number of attempts of one run, on one store. -/
abbrev AttemptSystem : Type :=
  System Attempter Call Call.Answer (Abort ExecutorError) AttemptOutcome World

def Call.lists : Call → Bool
  | .store (.listTaskRunsForRun _) => true
  | _ => false

def Call.writesTask : Call → Bool
  | .store (.putTaskRun _) => true
  | _ => false

/-- The call that is made in a turn, and the attempt that makes it. -/
def AttemptSystem.made (sys : AttemptSystem) : Turn Attempter → Option (ℕ × Call)
  | .start _ => none
  | .call index => do
    let process ← sys.processes[index]?
    let call ← process.rest.next?
    pure (index, call)

/-- The attempts that have listed the task runs, the latest first. -/
def listersAfter (listers : List ℕ) : Option (ℕ × Call) → List ℕ
  | some (index, call) => if call.lists ∧ index ∉ listers then index :: listers else listers
  | none => listers

/-- A task run is only written by the attempt that was the last to list them. -/
def Orderly (env : Env) (r : RunId) : List ℕ → AttemptSystem → List (Turn Attempter) → Prop
  | _, _, [] => True
  | listers, sys, turn :: turns =>
    (∀ made ∈ sys.made turn, made.2.writesTask → listers.head? = some made.1) ∧
      Orderly env r (listersAfter listers (sys.made turn))
        (System.advance (serve env) (Attempter.program r) sys turn) turns

instance decidableOrderly (env : Env) (r : RunId) : (listers : List ℕ) → (sys : AttemptSystem) →
    (turns : List (Turn Attempter)) → Decidable (Orderly env r listers sys turns)
  | _, _, [] => .isTrue trivial
  | listers, sys, turn :: turns =>
    have := decidableOrderly env r (listersAfter listers (sys.made turn))
      (System.advance (serve env) (Attempter.program r) sys turn) turns
    inferInstanceAs (Decidable (_ ∧ _))

/-! ### What an attempt may do to the others -/

/-- What the store answers as long as the definitions are `defs` and the run has the given one. -/
def Foreseen (r : RunId) (d : WorkflowDef) (defs : Std.ExtTreeMap WorkflowKey WorkflowRecord) :
    (call : Call) → call.Answer → Prop
  | .store (.getRun id), answer => ∀ run, answer = .ok run → id = r →
      run.id = r ∧ defs[WorkflowKey.mk run.tenant run.defName]? = some ⟨d⟩
  | .store (.getWorkflow tenant name), answer => ∀ record, answer = .ok record →
      defs[WorkflowKey.mk tenant name]? = some record
  | _, _ => True

/-- The calls of an attempt. The run that it writes has its definition. -/
def KeepsDefinition (r : RunId) (d : WorkflowDef)
    (defs : Std.ExtTreeMap WorkflowKey WorkflowRecord) :
    Call → Prop
  | .store (.putRun run) =>
    run.id = r ∧ defs[WorkflowKey.mk run.tenant run.defName]? = some ⟨d⟩
  | .store (.deleteRun _) | .store (.cancelRun ..) | .store (.putWorkflow _)
  | .store (.updateWorkflowVersion ..) => False
  | _ => True

/-- Wherever it is taken up, in the midst of others that leave the task runs alone, the program
makes only lawful calls. -/
def Prepared (env : Env) (r : RunId) (d : WorkflowDef)
    (defs : Std.ExtTreeMap WorkflowKey WorkflowRecord) (p : Prog ExecutorError AttemptOutcome) :
    Prop :=
  ∀ w, Fit r d w → w.store.defs = defs →
    Amid (serve env) (Shared r d) (Lawful r d) (fun _ _ ↦ True) (fun _ _ ↦ True) p w

section Calls

variable {env : Env} {r : RunId} {d : WorkflowDef}
  {defs : Std.ExtTreeMap WorkflowKey WorkflowRecord} {w : World} {call : Call}

theorem foreseen_answer (hw : Fit r d w) (hdefs : w.store.defs = defs) :
    Foreseen r d defs call (env.answer w call).1 := by
  cases call with
  | store call =>
    cases call with
    | getRun id =>
      rintro run hanswer rfl
      have hrun : w.store.runs.get? id = some run := MemoryStore.getRun_eq_ok.mp hanswer
      exact ⟨KeyedMap.key_of_get? hrun, hdefs ▸ hw.definition hrun⟩
    | getWorkflow tenant name =>
      intro record hanswer
      change w.store.getWorkflow tenant name = .ok record at hanswer
      unfold MemoryStore.getWorkflow at hanswer
      rw [hdefs] at hanswer
      cases hget : defs[WorkflowKey.mk tenant name]? with
      | none => simp [hget] at hanswer
      | some found => simpa [hget] using hanswer
    | _ => trivial
  | _ => trivial

theorem AttemptCall.keepsDefinition {token : Option ClaimToken} {leaseMs : ℤ}
    (h : AttemptCall (Foreseen r d defs) r token leaseMs call) : KeepsDefinition r d defs call := by
  cases call with
  | store call =>
    cases call with
    | putRun written =>
      obtain ⟨run, hrun, -, hwrite⟩ := h.putRun
      obtain ⟨hid, hdef⟩ := hrun run rfl rfl
      exact ⟨hwrite.id_eq.trans hid, by rwa [hwrite.key_eq]⟩
    | deleteRun | cancelRun | putWorkflow | updateWorkflowVersion =>
      rcases h.attempting with (h | h) | (h | h) | h <;> exact h.elim
    | _ => trivial
  | _ => trivial

/-- A call that writes no task run leaves them alone. -/
theorem KeepsDefinition.shared (h : KeepsDefinition r d defs call) (hcall : call.writesTask = false)
    (hdefs : w.store.defs = defs) : Shared r d w (w.after env call) := by
  have hsame (hleaves : call.LeavesRecords) : Shared r d w (w.after env call) :=
    (sameRecords_after env w call hleaves).shared
  cases call with
  | store call =>
    cases call with
    | putTaskRun => cases hcall
    | deleteRun | cancelRun | putWorkflow | updateWorkflowVersion => exact h.elim
    | putRun run =>
      refine ⟨rfl, rfl, fun _ {found} hfound ↦ ?_⟩
      have hget : (w.after env (.store (.putRun run))).store.runs.get? r = some run :=
        (KeyedMap.get?_put ..).trans (if_pos h.1)
      obtain rfl := Option.some.inj (hget.symm.trans hfound)
      change w.store.defs[_]? = _
      rw [hdefs]
      exact h.2
    | _ => exact hsame trivial
  | _ => exact hsame trivial

/-- Before an attempt lists the task runs it writes none, and from then on it is prepared. -/
theorem upto_attemptWithToken (hd : WellFormed d) (attempter : Attempter) :
    (attempter.program r).Upto (Foreseen r d defs) (Call.lists ·) (Call.writesTask ·)
      (Prepared env r d defs) := by
  obtain ⟨ex, token, leaseMs⟩ := attempter
  refine .inr ⟨by simp [Call.lists], by simp [Call.writesTask], fun answer hrun ↦ ?_⟩
  cases answer with
  | error e => trivial
  | ok run =>
    obtain ⟨hid, hdef⟩ := hrun run rfl rfl
    refine .inr ⟨by simp [Call.lists], by simp [Call.writesTask], fun answer hrecord ↦ ?_⟩
    cases answer with
    | error e => trivial
    | ok record =>
      obtain rfl : record = ⟨d⟩ := Option.some.inj ((hrecord record rfl).symm.trans hdef)
      change (ite _ _ _ : Prog _ _).Upto _ _ _ _
      split_ifs with hstatus hcancelled
      · trivial
      · trivial
      · have hclock : (deadlinePassed run : Prog ExecutorError Bool).Meets (Foreseen r d defs)
            (fun call ↦ ¬ call.lists ∧ ¬ call.writesTask) fun _ ↦ True := by
          unfold deadlinePassed
          cases run.deadlineAtMs with
          | none => trivial
          | some deadline => exact ⟨by simp [Call.lists, Call.writesTask], fun _ _ ↦ trivial⟩
        refine upto_bind hclock fun passed _ ↦ ?_
        split_ifs
        · refine upto_of_meets ((meets_finishTimedOut run fun _ ↦ True).within fun call hcall ↦ ?_)
          rcases hcall with rfl | ⟨now, error, rfl⟩ <;> simp [Call.lists, Call.writesTask]
        · refine .inl ⟨rfl, fun w hw hdefs ↦ ?_⟩
          refine amid_mono (fun _ _ _ ↦ trivial) (fun _ _ _ ↦ trivial)
            (amid_runWaves (fun _ _ h ↦ h) hd hw hid ?_ (not_not.mp hstatus))
          rw [hdefs]
          exact hdef

end Calls

/-! ### The attempts together -/

/-- Every status of a task is the same in both stores, or has moved along an edge. -/
def TasksMove (r : RunId) (w w' : World) : Prop :=
  ∀ t, TaskStep (board r w.store t).status (board r w'.store t).status

/-- What holds of the attempts and the store between two turns: an attempt that has not listed the
task runs is as at its start, and the last that has listed them is in the midst of the others. -/
structure Supervised (env : Env) (r : RunId) (d : WorkflowDef)
    (defs : Std.ExtTreeMap WorkflowKey WorkflowRecord) (listers : List ℕ) (sys : AttemptSystem) :
    Prop where
  fit : Fit r d sys.state
  defs_eq : sys.state.store.defs = defs
  listed : ∀ index ∈ listers, index < sys.processes.length
  meets : ∀ process ∈ sys.processes,
    process.rest.Meets (Foreseen r d defs) (KeepsDefinition r d defs) fun _ ↦ True
  fresh : ∀ index process, sys.processes[index]? = some process → index ∉ listers →
    process.rest.Upto (Foreseen r d defs) (Call.lists ·) (Call.writesTask ·) (Prepared env r d defs)
  owner : ∀ index process, sys.processes[index]? = some process → listers.head? = some index →
    ∃ w, Shared r d w sys.state ∧
      Amid (serve env) (Shared r d) (Lawful r d) (fun _ _ ↦ True) (fun _ _ ↦ True) process.rest w

section Together

variable {env : Env} {r : RunId} {d : WorkflowDef}
  {defs : Std.ExtTreeMap WorkflowKey WorkflowRecord} {listers : List ℕ} {sys : AttemptSystem}

theorem TasksMove.of_board {w w' : World} (h : board r w'.store = board r w.store) :
    TasksMove r w w' := by
  intro t
  rw [h]
  exact .inl rfl

theorem Supervised.start (hd : WellFormed d) (h : Supervised env r d defs listers sys)
    (attempter : Attempter) : Supervised env r d defs listers
      ⟨sys.state, sys.processes ++ [⟨attempter, attempter.program r⟩]⟩ where
  fit := h.fit
  defs_eq := h.defs_eq
  listed index hindex := by
    have := h.listed index hindex
    simp only [List.length_append, List.length_singleton]
    omega
  meets process hprocess := by
    rcases List.mem_append.mp hprocess with hold | hnew
    · exact h.meets process hold
    · obtain rfl := List.mem_singleton.mp hnew
      exact keeps_mono (fun _ ↦ AttemptCall.keepsDefinition) (fun _ _ ↦ trivial)
        (meets_attemptWithToken attempter.ex r attempter.token attempter.leaseMs)
  fresh index process hprocess hindex := by
    rw [List.getElem?_append] at hprocess
    split_ifs at hprocess with hold
    · exact h.fresh index process hprocess hindex
    · obtain rfl := List.mem_singleton.mp (List.mem_of_getElem? hprocess)
      exact upto_attemptWithToken hd attempter
  owner index process hprocess hhead := by
    have hindex := h.listed index (List.mem_of_head? hhead)
    rw [List.getElem?_append_left hindex] at hprocess
    exact h.owner index process hprocess hhead

/-- The last to list the task runs writes one. -/
theorem Supervised.write (h : Supervised env r d defs listers sys) {index : ℕ}
    {attempter : Attempter} {tr : TaskRun}
    {next : Except StorageError Unit → Prog ExecutorError AttemptOutcome}
    (hprocess : sys.processes[index]? = some ⟨attempter, .call (.store (.putTaskRun tr)) next⟩)
    (hhead : listers.head? = some index) :
    Supervised env r d defs listers
      ⟨sys.state.after env (.store (.putTaskRun tr)), sys.processes.set index
        ⟨attempter, next (env.answer sys.state (.store (.putTaskRun tr))).1⟩⟩ ∧
      TasksMove r sys.state (sys.state.after env (.store (.putTaskRun tr))) := by
  obtain ⟨w, hshared, hamid⟩ := h.owner index _ hprocess hhead
  obtain ⟨⟨t, ht, hid, hrun, hname, hstep⟩, hrest⟩ := hamid sys.state (.single hshared)
  have hindex : index < sys.processes.length := (List.getElem?_eq_some_iff.mp hprocess).1
  refine ⟨⟨⟨h.fit.filed.put hid hrun hname ht, h.fit.definition⟩, h.defs_eq, ?_, ?_, ?_, ?_⟩, ?_⟩
  · simpa using h.listed
  · intro process hmem
    rcases List.mem_or_eq_of_mem_set hmem with hold | rfl
    · exact h.meets process hold
    · exact (h.meets _ (List.mem_of_getElem? hprocess)).2 _ trivial
  · intro other process hother hout
    have hne : index ≠ other := fun heq ↦ hout (heq ▸ List.mem_of_head? hhead)
    rw [List.getElem?_set_ne hne] at hother
    exact h.fresh other process hother hout
  · intro other process hother hhead'
    obtain rfl : index = other := Option.some.inj (hhead.symm.trans hhead')
    rw [List.getElem?_set_self hindex] at hother
    obtain rfl := Option.some.inj hother
    exact ⟨_, .refl r d _, hrest⟩
  · intro other
    by_cases hother : other = t
    · subst hother
      have hstored : board r (sys.state.after env (.store (.putTaskRun tr))).store other =
          ⟨tr.status, tr.attempts⟩ := by
        simp only [board]
        rw [show storedTask (sys.state.after env (.store (.putTaskRun tr))).store r other = tr from
          (storedTask_put hid other).trans (if_pos rfl)]
      rw [hstored]
      exact hstep
    · have hsame : board r (sys.state.after env (.store (.putTaskRun tr))).store other =
          board r sys.state.store other := by
        simp only [board]
        rw [show storedTask (sys.state.after env (.store (.putTaskRun tr))).store r other = _ from
          (storedTask_put hid other).trans (if_neg hother)]
      rw [hsame]
      exact .inl rfl

/-- An attempt makes a call that writes no task run. -/
theorem Supervised.call (h : Supervised env r d defs listers sys) {index : ℕ}
    {attempter : Attempter} {call : Call} {next : call.Answer → Prog ExecutorError AttemptOutcome}
    (hprocess : sys.processes[index]? = some ⟨attempter, .call call next⟩)
    (hcall : call.writesTask = false) :
    Supervised env r d defs (listersAfter listers (some (index, call)))
      ⟨sys.state.after env call, sys.processes.set index
        ⟨attempter, next (env.answer sys.state call).1⟩⟩ ∧
      TasksMove r sys.state (sys.state.after env call) := by
  obtain ⟨hkeeps, hmeets⟩ := h.meets _ (List.mem_of_getElem? hprocess)
  have hanswer : Foreseen r d defs call (env.answer sys.state call).1 :=
    foreseen_answer h.fit h.defs_eq
  have hshared : Shared r d sys.state (sys.state.after env call) := hkeeps.shared hcall h.defs_eq
  have hindex : index < sys.processes.length := (List.getElem?_eq_some_iff.mp hprocess).1
  refine ⟨⟨hshared.fit h.fit, hshared.defs.trans h.defs_eq, ?_, ?_, ?_, ?_⟩,
    .of_board hshared.apart.board_eq⟩
  · intro other hother
    simp only [listersAfter] at hother
    rw [List.length_set]
    split_ifs at hother
    · rcases List.mem_cons.mp hother with rfl | hold
      · exact hindex
      · exact h.listed other hold
    · exact h.listed other hother
  · intro process hmem
    rcases List.mem_or_eq_of_mem_set hmem with hold | rfl
    · exact h.meets process hold
    · exact hmeets _ hanswer
  · intro other process hother hout
    have hout' : other ∉ listers := by
      simp only [listersAfter] at hout
      split_ifs at hout
      · exact fun hold ↦ hout (List.mem_cons_of_mem _ hold)
      · exact hout
    by_cases hne : index = other
    · subst hne
      rw [List.getElem?_set_self hindex] at hother
      obtain rfl := Option.some.inj hother
      -- the call was not the listing, or the attempt would be among those that have listed
      have hnot : ¬ call.lists := by
        intro hlists
        simp [listersAfter, hlists, hout'] at hout
      rcases h.fresh index _ hprocess hout' with ⟨hlists, -⟩ | ⟨-, -, hrest⟩
      · exact absurd hlists hnot
      · exact hrest _ hanswer
    · rw [List.getElem?_set_ne hne] at hother
      exact h.fresh other process hother hout'
  · intro other process hother hhead
    by_cases hnew : call.lists ∧ index ∉ listers
    · -- the attempt has just listed the task runs
      simp only [listersAfter, hnew, if_true, not_false_eq_true, and_self, List.head?_cons,
        Option.some.injEq] at hhead
      subst hhead
      rw [List.getElem?_set_self hindex] at hother
      obtain rfl := Option.some.inj hother
      rcases h.fresh index _ hprocess hnew.2 with ⟨-, hprepared⟩ | ⟨hnot, -⟩
      · exact ⟨_, .refl r d _, (hprepared sys.state h.fit h.defs_eq sys.state .refl).2⟩
      · exact absurd hnew.1 hnot
    · simp only [listersAfter, if_neg hnew] at hhead
      by_cases hne : index = other
      · subst hne
        rw [List.getElem?_set_self hindex] at hother
        obtain rfl := Option.some.inj hother
        obtain ⟨w, hbefore, hamid⟩ := h.owner index _ hprocess hhead
        exact ⟨_, .refl r d _, (hamid sys.state (.single hbefore)).2⟩
      · rw [List.getElem?_set_ne hne] at hother
        obtain ⟨w, hbefore, hamid⟩ := h.owner other process hother hhead
        exact ⟨w, hbefore.trans hshared, hamid⟩

/-- A turn in which a task run is only written by the last to list them. -/
theorem Supervised.advance (hd : WellFormed d) (h : Supervised env r d defs listers sys)
    {turn : Turn Attempter}
    (hwrite : ∀ made ∈ sys.made turn, made.2.writesTask → listers.head? = some made.1) :
    Supervised env r d defs (listersAfter listers (sys.made turn))
      (System.advance (serve env) (Attempter.program r) sys turn) ∧
      TasksMove r sys.state (System.advance (serve env) (Attempter.program r) sys turn).state := by
  have hadvanced := System.advanced (serve env) (Attempter.program r) sys turn
  generalize System.advance (serve env) (Attempter.program r) sys turn = sys' at hadvanced ⊢
  cases hadvanced with
  | start attempter => exact ⟨h.start hd attempter, .of_board rfl⟩
  | @idle index hidle =>
    have hmade : sys.made (.call index) = none := by
      simpa [AttemptSystem.made, System.nextCall] using hidle
    rw [hmade]
    exact ⟨h, .of_board rfl⟩
  | @call index attempter call next hprocess =>
    have hmade : sys.made (.call index) = some (index, call) := by
      simp [AttemptSystem.made, hprocess, CallProgram.next?]
    rw [hmade] at hwrite ⊢
    cases hcall : call.writesTask with
    | false => exact h.call hprocess hcall
    | true =>
      have hhead := hwrite _ rfl hcall
      cases call with
      | store call =>
        cases call with
        | putTaskRun tr => exact h.write hprocess hhead
        | _ => cases hcall
      | _ => cases hcall

/-- Along an orderly sequence of turns the statuses of the tasks move along the edges. -/
theorem isChain_of_orderly (hd : WellFormed d) {turns : List (Turn Attempter)}
    (h : Supervised env r d defs listers sys) (horderly : Orderly env r listers sys turns) :
    (System.states (serve env) (Attempter.program r) sys turns).IsChain (TasksMove r) := by
  induction turns generalizing listers sys with
  | nil => exact List.isChain_singleton _
  | cons turn turns ih =>
    obtain ⟨hafter, hmove⟩ := h.advance hd horderly.1
    have hchain := ih hafter horderly.2
    cases turns with
    | nil | cons => exact List.isChain_cons_cons.mpr ⟨hmove, hchain⟩

end Together

/-! ### Double execution -/

section Guarantee

variable {parse : UrlParser} {env : Env} {r : RunId} {d : WorkflowDef} {a : ℕ} {s : MemoryStore}
  {w : World}

theorem TaskStep.of_succeeded {target : TaskStatus} (h : TaskStep .succeeded target) :
    target = .succeeded := by
  rcases h with rfl | h
  · rfl
  · cases h

/-- What moves along the edges does not leave the status succeeded. -/
theorem pairwise_succeeded {worlds : List World} (h : worlds.IsChain (TasksMove r)) :
    worlds.Pairwise fun w w' ↦ ∀ t, (board r w.store t).status = .succeeded →
      (board r w'.store t).status = .succeeded := by
  let stays : World → World → Prop := fun w w' ↦
    ∀ t, (board r w.store t).status = .succeeded → (board r w'.store t).status = .succeeded
  have htrans : IsTrans World stays := ⟨fun _ _ _ h h' t ht ↦ h' t (h t ht)⟩
  have hstep : ∀ w w', TasksMove r w w' → stays w w' := by
    intro w w' hmove t ht
    have hstep := hmove t
    rw [ht] at hstep
    exact hstep.of_succeeded
  exact (h.imp hstep).pairwise

/-- From any point in the life of a run, whatever attempts of it are started and in whatever order
they make their calls: as long as a task run is only written by the attempt that was the last to
list them, the statuses of the tasks move along the edges of the task machine, and a task that has
succeeded stays so. -/
theorem statuses_move_of_orderly (hvalid : validateDefinition parse d = .ok ())
    (hsubmitted : Submitted r d a s) (hhistory : History env r ⟨s, []⟩ w)
    {turns : List (Turn Attempter)} (horderly : Orderly env r [] ⟨w, []⟩ turns) :
    (System.states (serve env) (Attempter.program r) ⟨w, []⟩ turns).IsChain (fun w w' ↦
      ∀ t, TaskStep (board r w.store t).status (board r w'.store t).status) ∧
    (System.states (serve env) (Attempter.program r) ⟨w, []⟩ turns).Pairwise fun w w' ↦
      ∀ t, (board r w.store t).status = .succeeded → (board r w'.store t).status = .succeeded := by
  have hd := wellFormed_of_validateDefinition hvalid
  have hsound := sound_of_history hd hsubmitted hhistory
  have hstart : Supervised env r d w.store.defs [] ⟨w, []⟩ :=
    ⟨⟨hsound.filed, hsound.definition⟩, rfl, by simp, by simp, by simp, by simp⟩
  have hchain := isChain_of_orderly hd hstart horderly
  exact ⟨hchain, pairwise_succeeded hchain⟩

/-- The first worker, and the one that claims the run after it. -/
def firstWorker : Attempter := ⟨plainExecutor, some ⟨"first"⟩, 10⟩

@[inherit_doc firstWorker]
def secondWorker : Attempter := ⟨plainExecutor, some ⟨"second"⟩, 10⟩

/-- A running run whose entry was leased to the first worker from time 0 to time 10, and has been
leased to the second at time 20. -/
def reclaimedStore : MemoryStore :=
  let queued := (sampleStore.enqueue
    { runId := sampleRun, token := ⟨""⟩, dueAtMs := 0, leaseUntilMs := none, claimedBy := none }).2
  ((queued.claim sampleRun ⟨"first"⟩ 0 10).2.claim sampleRun ⟨"second"⟩ 20 10).2

/-- A world at time 20 in which every handler succeeds. -/
def reclaimedEnv : Env := { answering fun _ ↦ some (.ok ⟨.null⟩) with clock := fun _ ↦ 20 }

/-- What is stored for the first task, along a sequence of turns of attempts of the run. -/
def firstTaskStatuses (turns : List (Turn Attempter)) : List TaskStatus :=
  (System.states (serve reclaimedEnv) (Attempter.program sampleRun) ⟨⟨reclaimedStore, []⟩, []⟩
    turns).map fun w ↦ (board sampleRun w.store "a").status

theorem reclaimedStore_submitted : Submitted sampleRun sampleDef 0 reclaimedStore where
  run := ⟨_, rfl, rfl, rfl⟩
  noTaskRuns := noTaskRuns_of_empty rfl sampleRun

/-- Both workers list the task runs, and only the second goes on. -/
def takenOver : List (Turn Attempter) :=
  [.start firstWorker, .start secondWorker] ++ List.replicate 3 (.call 0) ++
    List.replicate 40 (.call 1)

theorem statuses_move_of_orderly_sample :
    (System.states (serve reclaimedEnv) (Attempter.program sampleRun) ⟨⟨reclaimedStore, []⟩, []⟩
      takenOver).IsChain (fun w w' ↦ ∀ t,
        TaskStep (board sampleRun w.store t).status (board sampleRun w'.store t).status) ∧
    (System.states (serve reclaimedEnv) (Attempter.program sampleRun) ⟨⟨reclaimedStore, []⟩, []⟩
      takenOver).Pairwise fun w w' ↦ ∀ t, (board sampleRun w.store t).status = .succeeded →
        (board sampleRun w'.store t).status = .succeeded :=
  statuses_move_of_orderly sampleDef_valid reclaimedStore_submitted .refl (by decide)

/-- Both workers list the task runs. The first then runs its task to the end, and the second starts
it again. -/
def doublyExecuted : List (Turn Attempter) :=
  [.start firstWorker, .start secondWorker] ++ List.replicate 3 (.call 0) ++
    List.replicate 3 (.call 1) ++ List.replicate 11 (.call 0) ++ List.replicate 6 (.call 1)

/-- The task goes from succeeded back to running, which is no edge of the task machine. -/
theorem succeeded_task_restarted :
    validateDefinition (fun _ ↦ .error "") sampleDef = .ok () ∧
      (reclaimedStore.queue.get? sampleRun).map (fun entry ↦ (entry.token, entry.leaseUntilMs)) =
        some (⟨"second"⟩, some 30) ∧
      (firstTaskStatuses doublyExecuted).destutter (· ≠ ·) =
        [.pending, .running, .succeeded, .running] ∧
      ¬ (firstTaskStatuses doublyExecuted).IsChain TaskStep := by
  decide

end Guarantee

end Runvane.Scheduler
