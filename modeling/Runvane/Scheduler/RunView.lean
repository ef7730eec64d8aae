import Runvane.Scheduler.Executor
import Runvane.Scheduler.TaskBoard

/-!
# What the store and the log show of a run

The board of a run is read off the store (`board`), and the order of events off the log: `trail`
keeps the two kinds of call that matter, the look at the run record at the head of the loop and the
invocation of a handler.

`Sound` is the invariant of a run that is attempted again and again, with crashes between any two
calls. The boards that the log has seen form a chain of moves from the fresh board, every handler
was invoked while its task was running, and each time with a higher counter (`tally`), hence no more
often than the counter says (`Sound.invoked_le`). The module ends with what single calls do under
this invariant: calls that leave the records alone (`Sound.silent`), the invocation of a handler
(`Sound.execute`), and the writing of a task run or of the run itself (`touched_putTaskRun`,
`Touched.decided`).
-/

set_option autoImplicit false

namespace Runvane.Scheduler

open Library Domain Persistence Prog
open CallProgram (wp wp_bind)

/-! ### The board of a run -/

/-- The record an attempt works with: the stored one, or a pending one when there is none. -/
def storedTask (s : MemoryStore) (r : RunId) (t : String) : TaskRun :=
  (s.taskRuns.get? (taskRunId r t)).getD { id := taskRunId r t, runId := r, taskName := t }

/-- The board of a run. -/
def board (r : RunId) (s : MemoryStore) : Board String :=
  fun t ↦ ⟨(storedTask s r t).status, (storedTask s r t).attempts⟩

/-- The rules that a definition gives its runs. -/
def boardRules (d : WorkflowDef) : BoardRules String where
  needs := d.DependsOn
  budget t := (d.policyOf t).maxAttempts

/-- The task runs of a run are filed under their own ids, and belong to tasks of the definition. -/
structure TasksFiled (s : MemoryStore) (r : RunId) (d : WorkflowDef) : Prop where
  owner : ∀ {t : String} {tr : TaskRun}, s.taskRuns.get? (taskRunId r t) = some tr →
    tr.runId = r ∧ tr.taskName = t
  named : ∀ {tr : TaskRun}, s.taskRuns.get? tr.id = some tr → tr.runId = r →
    tr.id = taskRunId r tr.taskName ∧ tr.taskName ∈ d.names

/-- No task run is stored for the run, by owner or by id. -/
def NoTaskRuns (s : MemoryStore) (r : RunId) : Prop :=
  ∀ {id : TaskRunId} {tr : TaskRun}, s.taskRuns.get? id = some tr →
    tr.runId ≠ r ∧ ∀ t, id ≠ taskRunId r t

theorem TasksFiled.of_noTaskRuns {s : MemoryStore} {r : RunId} (h : NoTaskRuns s r)
    (d : WorkflowDef) : TasksFiled s r d where
  owner hget := absurd rfl ((h hget).2 _)
  named hget hrun := absurd hrun (h hget).1

theorem NoTaskRuns.get?_eq_none {s : MemoryStore} {r : RunId} (h : NoTaskRuns s r) (t : String) :
    s.taskRuns.get? (taskRunId r t) = none := by
  cases hget : s.taskRuns.get? (taskRunId r t) with
  | none => rfl
  | some tr => exact absurd rfl ((h hget).2 t)

theorem TasksFiled.of_taskRuns {s s' : MemoryStore} {r : RunId} {d : WorkflowDef}
    (h : TasksFiled s r d) (hsame : s'.taskRuns = s.taskRuns) : TasksFiled s' r d where
  owner hget := h.owner (by rwa [hsame] at hget)
  named hget := h.named (by rwa [hsame] at hget)

theorem board_of_noTaskRuns {s : MemoryStore} {r : RunId} (h : NoTaskRuns s r) :
    board r s = Board.fresh := by
  funext t
  simp [board, storedTask, h.get?_eq_none t, Board.fresh]

variable {t : String} {tr : TaskRun} {ns : List ℕ}

/-- The record an attempt works with depends on one entry of the store. -/
theorem storedTask_of_get? {s s' : MemoryStore} {r : RunId}
    (h : s'.taskRuns.get? (taskRunId r t) = s.taskRuns.get? (taskRunId r t)) :
    storedTask s' r t = storedTask s r t := by
  unfold storedTask
  rw [h]

theorem board_of_get? {s s' : MemoryStore} {r : RunId}
    (h : ∀ t, s'.taskRuns.get? (taskRunId r t) = s.taskRuns.get? (taskRunId r t)) :
    board r s' = board r s := by
  unfold board
  simp only [storedTask_of_get? (h _)]

theorem storedTask_id (s : MemoryStore) (r : RunId) (t : String) :
    (storedTask s r t).id = taskRunId r t := by
  unfold storedTask
  cases hget : s.taskRuns.get? (taskRunId r t) with
  | none => rfl
  | some tr => exact KeyedMap.key_of_get? hget

theorem TasksFiled.storedTask_owner {s : MemoryStore} {r : RunId} {d : WorkflowDef}
    (h : TasksFiled s r d) (t : String) :
    (storedTask s r t).runId = r ∧ (storedTask s r t).taskName = t := by
  unfold storedTask
  cases hget : s.taskRuns.get? (taskRunId r t) with
  | none => exact ⟨rfl, rfl⟩
  | some tr => exact h.owner hget

def HasStatus (s : MemoryStore) (r : RunId) (t : String) (status : TaskStatus) : Prop :=
  ∃ tr, s.getTaskRun (taskRunId r t) = .ok tr ∧ tr.status = status

def RunHasStatus (s : MemoryStore) (r : RunId) (status : RunStatus) : Prop :=
  ∃ run, s.getRun r = .ok run ∧ run.status = status

theorem runHasStatus_iff {s : MemoryStore} {r : RunId} {status : RunStatus} :
    RunHasStatus s r status ↔ (s.runs.get? r).map Run.status = some status := by
  unfold RunHasStatus
  simp only [MemoryStore.getRun_eq_ok, Option.map_eq_some_iff]

instance (s : MemoryStore) (r : RunId) (status : RunStatus) :
    Decidable (RunHasStatus s r status) :=
  decidable_of_iff _ runHasStatus_iff.symm

theorem hasStatus_iff {s : MemoryStore} {r : RunId} {status : TaskStatus} (h : status ≠ .pending) :
    HasStatus s r t status ↔ (board r s t).status = status := by
  unfold HasStatus board storedTask
  simp only [MemoryStore.getTaskRun_eq_ok]
  cases s.taskRuns.get? (taskRunId r t) with
  | none => simpa using h.symm
  | some tr => simp

/-- Writing a task run changes one record of the run. -/
theorem storedTask_put {s : MemoryStore} {r : RunId} (hid : tr.id = taskRunId r t)
    (other : String) :
    storedTask (s.putTaskRun tr).2 r other = if other = t then tr else storedTask s r other := by
  unfold storedTask MemoryStore.putTaskRun
  rw [KeyedMap.get?_put, hid]
  by_cases h : other = t
  · subst h
    simp
  · simp [h, Ne.symm h]

theorem board_put {s : MemoryStore} {r : RunId} (hid : tr.id = taskRunId r t) :
    board r (s.putTaskRun tr).2 =
      Function.update (board r s) t ⟨tr.status, tr.attempts⟩ := by
  funext other
  by_cases h : other = t
  · subst h
    simp [board, storedTask_put hid]
  · simp [board, storedTask_put hid, h]

theorem TasksFiled.put {s : MemoryStore} {r : RunId} {d : WorkflowDef} (h : TasksFiled s r d)
    (hid : tr.id = taskRunId r t) (hrun : tr.runId = r) (hname : tr.taskName = t)
    (ht : t ∈ d.names) : TasksFiled (s.putTaskRun tr).2 r d where
  owner {other tr'} hget := by
    simp only [MemoryStore.putTaskRun, KeyedMap.get?_put, hid, taskRunId_inj] at hget
    split_ifs at hget with hother
    · obtain rfl := Option.some.inj hget
      exact ⟨hrun, hname.trans hother⟩
    · exact h.owner hget
  named {tr'} hget hrun' := by
    simp only [MemoryStore.putTaskRun, KeyedMap.get?_put] at hget
    split_ifs at hget with hother
    · obtain rfl := Option.some.inj hget
      exact ⟨by rw [hid, hname], hname ▸ ht⟩
    · exact h.named hget hrun'

/-! ### Calls that leave the records alone -/

structure SameRecords (s s' : MemoryStore) : Prop where
  runs : s'.runs = s.runs
  taskRuns : s'.taskRuns = s.taskRuns
  defs : s'.defs = s.defs

namespace SameRecords

variable {s s' : MemoryStore}

theorem trans {s'' : MemoryStore} (h : SameRecords s s') (h' : SameRecords s' s'') :
    SameRecords s s'' :=
  ⟨h'.runs.trans h.runs, h'.taskRuns.trans h.taskRuns, h'.defs.trans h.defs⟩

theorem storedTask_eq (h : SameRecords s s') (r : RunId) (t : String) :
    storedTask s' r t = storedTask s r t :=
  storedTask_of_get? (by rw [h.taskRuns])

theorem board_eq (h : SameRecords s s') (r : RunId) : board r s' = board r s :=
  board_of_get? fun _ ↦ by rw [h.taskRuns]

theorem filed (h : SameRecords s s') {r : RunId} {d : WorkflowDef} (hs : TasksFiled s r d) :
    TasksFiled s' r d :=
  hs.of_taskRuns h.taskRuns

end SameRecords

/-- The calls other than those that write a definition, a run or a task run. -/
def Call.LeavesRecords : Call → Prop
  | .store (.putWorkflow _) | .store (.updateWorkflowVersion ..) | .store (.putRun _)
  | .store (.deleteRun _) | .store (.putTaskRun _) | .store (.cancelRun ..) => False
  | _ => True

theorem sameRecords_asHolder (s : MemoryStore) (runId : RunId) (held : QueueEntry → Bool)
    (act : QueueEntry → KeyedMap QueueEntry.runId) :
    SameRecords s (s.asHolder runId held act).2 := by
  rcases s.asHolder_cases runId held act with ⟨e, heq⟩ | ⟨entry, -, -, heq⟩ <;> rw [heq] <;>
    exact ⟨rfl, rfl, rfl⟩

theorem sameRecords_enqueue (s : MemoryStore) (entry : QueueEntry) :
    SameRecords s (s.enqueue entry).2 := by
  unfold MemoryStore.enqueue
  split <;> exact ⟨rfl, rfl, rfl⟩

theorem sameRecords_claim (s : MemoryStore) (runId : RunId) (token : ClaimToken)
    (nowMs leaseMs : ℤ) : SameRecords s (s.claim runId token nowMs leaseMs).2 := by
  rcases s.claim_cases runId token nowMs leaseMs with ⟨e, heq⟩ | ⟨entry, -, heq⟩ <;> rw [heq] <;>
    exact ⟨rfl, rfl, rfl⟩

theorem sameRecords_after (env : Env) (w : World) (call : Call) (h : call.LeavesRecords) :
    SameRecords w.store (w.after env call).store := by
  cases call with
  | store call =>
    cases call with
    | putWorkflow | updateWorkflowVersion | putRun | deleteRun | putTaskRun | cancelRun =>
      exact h.elim
    | enqueue => exact sameRecords_enqueue ..
    | claim => exact sameRecords_claim ..
    | ack | release | failclaim | renewLease => exact sameRecords_asHolder ..
    | _ => exact ⟨rfl, rfl, rfl⟩
  | _ => exact ⟨rfl, rfl, rfl⟩

def Call.LeavesRuns : Call → Prop
  | .store (.putRun _) | .store (.deleteRun _) | .store (.cancelRun ..) => False
  | _ => True

theorem runs_after (env : Env) (w : World) (call : Call) (h : call.LeavesRuns) :
    (w.after env call).store.runs = w.store.runs := by
  cases call with
  | store call =>
    cases call with
    | putRun | deleteRun | cancelRun => exact h.elim
    | updateWorkflowVersion tenant name d expected =>
      change (w.store.updateWorkflowVersion tenant name d expected).2.runs = _
      unfold MemoryStore.updateWorkflowVersion
      split
      · rfl
      · split_ifs <;> rfl
    | putWorkflow | putTaskRun => rfl
    | _ => exact (sameRecords_after env w _ (by trivial)).runs
  | _ => rfl

/-- The calls other than those that write a definition. -/
def Call.LeavesDefs : Call → Prop
  | .store (.putWorkflow _) | .store (.updateWorkflowVersion ..) => False
  | _ => True

theorem defs_after (env : Env) (w : World) (call : Call) (h : call.LeavesDefs) :
    (w.after env call).store.defs = w.store.defs := by
  cases call with
  | store call =>
    cases call with
    | putWorkflow | updateWorkflowVersion => exact h.elim
    | cancelRun runId nowMs =>
      change (w.store.cancelRun runId nowMs).2.defs = _
      rcases w.store.cancelRun_cases runId nowMs with ⟨-, hstore⟩ | ⟨run, -, -, hstore⟩ <;>
        rw [hstore]
    | putRun | deleteRun | putTaskRun => rfl
    | _ => exact (sameRecords_after env w _ (by trivial)).defs
  | _ => rfl

/-! ### The trail of a run -/

/-- The calls of an attempt that show its progress: a look at the run record, and the invocation of
a task's handler. -/
inductive Mark
  | check
  | invoke (taskName : String)
  deriving DecidableEq, Repr

/-- What a call is in the trail of a run. -/
def Call.mark (r : RunId) : Call → Option Mark
  | .store (.getRun id) => if id = r then some .check else none
  | .execute _ ctx => if ctx.runId = r then some (.invoke ctx.taskName) else none
  | _ => none

/-- The marks of a run in a log. -/
def trail (r : RunId) (log : List Event) : List Mark := log.filterMap (·.call.mark r)

/-- How often the handler of a task was invoked for the run. -/
def invocations (r : RunId) (t : String) (log : List Event) : ℕ := (trail r log).count (.invoke t)

/-- The counter of a task at each invocation of its handler. -/
def tally (r : RunId) (t : String) (log : List Event) : List ℕ :=
  (log.filter (·.call.mark r = some (.invoke t))).map fun e ↦ (board r e.store t).attempts

def Event.Invokes (e : Event) (r : RunId) (t : String) : Prop :=
  ∃ handler ctx, e.call = .execute handler ctx ∧ ctx.runId = r ∧ ctx.taskName = t

variable {marks : List Mark}

theorem Event.invokes_iff {e : Event} {r : RunId} :
    e.Invokes r t ↔ e.call.mark r = some (.invoke t) := by
  constructor
  · rintro ⟨handler, ctx, hcall, hrun, hname⟩
    rw [hcall]
    simp [Call.mark, hrun, hname]
  · intro hmark
    unfold Call.mark at hmark
    split at hmark
    · split_ifs at hmark
      cases hmark
    · next handler ctx hcall =>
      split_ifs at hmark with hrun
      exact ⟨handler, ctx, hcall, hrun, by simpa using hmark⟩
    · cases hmark

instance (e : Event) (r : RunId) (t : String) : Decidable (e.Invokes r t) :=
  decidable_of_iff _ Event.invokes_iff.symm

theorem Event.Invokes.mark_eq {e : Event} {r : RunId} (h : e.Invokes r t) :
    e.call.mark r = some (.invoke t) :=
  Event.invokes_iff.mp h

def World.stores (w : World) : List MemoryStore := w.log.map Event.store ++ [w.store]

theorem World.stores_after (env : Env) (w : World) (call : Call) :
    (w.after env call).stores = w.stores ++ [(w.after env call).store] := by
  simp [World.stores, World.after]

theorem trail_after (env : Env) (r : RunId) (w : World) (call : Call) :
    trail r (w.after env call).log = trail r w.log ++ (call.mark r).toList := by
  simp only [trail, World.after, List.filterMap_append]
  cases hmark : call.mark r <;> simp [hmark]

theorem tally_append (r : RunId) (t : String) (log log' : List Event) :
    tally r t (log ++ log') = tally r t log ++ tally r t log' := by
  simp [tally]

theorem tally_after_of_ne (env : Env) {r : RunId} (w : World) {call : Call}
    (h : call.mark r ≠ some (.invoke t)) : tally r t (w.after env call).log = tally r t w.log := by
  simp [World.after, tally, h]

theorem tally_after_of_eq (env : Env) {r : RunId} (w : World) {call : Call}
    (h : call.mark r = some (.invoke t)) :
    tally r t (w.after env call).log = tally r t w.log ++ [(board r w.store t).attempts] := by
  simp [World.after, tally, h]

theorem count_trail_eq_length_tally (r : RunId) (t : String) (log : List Event) :
    (trail r log).count (.invoke t) = (tally r t log).length := by
  induction log with
  | nil => rfl
  | cons e log ih =>
    unfold trail tally at ih ⊢
    by_cases hmark : e.call.mark r = some (.invoke t)
    · simpa [List.filterMap_cons, List.filter_cons, hmark] using ih
    · cases hcall : e.call.mark r with
      | none => simpa [List.filterMap_cons, List.filter_cons, hcall] using ih
      | some mark =>
        have hne : mark ≠ .invoke t := fun h ↦ hmark (hcall.trans (congrArg some h))
        simpa [List.filterMap_cons, List.filter_cons, hcall, hne, List.count_cons] using ih

/-- The numbers ascend from above zero and do not exceed the last one. -/
structure Ascending (ns : List ℕ) (last : ℕ) : Prop where
  pairwise : (0 :: ns).Pairwise (· < ·)
  le : ∀ n ∈ 0 :: ns, n ≤ last

theorem ascending_nil (last : ℕ) : Ascending [] last :=
  ⟨List.pairwise_singleton _ _, by simp⟩

theorem Ascending.length_le {last : ℕ} (h : Ascending ns last) : ns.length ≤ last := by
  have hnodup : (0 :: ns).Nodup := h.pairwise.imp Nat.ne_of_lt
  have hsubset : (0 :: ns).toFinset ⊆ Finset.range (last + 1) := by
    intro n hn
    rw [List.mem_toFinset] at hn
    exact Finset.mem_range_succ_iff.mpr (h.le n hn)
  have hcard := Finset.card_le_card hsubset
  rw [List.toFinset_card_of_nodup hnodup, Finset.card_range, List.length_cons] at hcard
  omega

theorem Ascending.append {last : ℕ} (h : Ascending ns last) (hlast : ∀ n ∈ 0 :: ns, n < last) :
    Ascending (ns ++ [last]) last where
  pairwise := by
    rw [← List.cons_append]
    exact List.pairwise_append.mpr ⟨h.pairwise, List.pairwise_singleton _ _, by simpa using hlast⟩
  le := by
    intro n hn
    rw [← List.cons_append, List.mem_append, List.mem_singleton] at hn
    rcases hn with hn | rfl
    · exact h.le n hn
    · exact le_rfl

theorem Ascending.mono {last last' : ℕ} (h : Ascending ns last) (hle : last ≤ last') :
    Ascending ns last' :=
  ⟨h.pairwise, fun n hn ↦ (h.le n hn).trans hle⟩

/-! ### The invariant -/

/-- Every task may run at least once, and no budget exceeds the ceiling of a policy. -/
def BudgetsOk (d : WorkflowDef) : Prop :=
  ∀ t ∈ d.names, 1 ≤ (d.policyOf t).maxAttempts ∧ (d.policyOf t).maxAttempts ≤ maxAttemptsLimit

/-- The invariant of a run `r` of the definition `d` that was submitted with `a` attempts. -/
structure Sound (r : RunId) (d : WorkflowDef) (a : ℕ) (w : World) : Prop where
  filed : TasksFiled w.store r d
  moves : (w.stores.map (board r)).IsChain (Board.Advances (boardRules d))
  fresh : ∀ first ∈ (w.stores.map (board r)).head?, first = Board.fresh
  invoked_running : ∀ e ∈ w.log, ∀ t, e.call.mark r = some (.invoke t) →
    t ∈ d.names ∧ (board r e.store t).status = .running
  tallied : BudgetsOk d → ∀ t ∈ d.names,
    Ascending (tally r t w.log) (board r w.store t).attempts
  definition : ∀ {run : Run}, w.store.runs.get? r = some run →
    w.store.defs[WorkflowKey.mk run.tenant run.defName]? = some ⟨d⟩
  attempts_le : ∀ {run : Run}, w.store.runs.get? r = some run →
    run.attempts + 1 ≤ max d.retry.maxAttempts (a + 1)

namespace Sound

variable {r : RunId} {d : WorkflowDef} {a : ℕ} {w : World} {env : Env}

theorem ok_of_mem (h : Sound r d a w) {s : MemoryStore} (hs : s ∈ w.stores) :
    (board r s).Ok (boardRules d) := by
  refine Board.ok_of_isChain h.moves (fun first hfirst ↦ ?_) _ (List.mem_map_of_mem hs)
  rw [h.fresh first hfirst]
  exact Board.ok_fresh

/-- A handler was invoked no more often than its task's counter says. -/
theorem invoked_le (h : Sound r d a w) (hbudgets : BudgetsOk d) (ht : t ∈ d.names) :
    (trail r w.log).count (.invoke t) ≤ (board r w.store t).attempts := by
  rw [count_trail_eq_length_tally]
  exact (h.tallied hbudgets t ht).length_le

theorem ok (h : Sound r d a w) : (board r w.store).Ok (boardRules d) :=
  h.ok_of_mem (by simp [World.stores])

variable {call : Call}

/-- The chain of boards goes on with the board after a call. -/
theorem moves_after (h : Sound r d a w)
    (hadvances :
    (board r w.store).Advances (boardRules d) (board r (w.after env call).store)) :
    ((w.after env call).stores.map (board r)).IsChain (Board.Advances (boardRules d)) := by
  rw [World.stores_after, List.map_append, List.map_singleton]
  refine List.IsChain.append h.moves (List.isChain_singleton _) ?_
  intro last hlast next hnext
  obtain rfl : board r w.store = last := by simpa [World.stores] using hlast
  obtain rfl : board r (w.after env call).store = next := by simpa using hnext
  exact hadvances

/-- The last call advanced the board. -/
theorem advances (h : Sound r d a (w.after env call)) :
    Board.Advances (boardRules d) (board r w.store) (board r (w.after env call).store) := by
  have hmoves := h.moves
  rw [World.stores_after, World.stores] at hmoves
  simp only [List.map_append, List.map_cons, List.map_nil] at hmoves
  exact (List.isChain_append.mp hmoves).2.2 _ (by simp) _ (by simp)

theorem fresh_after (h : Sound r d a w) (call : Call) :
    ∀ first ∈ ((w.after env call).stores.map (board r)).head?, first = Board.fresh := by
  intro first hfirst
  refine h.fresh first ?_
  rw [World.stores_after, List.map_append, List.head?_append_of_ne_nil] at hfirst
  · exact hfirst
  · simp [World.stores]

/-- A call that leaves the records alone keeps the invariant. If it invokes a handler of the run,
the task must be running, and its counter be ahead of its invocations. -/
theorem after_of_same (h : Sound r d a w) (hsame : SameRecords w.store (w.after env call).store)
    (hinvoke : ∀ t, call.mark r = some (.invoke t) → t ∈ d.names ∧
      (board r w.store t).status = .running ∧
      (BudgetsOk d → ∀ n ∈ 0 :: tally r t w.log, n < (board r w.store t).attempts)) :
    Sound r d a (w.after env call) where
  filed := hsame.filed h.filed
  moves := h.moves_after (.inl (hsame.board_eq r))
  fresh := h.fresh_after call
  invoked_running := by
    intro e he t ht
    simp only [World.after, List.mem_append, List.mem_singleton] at he
    rcases he with he | rfl
    · exact h.invoked_running e he t ht
    · exact ⟨(hinvoke t ht).1, (hinvoke t ht).2.1⟩
  tallied := by
    intro hbudgets t ht
    have htallied := h.tallied hbudgets t ht
    rw [hsame.board_eq r]
    by_cases hmark : call.mark r = some (.invoke t)
    · rw [tally_after_of_eq env w hmark]
      exact htallied.append ((hinvoke t hmark).2.2 hbudgets)
    · rw [tally_after_of_ne env w hmark]
      exact htallied
  definition := by
    intro run hrun
    rw [hsame.defs]
    exact h.definition (by rwa [hsame.runs] at hrun)
  attempts_le := by
    intro run hrun
    exact h.attempts_le (by rwa [hsame.runs] at hrun)

/-- Writing a task run of the run is a move of the board. -/
theorem after_putTaskRun (h : Sound r d a w) (hid : tr.id = taskRunId r t) (hrun : tr.runId = r)
    (hname : tr.taskName = t) (ht : t ∈ d.names)
    (hmove : (board r w.store).Move (boardRules d)
      (Function.update (board r w.store) t ⟨tr.status, tr.attempts⟩))
    (hattempts : BudgetsOk d → (board r w.store t).attempts ≤ tr.attempts) :
    Sound r d a (w.after env (.store (.putTaskRun tr))) where
  filed := h.filed.put hid hrun hname ht
  moves := h.moves_after (.inr (board_put hid ▸ hmove))
  fresh := h.fresh_after _
  invoked_running := by
    intro e he other hother
    simp only [World.after, List.mem_append, List.mem_singleton] at he
    rcases he with he | rfl
    · exact h.invoked_running e he other hother
    · cases hother
  tallied := by
    intro hbudgets other hother
    have htallied := h.tallied hbudgets other hother
    rw [tally_after_of_ne env w (by simp [Call.mark])]
    refine htallied.mono ?_
    change _ ≤ (board r (w.store.putTaskRun tr).2 other).attempts
    rw [board_put hid]
    by_cases heq : other = t
    · subst heq
      simpa using hattempts hbudgets
    · simp [Function.update_of_ne heq]
  definition := h.definition
  attempts_le := h.attempts_le

/-- A call that leaves the task runs alone and invokes no handler of the run keeps the invariant if
the run's own record stays within it. -/
theorem after_of_taskRuns (h : Sound r d a w) (hinvoke : ∀ t, call.mark r ≠ some (.invoke t))
    (htasks : (w.after env call).store.taskRuns = w.store.taskRuns)
    (hrun : ∀ {run : Run}, (w.after env call).store.runs.get? r = some run →
      (w.after env call).store.defs[WorkflowKey.mk run.tenant run.defName]? = some ⟨d⟩ ∧
        run.attempts + 1 ≤ max d.retry.maxAttempts (a + 1)) : Sound r d a (w.after env call) := by
  have hboard : board r (w.after env call).store = board r w.store :=
    board_of_get? fun _ ↦ by rw [htasks]
  refine ⟨?_, h.moves_after (.inl hboard), h.fresh_after call, ?_, ?_, fun hr ↦ (hrun hr).1,
    fun hr ↦ (hrun hr).2⟩
  · refine ⟨?_, ?_⟩ <;> rw [htasks]
    · exact h.filed.owner
    · exact h.filed.named
  · intro e he t ht
    simp only [World.after, List.mem_append, List.mem_singleton] at he
    rcases he with he | rfl
    · exact h.invoked_running e he t ht
    · exact absurd ht (hinvoke t)
  · intro hbudgets t ht
    rw [tally_after_of_ne env w (hinvoke t), hboard]
    exact h.tallied hbudgets t ht

/-- Writing the run's own record. -/
theorem after_putRun (h : Sound r d a w) {run : Run} (hid : run.id = r)
    (hdef : w.store.defs[WorkflowKey.mk run.tenant run.defName]? = some ⟨d⟩)
    (hattempts : run.attempts + 1 ≤ max d.retry.maxAttempts (a + 1)) :
    Sound r d a (w.after env (.store (.putRun run))) := by
  refine h.after_of_taskRuns (by simp [Call.mark]) rfl fun {run'} hrun' ↦ ?_
  obtain rfl : run = run' := by
    simpa [World.after, Env.answer, StoreCall.apply, MemoryStore.putRun, KeyedMap.get?_put, hid]
      using hrun'
  exact ⟨hdef, hattempts⟩

end Sound

/-! ### Rules for single calls -/

/-- Between two worlds the run record and the definitions are untouched, the task runs outside `ts`
are too, and the trail of the run grew by `marks`. -/
structure Touched (r : RunId) (ts : List String) (marks : List Mark) (w w' : World) : Prop where
  runs : w'.store.runs = w.store.runs
  defs : w'.store.defs = w.store.defs
  task : ∀ t ∉ ts, storedTask w'.store r t = storedTask w.store r t
  trail_eq : trail r w'.log = trail r w.log ++ marks
  tally_eq : ∀ t, .invoke t ∉ marks → tally r t w'.log = tally r t w.log

theorem Touched.refl (r : RunId) (w : World) : Touched r [] [] w w :=
  ⟨rfl, rfl, fun _ _ ↦ rfl, (List.append_nil _).symm, fun _ _ ↦ rfl⟩

theorem Touched.trans {r : RunId} {ts ts' : List String} {marks' : List Mark} {w w' w'' : World}
    (h : Touched r ts marks w w') (h' : Touched r ts' marks' w' w'') :
    Touched r (ts ++ ts') (marks ++ marks') w w'' where
  runs := h'.runs.trans h.runs
  defs := h'.defs.trans h.defs
  task t ht := by
    rw [List.mem_append, not_or] at ht
    exact (h'.task t ht.2).trans (h.task t ht.1)
  trail_eq := by rw [h'.trail_eq, h.trail_eq, List.append_assoc]
  tally_eq t ht := by
    rw [List.mem_append, not_or] at ht
    exact (h'.tally_eq t ht.2).trans (h.tally_eq t ht.1)

theorem Touched.mono {r : RunId} {ts ts' : List String} {w w' : World}
    (h : Touched r ts marks w w') (hsub : ts ⊆ ts') : Touched r ts' marks w w' :=
  ⟨h.runs, h.defs, fun t ht ↦ h.task t fun hmem ↦ ht (hsub hmem), h.trail_eq, h.tally_eq⟩

theorem Touched.board_eq {r : RunId} {w w' : World} (h : Touched r [] marks w w') :
    board r w'.store = board r w.store := by
  funext t
  simp [board, h.task t List.not_mem_nil]

theorem touched_of_same {r : RunId} {env : Env} {w : World} {call : Call}
    (h : SameRecords w.store (w.after env call).store) :
    Touched r [] (call.mark r).toList w (w.after env call) :=
  ⟨h.runs, h.defs, fun t _ ↦ h.storedTask_eq r t, trail_after env r w call,
    fun _ ht ↦ tally_after_of_ne env w (by simpa using ht)⟩

section Rules

variable {r : RunId} {d : WorkflowDef} {a : ℕ} {w : World} {env : Env} {ε : Type}

/-- A call that leaves the records alone and the trail too. -/
theorem Sound.silent (hw : Sound r d a w) (env : Env) (call : Call) (hcall : call.LeavesRecords)
    (hmark : call.mark r = none) :
    Sound r d a (w.after env call) ∧ Touched r [] [] w (w.after env call) := by
  have hsame := sameRecords_after env w call hcall
  have htouched := touched_of_same (r := r) hsame
  rw [hmark] at htouched
  exact ⟨hw.after_of_same hsame (by simp [hmark]), htouched⟩

/-- The look at the run record. -/
theorem Sound.check (hw : Sound r d a w) (env : Env) :
    Sound r d a (w.after env (.store (.getRun r))) ∧
      Touched r [] [.check] w (w.after env (.store (.getRun r))) := by
  have hsame := sameRecords_after env w (.store (.getRun r)) trivial
  have htouched := touched_of_same (r := r) hsame
  have hmark : Call.mark r (.store (.getRun r)) = some .check := by simp [Call.mark]
  rw [hmark] at htouched
  exact ⟨hw.after_of_same hsame (by simp [hmark]), htouched⟩

/-- The task is running, and its counter is ahead of its invocations. -/
def Ahead (r : RunId) (d : WorkflowDef) (t : String) (w : World) : Prop :=
  (board r w.store t).status = .running ∧
    (BudgetsOk d → ∀ n ∈ 0 :: tally r t w.log, n < (board r w.store t).attempts)

/-- The invocation of a handler of the run. -/
theorem Sound.execute (hw : Sound r d a w) (env : Env) (handler : HandlerId) {ctx : TaskContext}
    (hrun : ctx.runId = r) (hname : ctx.taskName ∈ d.names) (hahead : Ahead r d ctx.taskName w) :
    Sound r d a (w.after env (.execute handler ctx)) ∧
      Touched r [] [.invoke ctx.taskName] w (w.after env (.execute handler ctx)) := by
  have hsame := sameRecords_after env w (.execute handler ctx) trivial
  have htouched := touched_of_same (r := r) hsame
  have hmark : Call.mark r (.execute handler ctx) = some (.invoke ctx.taskName) := by
    simp [Call.mark, hrun]
  rw [hmark] at htouched
  refine ⟨hw.after_of_same hsame fun t ht ↦ ?_, htouched⟩
  obtain rfl : ctx.taskName = t := by simpa [hmark] using ht
  exact ⟨hname, hahead⟩

theorem touched_putTaskRun (env : Env) (w : World) (hid : tr.id = taskRunId r t) :
    Touched r [t] [] w (w.after env (.store (.putTaskRun tr))) where
  runs := rfl
  defs := rfl
  task other hother := (storedTask_put hid other).trans (if_neg (by simpa using hother))
  trail_eq := trail_after env r w (.store (.putTaskRun tr))
  tally_eq _ _ := tally_after_of_ne env w (by simp [Call.mark])

/-- In a budget that is valid the counter does not wrap. -/
theorem u32Succ_attempts (hw : Sound r d a w) (hbudgets : BudgetsOk d) (ht : t ∈ d.names) :
    u32Succ (board r w.store t).attempts = (board r w.store t).attempts + 1 := by
  have hle := hw.ok.attempts_le t
  have hbudget := hbudgets t ht
  simp only [boardRules] at hle
  unfold maxAttemptsLimit at hbudget
  exact u32Succ_of_lt (by omega)

/-- The decision is persisted: the run has a new status and counter, and all else is untouched. -/
structure Decided (r : RunId) (status : RunStatus) (attempts : ℕ) (w w' : World) : Prop where
  board_eq : board r w'.store = board r w.store
  trail_eq : trail r w'.log = trail r w.log
  run : ∃ run, w'.store.runs.get? r = some run ∧ run.status = status ∧ run.attempts = attempts

theorem Touched.decided {w₀ : World} (h₀ : Touched r [] [] w₀ w) (env : Env) (run : Run)
    (hid : run.id = r) :
    Decided r run.status run.attempts w₀ (w.after env (.store (.putRun run))) where
  board_eq := h₀.board_eq
  trail_eq := by
    rw [trail_after, h₀.trail_eq]
    simp [Call.mark]
  run := ⟨run, (KeyedMap.get?_put ..).trans (if_pos hid), rfl, rfl⟩

variable {fail : Abort ε → World → Prop}

/-- A call of the store, then the rest. -/
theorem wp_onStore_bind {α : Type} (call : StoreCall) (rest : call.Answer → Prog ε α)
    {mid : World → Prop} {post : α → World → Prop} :
    wp (serve env) mid post fail (onStore call >>= rest) w ↔ mid w ∧
      wp (serve env) mid post fail (rest (call.apply (env.order w.log) w.store).1)
        (w.after env (.store call)) := Iff.rfl

theorem wp_silent (call : Call) {post : call.Answer → World → Prop} (hcall : call.LeavesRecords)
    (hmark : call.mark r = none) (hw : Sound r d a w)
    (h : ∀ w', Sound r d a w' → Touched r [] [] w w' → post (env.answer w call).1 w') :
    wp (serve env) (Sound r d a) post fail (ask call) w :=
  have hafter := hw.silent env call hcall hmark
  ⟨hw, h _ hafter.1 hafter.2⟩

theorem wp_check {post : Except StorageError Run → World → Prop} (hw : Sound r d a w)
    (h : ∀ w', Sound r d a w' → Touched r [] [.check] w w' → post (w.store.getRun r) w') :
    wp (serve env) (Sound r d a) post fail (onStore (.getRun r)) w :=
  ⟨hw, h _ (hw.check env).1 (hw.check env).2⟩

end Rules

end Runvane.Scheduler
