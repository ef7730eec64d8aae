import Runvane.Scheduler.FirstAttempt

/-!
# Reads that fail

A store that is the in-memory one, except that single reads of task runs may fail (`Faults`). The
executor does not stop at such a failure: a record that it could not read counts as one that does
not exist, and a list as an empty one. So a task that had succeeded is run again after the list of
task runs could not be read, and a counter starts again from zero after a record could not be
(`repeated_after_fault`).

What the executor needs is that a failure hides nothing it would have to take up: the list fails
only while no task of the run has succeeded, and a record only while its counter is zero
(`Sparing`). Then, in every history, a success is final and the counters do not fall
(`survives_faults`), as long as no counter is about to overflow. The invariant is `Steady`; the
functions of the executor are specified once more under it, since under faults the statuses that an
attempt keeps are no longer those in the store. All that is left of that is `Covers`: what is stored
as succeeded is known to be so.
-/

set_option autoImplicit false

namespace Runvane.Scheduler.Flaky

open Library Domain Persistence Retry Prog
open CallProgram (wp Reaches)

/-! ### A store with faults -/

/-- Which reads of task runs fail, and how. It may depend on all that has happened. -/
structure Faults where
  getTaskRun : World → TaskRunId → Option StorageError
  listTaskRuns : World → RunId → Option StorageError

def Faults.answer (faults : Faults) (env : Env) (w : World) : (call : Call) → call.Answer
  | .store (.getTaskRun id) => (faults.getTaskRun w id).elim (w.store.getTaskRun id) .error
  | .store (.listTaskRunsForRun runId) =>
    (faults.listTaskRuns w runId).elim (w.store.listTaskRunsForRun runId) .error
  | call => (env.answer w call).1

def recorded (env : Env) (w : World) (call : Call) (answer : call.Answer) : World where
  store := (env.answer w call).2
  log := w.log ++ [⟨w.store, call, answer⟩]

def serveFaulty (env : Env) (faults : Faults) : Server Call Call.Answer World :=
  fun call w ↦ (faults.answer env w call, recorded env w call (faults.answer env w call))

inductive FaultyStep (env : Env) (faults : Faults) (r : RunId) : World → World → Prop
  | attempt (ex : RunExecutor) (token : Option ClaimToken) (leaseMs : ℤ) {w w' : World}
      {p : Prog ExecutorError AttemptOutcome}
      (h : Reaches (serveFaulty env faults) (attemptWithToken ex r token leaseMs, w) (p, w')) :
      FaultyStep env faults r w w'
  | dispatch {w w' : World} {p : Prog StorageError Unit}
      (h : Reaches (serveFaulty env faults) (markRunning r, w) (p, w')) :
      FaultyStep env faults r w w'
  | cancel (nowMs : ℤ) (w : World) :
      FaultyStep env faults r w (serveFaulty env faults (.store (.cancelRun r nowMs)) w).2
  | other {w : World} {s : MemoryStore} (h : Undisturbed r w.store s) :
      FaultyStep env faults r w ⟨s, w.log⟩

def FaultyHistory (env : Env) (faults : Faults) (r : RunId) : World → World → Prop :=
  Relation.ReflTransGen (FaultyStep env faults r)

/-- The list of task runs fails only while no task of the run is stored as succeeded, and the read
of a task run only while its counter is zero. -/
structure Sparing (faults : Faults) (r : RunId) : Prop where
  list : ∀ w e, faults.listTaskRuns w r = some e → ∀ t, ¬ HasStatus w.store r t .succeeded
  get : ∀ w t e tr, faults.getTaskRun w (taskRunId r t) = some e →
    w.store.getTaskRun (taskRunId r t) = .ok tr → tr.attempts = 0

/-! ### The invariant -/

/-- From one board to the next no success is lost, and no counter falls that can be raised. -/
def Climbs (b b' : Board String) : Prop :=
  ∀ t, ((b t).status = .succeeded → (b' t).status = .succeeded) ∧
    ((b t).attempts < 2 ^ 32 - 1 → (b t).attempts ≤ (b' t).attempts)

theorem Climbs.refl (b : Board String) : Climbs b b := fun _ ↦ ⟨fun h ↦ h, fun _ ↦ le_rfl⟩

/-- A task that has not succeeded is given another status, and a counter that is no lower. -/
theorem climbs_update {b : Board String} {t : String} {cell : Cell}
    (hopen : (b t).status ≠ .succeeded)
    (hattempts : (b t).attempts < 2 ^ 32 - 1 → (b t).attempts ≤ cell.attempts) :
    Climbs b (Function.update b t cell) := by
  intro other
  by_cases hother : other = t
  · subst hother
    rw [Function.update_self]
    exact ⟨fun h ↦ absurd h hopen, hattempts⟩
  · rw [Function.update_of_ne hother]
    exact Climbs.refl b other

/-- The invariant of a run whose definition `d` is stored under `key`. -/
structure Steady (r : RunId) (key : WorkflowKey) (d : WorkflowDef) (w : World) : Prop where
  filed : TasksFiled w.store r d
  run : ∃ run, w.store.runs.get? r = some run ∧ WorkflowKey.mk run.tenant run.defName = key
  definition : w.store.defs[key]? = some ⟨d⟩
  climbs : (w.stores.map (board r)).IsChain Climbs
  invoked : ∀ e ∈ w.log, ∀ t, e.call.mark r = some (.invoke t) →
    (board r e.store t).status ≠ .succeeded

section Steady

variable {r : RunId} {key : WorkflowKey} {d : WorkflowDef} {w : World} {env : Env} {call : Call}
  {answer : call.Answer}

theorem Steady.climbs_recorded (h : Steady r key d w)
    (hclimbs : Climbs (board r w.store) (board r (recorded env w call answer).store)) :
    ((recorded env w call answer).stores.map (board r)).IsChain Climbs := by
  have hstores : (recorded env w call answer).stores =
      w.stores ++ [(recorded env w call answer).store] := by
    simp [World.stores, recorded]
  rw [hstores, List.map_append, List.map_singleton]
  refine List.IsChain.append h.climbs (List.isChain_singleton _) ?_
  intro last hlast next hnext
  obtain rfl : board r w.store = last := by simpa [World.stores] using hlast
  obtain rfl : board r (recorded env w call answer).store = next := by simpa using hnext
  exact hclimbs

theorem Steady.invoked_recorded (h : Steady r key d w)
    (hinvoke : ∀ t, call.mark r = some (.invoke t) → (board r w.store t).status ≠ .succeeded) :
    ∀ e ∈ (recorded env w call answer).log, ∀ t, e.call.mark r = some (.invoke t) →
      (board r e.store t).status ≠ .succeeded := by
  intro e he t ht
  rcases List.mem_append.mp he with hold | hnew
  · exact h.invoked e hold t ht
  · obtain rfl := List.mem_singleton.mp hnew
    exact hinvoke t ht

/-- A call that leaves the records alone. -/
theorem Steady.recorded_same (h : Steady r key d w) (hcall : call.LeavesRecords)
    (hinvoke : ∀ t, call.mark r = some (.invoke t) → (board r w.store t).status ≠ .succeeded) :
    Steady r key d (recorded env w call answer) := by
  have hsame : SameRecords w.store (recorded env w call answer).store :=
    sameRecords_after env w call hcall
  refine ⟨hsame.filed h.filed, ?_, ?_, h.climbs_recorded ?_, h.invoked_recorded hinvoke⟩
  · rw [hsame.runs]
    exact h.run
  · rw [hsame.defs]
    exact h.definition
  · rw [hsame.board_eq r]
    exact .refl _

/-- Writing a task run of a task that has not succeeded. -/
theorem Steady.recorded_putTaskRun (h : Steady r key d w) {t : String} {tr : TaskRun}
    {answer : (Call.store (.putTaskRun tr)).Answer} (hid : tr.id = taskRunId r t)
    (hrun : tr.runId = r) (hname : tr.taskName = t) (ht : t ∈ d.names)
    (hopen : (board r w.store t).status ≠ .succeeded)
    (hattempts : (board r w.store t).attempts < 2 ^ 32 - 1 →
      (board r w.store t).attempts ≤ tr.attempts) :
    Steady r key d (recorded env w (.store (.putTaskRun tr)) answer) where
  filed := h.filed.put hid hrun hname ht
  run := h.run
  definition := h.definition
  climbs := by
    refine h.climbs_recorded ?_
    change Climbs _ (board r (w.store.putTaskRun tr).2)
    rw [board_put hid]
    exact climbs_update hopen hattempts
  invoked := h.invoked_recorded (by simp [Call.mark])

/-- Writing the run itself. -/
theorem Steady.recorded_putRun (h : Steady r key d w) {run : Run}
    {answer : (Call.store (.putRun run)).Answer} (hid : run.id = r)
    (hkey : WorkflowKey.mk run.tenant run.defName = key) :
    Steady r key d (recorded env w (.store (.putRun run)) answer) where
  filed := ⟨h.filed.owner, h.filed.named⟩
  run := ⟨run, by
    change (w.store.runs.put run).get? r = some run
    rw [KeyedMap.get?_put, if_pos hid], hkey⟩
  definition := h.definition
  climbs := h.climbs_recorded (.refl _)
  invoked := h.invoked_recorded (by simp [Call.mark])

end Steady

/-! ### Single calls -/

/-- A record that was loaded for a task: its own one, or a new one in its place. Either way it has
the counter that is stored. -/
structure LoadedFrom (r : RunId) (t : String) (s : MemoryStore) (tr : TaskRun) : Prop where
  id : tr.id = taskRunId r t
  runId : tr.runId = r
  taskName : tr.taskName = t
  attempts : tr.attempts = (board r s t).attempts

/-- The answers of a store with sparing faults that has the records of `s`. -/
def Spared (r : RunId) (s : MemoryStore) : (call : Call) → call.Answer → Prop
  | .store (.getTaskRun id), answer =>
    ∀ t, id = taskRunId r t → LoadedFrom r t s (recordOf r t answer)
  | _, _ => True

/-- The program meets its postcondition on a store with faults, and the invariant holds before each
of its calls and where it leaves early. -/
def Steadily (env : Env) (faults : Faults) (r : RunId) (key : WorkflowKey) (d : WorkflowDef)
    {ε α : Type} (post : α → World → Prop) (p : Prog ε α) (w : World) : Prop :=
  wp (serveFaulty env faults) (Steady r key d) post (fun _ ↦ Steady r key d) p w

section Rules

variable {r : RunId} {key : WorkflowKey} {d : WorkflowDef} {w : World} {env : Env}
  {faults : Faults} {ε α : Type}

theorem wp_bind {β : Type} {post : β → World → Prop} (p : Prog ε α) (rest : α → Prog ε β) :
    Steadily env faults r key d post (p >>= rest) w ↔
      Steadily env faults r key d
        (fun value w' ↦ Steadily env faults r key d post (rest value) w') p w :=
  CallProgram.wp_bind p rest w

theorem loadedFrom_storedTask (hw : Steady r key d w) (t : String) :
    LoadedFrom r t w.store (storedTask w.store r t) :=
  ⟨storedTask_id .., (hw.filed.storedTask_owner t).1, (hw.filed.storedTask_owner t).2, rfl⟩

/-- A record that could not be read has counter zero, as the one has that takes its place. -/
theorem loadedFrom_new (hsparing : Sparing faults r) {t : String} {e : StorageError}
    (hfault : faults.getTaskRun w (taskRunId r t) = some e) :
    LoadedFrom r t w.store { id := taskRunId r t, runId := r, taskName := t } := by
  refine ⟨rfl, rfl, rfl, ?_⟩
  unfold board storedTask
  cases hget : w.store.taskRuns.get? (taskRunId r t) with
  | none => rfl
  | some tr => exact (hsparing.get w t e tr hfault (MemoryStore.getTaskRun_eq_ok.mpr hget)).symm

theorem spared_answer (hsparing : Sparing faults r) (hw : Steady r key d w) {s : MemoryStore}
    (hsame : SameRecords s w.store) (call : Call) : Spared r s call (faults.answer env w call) := by
  cases call with
  | store call =>
    cases call with
    | getTaskRun id =>
      rintro t rfl
      suffices hloaded : LoadedFrom r t w.store (recordOf r t
          (faults.answer env w (.store (.getTaskRun (taskRunId r t))))) from
        ⟨hloaded.id, hloaded.runId, hloaded.taskName, by rw [hloaded.attempts, hsame.board_eq]⟩
      have hstored := loadedFrom_storedTask hw t
      unfold storedTask at hstored
      simp only [Faults.answer]
      cases hfault : faults.getTaskRun w (taskRunId r t) with
      | some e => exact loadedFrom_new hsparing hfault
      | none =>
        simp only [Option.elim_none, MemoryStore.getTaskRun]
        cases hget : w.store.taskRuns.get? (taskRunId r t) <;> simpa [hget, recordOf] using hstored
    | _ => trivial
  | _ => trivial

theorem counts_spared (r : RunId) (s : MemoryStore) : Counts (Spared r s) r s :=
  fun t _ hanswer ↦ (hanswer t rfl).attempts

variable (hw : Steady r key d w)
include hw

/-- A call that leaves the records alone. -/
theorem wp_same (call : Call) {post : call.Answer → World → Prop} (hcall : call.LeavesRecords)
    (hinvoke : ∀ t, call.mark r = some (.invoke t) → (board r w.store t).status ≠ .succeeded)
    (h : ∀ w', Steady r key d w' → SameRecords w.store w'.store →
      post (faults.answer env w call) w') :
    Steadily env faults r key d post (ask call : Prog ε _) w :=
  ⟨hw, h _ (hw.recorded_same hcall hinvoke) (sameRecords_after env w call hcall)⟩

/-- The run itself can be read. -/
theorem wp_getRun {run : Run} {post : Except StorageError Run → World → Prop}
    (hrun : w.store.runs.get? r = some run) (h : ∀ w', Steady r key d w' → post (.ok run) w') :
    Steadily env faults r key d post (onStore (.getRun r) : Prog ε _) w := by
  have hread : faults.answer env w (.store (.getRun r)) = .ok run :=
    MemoryStore.getRun_eq_ok.mpr hrun
  refine wp_same hw (.store (.getRun r)) trivial (by simp [Call.mark]) fun w' hw' _ ↦ ?_
  rw [hread]
  exact h w' hw'

theorem wp_storeTaskRun {t : String} {tr : TaskRun} {post : Unit → World → Prop}
    (hid : tr.id = taskRunId r t) (hrun : tr.runId = r) (hname : tr.taskName = t)
    (ht : t ∈ d.names) (hopen : (board r w.store t).status ≠ .succeeded)
    (hattempts : (board r w.store t).attempts < 2 ^ 32 - 1 →
      (board r w.store t).attempts ≤ tr.attempts)
    (h : ∀ w', Steady r key d w' → board r w'.store =
      Function.update (board r w.store) t ⟨tr.status, tr.attempts⟩ → post () w') :
    Steadily env faults r key d post (storeTaskRun tr) w :=
  ⟨hw, h _ (hw.recorded_putTaskRun hid hrun hname ht hopen hattempts) (board_put hid)⟩

variable (hsparing : Sparing faults r)
include hsparing

/-- A part of a program that only reads. -/
theorem wp_reads {allowed : Call → Prop} {part : Prog ε α} {result : α → Prop}
    {post : α → World → Prop} (hpart : part.Returns (Spared r w.store) allowed result)
    (hsilent : ∀ {call}, allowed call → call.LeavesRecords ∧ call.mark r = none)
    (h : ∀ value w', result value → Steady r key d w' → SameRecords w.store w'.store →
      post value w') : Steadily env faults r key d post part w := by
  let near (w' : World) : Prop := Steady r key d w' ∧ SameRecords w.store w'.store
  have hnear : near w := ⟨hw, rfl, rfl, rfl⟩
  refine hpart.wp ?_ (fun _ hnear ↦ hnear.1)
    (fun value w' hvalue hnear ↦ h value w' hvalue hnear.1 hnear.2) (fun _ _ h _ ↦ h.elim) hnear
  rintro call w' ⟨hw', h'⟩ hcall
  obtain ⟨hrecords, hmark⟩ := hsilent hcall
  exact ⟨spared_answer hsparing hw' h' call, hw'.recorded_same hrecords (by simp [hmark]),
    h'.trans (sameRecords_after env w' call hrecords)⟩

theorem wp_loadTask {t : String} {post : TaskRun → World → Prop}
    (h : ∀ tr w', Steady r key d w' → SameRecords w.store w'.store → LoadedFrom r t w.store tr →
      post tr w') : Steadily env faults r key d post (loadTask r t : Prog ε _) w := by
  refine wp_reads hw hsparing (returns_loadTask r t) ReadCall.silent ?_
  rintro tr w' ⟨answer, hanswer, rfl⟩ hw' hsame
  exact h _ w' hw' hsame (hanswer t rfl)

end Rules

/-! ### Tasks -/

/-- The statuses that an attempt keeps are of tasks of the definition, and what is stored as
succeeded is among them as such. -/
structure Covers (r : RunId) (d : WorkflowDef) (states : StatusMap) (s : MemoryStore) : Prop where
  names : ∀ t ∈ states, t ∈ d.names
  succeeded : ∀ t, (board r s t).status = .succeeded → states[t]? = some .succeeded

structure RanTask (r : RunId) (d : WorkflowDef) (t : String) (states states' : StatusMap)
    (s' : MemoryStore) : Prop where
  covers : Covers r d states' s'
  others : ∀ other, other ≠ t → states'[other]? = states[other]?

section Tasks

variable {r : RunId} {key : WorkflowKey} {d : WorkflowDef} {w : World} {env : Env}
  {faults : Faults} {t : String} {states : StatusMap} {s s' : MemoryStore}

theorem Covers.of_same (h : Covers r d states s) (hsame : SameRecords s s') :
    Covers r d states s' :=
  ⟨h.names, by
    rw [hsame.board_eq r]
    exact h.succeeded⟩

/-- The attempt learns what a task was settled as. -/
theorem Covers.insert {cell : Cell} (h : Covers r d states s) (ht : t ∈ d.names)
    (hboard : board r s' = Function.update (board r s) t cell) :
    Covers r d (states.insert t cell.status) s' where
  names other hother := by
    rw [Std.ExtTreeMap.mem_insert, Std.compare_eq_iff_eq] at hother
    rcases hother with rfl | hother
    · exact ht
    · exact h.names other hother
  succeeded other hother := by
    rw [Std.ExtTreeMap.getElem?_insert]
    simp only [Std.compare_eq_iff_eq]
    rw [hboard] at hother
    split_ifs with heq
    · subst heq
      rw [Function.update_self] at hother
      rw [hother]
    · rw [Function.update_of_ne (Ne.symm heq)] at hother
      exact h.succeeded other hother

theorem ranTask_of_settled {first last : Cell} (hcovers : Covers r d states s) (ht : t ∈ d.names)
    (hboard : board r s' = Function.update (Function.update (board r s) t first) t last) :
    RanTask r d t states ((states.insert t .running).insert t last.status) s' := by
  have hstates : (states.insert t .running).insert t last.status =
      states.insert t last.status := by
    refine Std.ExtTreeMap.ext_getElem? fun {other} ↦ ?_
    simp only [Std.ExtTreeMap.getElem?_insert]
    split_ifs <;> rfl
  rw [Function.update_idem] at hboard
  rw [hstates]
  refine ⟨hcovers.insert ht hboard, fun other hother ↦ ?_⟩
  simp [Std.ExtTreeMap.getElem?_insert, Ne.symm hother]

section Programs

variable (hw : Steady r key d w)
include hw

theorem wp_runHandler {handler : HandlerId} {ctx : TaskContext}
    {post : Except HandlerError HandlerResult → World → Prop} (hname : ctx.taskName = t)
    (hopen : (board r w.store t).status ≠ .succeeded)
    (h : ∀ answer w', Steady r key d w' → SameRecords w.store w'.store → post answer w') :
    Steadily env faults r key d post (runHandler handler t ctx : Prog ExecutorError _) w := by
  unfold runHandler
  rw [wp_bind]
  refine wp_same hw (.registryGet handler) trivial nofun fun w₁ hw₁ h₁ ↦ ?_
  split_ifs
  · unfold execute
    rw [wp_bind]
    refine wp_same hw₁ (.execute handler ctx) trivial (fun other hother ↦ ?_) fun w₂ hw₂ h₂ ↦ ?_
    · obtain rfl : t = other := by
        simp only [Call.mark] at hother
        split_ifs at hother
        simpa [hname] using hother
      rwa [h₁.board_eq]
    · split
      · exact h _ w₂ hw₂ (h₁.trans h₂)
      · exact hw₂
  · exact h _ w₁ hw₁ h₁

variable (hsparing : Sparing faults r)
include hsparing

theorem wp_settleTask {target : TaskStatus} {label : String} {record : TaskRun → TaskRun}
    {post : Unit → World → Prop} (ht : t ∈ d.names)
    (hopen : (board r w.store t).status ≠ .succeeded)
    (hrecord : ∀ tr, (record tr).id = tr.id ∧ (record tr).runId = tr.runId ∧
      (record tr).taskName = tr.taskName ∧ (record tr).status = tr.status ∧
      (record tr).attempts = tr.attempts)
    (h : ∀ w' attempts, Steady r key d w' → board r w'.store =
      Function.update (board r w.store) t ⟨target, attempts⟩ → post () w') :
    Steadily env faults r key d post (settleTask r t target label record) w := by
  unfold settleTask
  rw [wp_bind]
  refine wp_loadTask hw hsparing fun tr w₁ hw₁ h₁ hloaded ↦ ?_
  split_ifs
  · exact hw₁
  · rw [wp_bind]
    refine wp_same hw₁ .nowMs trivial nofun fun w₂ hw₂ h₂ ↦ ?_
    have hboard : board r w₂.store = board r w.store := (h₂.board_eq r).trans (h₁.board_eq r)
    obtain ⟨hid, hrun, hname, hstatus, hattempts⟩ := hrecord
      { tr with status := target, finishedAtMs := some (faults.answer env w₁ .nowMs) }
    refine wp_storeTaskRun hw₂ (hid.trans hloaded.id) (hrun.trans hloaded.runId)
      (hname.trans hloaded.taskName) ht (by rwa [hboard]) ?_ fun w₃ hw₃ hend ↦ ?_
    · rw [hboard, hattempts]
      exact fun _ ↦ hloaded.attempts.ge
    · rw [hstatus, hattempts, hboard] at hend
      exact h w₃ _ hw₃ hend

end Programs

variable {run : Run} {token : Option ClaimToken} {leaseMs : ℤ}

theorem wp_runTask {post : StatusMap → World → Prop} (hw : Steady run.id key d w)
    (hsparing : Sparing faults run.id) (hcovers : Covers run.id d states w.store)
    (hopen : states[t]? ≠ some .succeeded)
    (h : ∀ states' w', Steady run.id key d w' → RanTask run.id d t states states' w'.store →
      post states' w') :
    Steadily env faults run.id key d post (runTask run d token leaseMs states t) w := by
  unfold runTask
  cases hfind : d.tasks.find? (·.name = t) with
  | none => exact hw
  | some task =>
    have htask : task ∈ d.tasks := List.mem_of_find?_eq_some hfind
    have ht : t ∈ d.names := List.mem_map.mpr ⟨task, htask, by simpa using List.find?_some hfind⟩
    have hstored : (board run.id w.store t).status ≠ .succeeded :=
      fun hdone ↦ hopen (hcovers.succeeded t hdone)
    simp only [wp_bind]
    refine wp_reads hw hsparing (returns_heartbeat ..) BeatCall.silent fun _ w₁ _ hw₁ h₁ ↦ ?_
    refine wp_loadTask hw₁ hsparing fun tr w₂ hw₂ h₂ hloaded ↦ ?_
    refine wp_same hw₂ .nowMs trivial nofun fun w₃ hw₃ h₃ ↦ ?_
    have hboard₁ : board run.id w₁.store = board run.id w.store := h₁.board_eq _
    have hboard₃ : board run.id w₃.store = board run.id w.store :=
      (h₁.trans (h₂.trans h₃)).board_eq _
    refine wp_storeTaskRun hw₃ hloaded.id hloaded.runId hloaded.taskName ht (by rwa [hboard₃]) ?_
      fun w₄ hw₄ hboard₄ ↦ ?_
    · have hattempts : tr.attempts = (board run.id w₃.store t).attempts := by
        rw [hloaded.attempts, hboard₁, hboard₃]
      intro hlt
      rw [← hattempts] at hlt ⊢
      rw [u32Succ_of_lt (by omega)]
      exact Nat.le_succ _
    rw [hboard₃] at hboard₄
    have hstatus₄ : (board run.id w₄.store t).status ≠ .succeeded := by
      rw [hboard₄, Function.update_self]
      nofun
    refine wp_runHandler hw₄ rfl hstatus₄ fun answer w₅ hw₅ h₅ ↦ ?_
    have hboard₅ : board run.id w₅.store = board run.id w₄.store := h₅.board_eq _
    have hsettled (w' : World) (status : TaskStatus) (attempts : ℕ) (hw' : Steady run.id key d w')
        (hend : board run.id w'.store =
          Function.update (board run.id w₅.store) t ⟨status, attempts⟩) :
        post ((states.insert t .running).insert t status) w' := by
      rw [hboard₅, hboard₄] at hend
      exact h _ w' hw' (ranTask_of_settled hcovers ht hend)
    cases answer with
    | ok result =>
      rw [wp_bind]
      exact wp_settleTask hw₅ hsparing ht (by rwa [hboard₅]) (fun _ ↦ ⟨rfl, rfl, rfl, rfl, rfl⟩)
        fun w₆ attempts hw₆ hend ↦ hsettled w₆ _ attempts hw₆ hend
    | error e =>
      rw [wp_bind]
      exact wp_settleTask hw₅ hsparing ht (by rwa [hboard₅]) (fun _ ↦ ⟨rfl, rfl, rfl, rfl, rfl⟩)
        fun w₆ attempts hw₆ hend ↦ hsettled w₆ _ attempts hw₆ hend

end Tasks

/-! ### Waves -/

section Waves

variable {key : WorkflowKey} {d : WorkflowDef} {w : World} {env : Env} {faults : Faults}
  {run : Run} {token : Option ClaimToken} {leaseMs : ℤ}

/-- The picker does not offer a task that is known to have succeeded. -/
theorem not_succeeded_of_mem_readyTasks {states : StatusMap} {t : String}
    (h : t ∈ readyTasks d states) : states[t]? ≠ some .succeeded := by
  obtain ⟨task, -, hpicked, rfl⟩ := mem_readyTasks.mp h
  intro hdone
  simp [isPicked, StatusMap.statusOf, hdone] at hpicked

/-- Where a turn leaves the loop: the statuses that the attempt has by then. -/
def Turned (r : RunId) (d : WorkflowDef) (s : MemoryStore) : Progress ⊕ LoopExit → Prop
  | .inl p => Covers r d p.states s
  | .inr (.drained states) => Covers r d states s
  | .inr (.cancelled _) => True

variable (hsparing : Sparing faults run.id)
include hsparing

theorem wp_wave {p : Progress} {wave : List String} (hw : Steady run.id key d w)
    (hcovers : Covers run.id d p.states w.store) (hnodup : wave.Nodup)
    (hopen : ∀ t ∈ wave, p.states[t]? ≠ some .succeeded) :
    Steadily env faults run.id key d
      (fun p' w' ↦ Steady run.id key d w' ∧ Covers run.id d p'.states w'.store)
      (wave.foldlM (waveTask run d token leaseMs) p) w := by
  induction wave generalizing w p with
  | nil => exact ⟨hw, hcovers⟩
  | cons t wave ih =>
    obtain ⟨ht, hnodup⟩ := List.nodup_cons.mp hnodup
    obtain ⟨hfirst, hopen⟩ := List.forall_mem_cons.mp hopen
    rw [List.foldlM_cons, wp_bind]
    unfold waveTask
    rw [wp_bind]
    refine wp_runTask hw hsparing hcovers hfirst fun states' w₁ hw₁ hran ↦ ?_
    refine ih hw₁ hran.covers hnodup fun other hother ↦ ?_
    rw [hran.others other (fun heq ↦ ht (heq ▸ hother))]
    exact hopen other hother

variable (hnodup : d.names.Nodup)
include hnodup

theorem wp_turn {p : Progress} (hw : Steady run.id key d w)
    (hcovers : Covers run.id d p.states w.store) :
    Steadily env faults run.id key d
      (fun turned w' ↦ Steady run.id key d w' ∧ Turned run.id d w'.store turned)
      (turn run d token leaseMs p) w := by
  have hdispatch (w₁ : World) (hw₁ : Steady run.id key d w₁)
      (h₁ : SameRecords w.store w₁.store) :
      Steadily env faults run.id key d
        (fun turned w' ↦ Steady run.id key d w' ∧ Turned run.id d w'.store turned)
        (turn.dispatch run d token leaseMs p) w₁ := by
    unfold turn.dispatch
    rw [wp_bind]
    refine wp_reads hw₁ hsparing (counts_spared _ _).nextWave ReadCall.silent
      fun wave w₂ hread hw₂ h₂ ↦ ?_
    have hcovers₂ := hcovers.of_same (h₁.trans h₂)
    have hready : wave.Sublist (readyTasks d p.states) := hread ▸ List.filter_sublist
    split_ifs with hempty
    · exact ⟨hw₂, hcovers₂⟩
    · rw [wp_bind]
      exact wp_wave hsparing hw₂ hcovers₂ ((nodup_readyTasks hnodup _).sublist hready)
        fun t ht ↦ not_succeeded_of_mem_readyTasks (hready.subset ht)
  unfold turn
  rw [wp_bind]
  refine wp_same hw (.store (.getRun run.id)) trivial (by simp [Call.mark]) fun w₁ hw₁ h₁ ↦ ?_
  split
  · split_ifs
    · exact ⟨hw₁, trivial⟩
    · exact hdispatch w₁ hw₁ h₁
  · exact hdispatch w₁ hw₁ h₁

theorem wp_waves {states : StatusMap} (hw : Steady run.id key d w)
    (hcovers : Covers run.id d states w.store) :
    Steadily env faults run.id key d
      (fun loopExit w' ↦ Steady run.id key d w' ∧ Turned run.id d w'.store (.inr loopExit))
      (CallProgram.iterate .exhausted (turn run d token leaseMs) (d.tasks.length + 1)
        ⟨states, ∅⟩) w := by
  refine CallProgram.wp_iterate_of_fail
    (fun (p : Progress) w ↦ Steady run.id key d w ∧ Covers run.id d p.states w.store) ?_ ?_ _ _ w
    ⟨hw, hcovers⟩
  · rintro p w ⟨hw, hcovers⟩
    refine CallProgram.wp_mono (fun _ h ↦ h) (fun turned w' h ↦ ?_) (fun _ _ h ↦ h)
      (wp_turn hsparing hnodup hw hcovers)
    cases turned <;> exact h
  · exact fun _ _ h ↦ h.1

end Waves

/-! ### The rest of an attempt -/

section Attempt

variable {r : RunId} {key : WorkflowKey} {d : WorkflowDef} {w : World} {env : Env}
  {faults : Faults} {states : StatusMap}

/-- Statuses that are those on the board. -/
theorem covers_of_board {s : MemoryStore} (hfiled : TasksFiled s r d)
    (h : ∀ t : String, states[t]? = if t ∈ d.names then some (board r s t).status else none) :
    Covers r d states s where
  names t ht := by
    by_contra hother
    rw [Std.ExtTreeMap.mem_iff_isSome_getElem?, h t, if_neg hother] at ht
    cases ht
  succeeded t hdone := by
    obtain ⟨tr, htr, -⟩ := (hasStatus_iff (by simp)).mpr hdone
    rw [MemoryStore.getTaskRun_eq_ok] at htr
    have hid := KeyedMap.key_of_get? htr
    obtain ⟨hrun, hname⟩ := hfiled.owner htr
    rw [← hid] at htr
    have ht := (hfiled.named htr hrun).2
    rw [hname] at ht
    rw [h t, if_pos ht, hdone]

/-- Only tasks that are not known to have succeeded are skipped. -/
theorem blocked_of_skipped {t : String} (hskipped : (pendingToSkip d states)[t]? = some .skipped)
    (hbefore : states[t]? ≠ some .skipped) :
    t ∈ d.names ∧ states[t]? ≠ some .succeeded := by
  rw [skips_pendingToSkip d states t] at hskipped
  split_ifs at hskipped with hblocked
  · obtain ⟨hpending, task, htask, rfl, -⟩ := hblocked
    refine ⟨List.mem_map_of_mem htask, fun hdone ↦ ?_⟩
    simp [StatusMap.statusOf, hdone] at hpending
  · exact absurd hskipped hbefore

/-- Skipping a task hides no success. -/
theorem Covers.skip {s s' : MemoryStore} {t : String} {attempts : ℕ} (h : Covers r d states s)
    (hboard : board r s' = Function.update (board r s) t ⟨.skipped, attempts⟩) :
    Covers r d states s' where
  names := h.names
  succeeded other hdone := by
    rw [hboard] at hdone
    by_cases heq : other = t
    · subst heq
      rw [Function.update_self] at hdone
      cases hdone
    · rw [Function.update_of_ne heq] at hdone
      exact h.succeeded other hdone

section Programs

variable (hw : Steady r key d w) (hsparing : Sparing faults r)
include hw hsparing

theorem wp_loadedStates :
    Steadily env faults r key d
      (fun states w' ↦ Steady r key d w' ∧ Covers r d states w'.store)
      (loadedStates r d : Prog ExecutorError _) w := by
  unfold loadedStates
  rw [wp_bind]
  refine wp_same hw (.store (.listTaskRunsForRun r)) trivial nofun fun w₁ hw₁ h₁ ↦
    ⟨hw₁, Covers.of_same ?_ h₁⟩
  simp only [Faults.answer]
  cases hfault : faults.listTaskRuns w r with
  | none => exact covers_of_board hw.filed (getElem?_statesOf hw.filed)
  | some e =>
    -- nothing was listed, and nothing has succeeded
    have hnew (t : String) : (statesOf d [])[t]? = if t ∈ d.names then some .pending else none := by
      simp [statesOf, getElem?_foldl_insertIfNew, WorkflowDef.names]
    refine ⟨fun t ht ↦ ?_, fun t hdone ↦ ?_⟩
    · by_contra hother
      have hmem : t ∈ statesOf d [] := ht
      rw [Std.ExtTreeMap.mem_iff_isSome_getElem?, hnew t, if_neg hother] at hmem
      cases hmem
    · exact absurd ((hasStatus_iff (by simp)).mpr hdone) (hsparing.list w e hfault t)

theorem wp_persistSkipped (hcovers : Covers r d states w.store) :
    Steadily env faults r key d (fun _ ↦ Steady r key d)
      (persistSkipped r states (pendingToSkip d states)) w := by
  let remaining (rest : List (String × TaskStatus)) (_ : Unit) (w' : World) : Prop :=
    Steady r key d w' ∧ Covers r d states w'.store ∧
      ∀ entry ∈ rest, entry ∈ (pendingToSkip d states).toList
  refine CallProgram.wp_mono (fun _ h ↦ h) (fun _ _ hend ↦ hend.1) (fun _ _ h ↦ h)
    (CallProgram.wp_foldlM remaining ?_ _ _ _ ⟨hw, hcovers, fun _ h ↦ h⟩)
  rintro ⟨t, status⟩ rest - w₁ ⟨hw₁, hcovers₁, hentries⟩
  obtain ⟨hentry, hrest⟩ := List.forall_mem_cons.mp hentries
  rw [Std.ExtTreeMap.mem_toList_iff_getElem?_eq_some] at hentry
  change Steadily env faults r key d _ _ w₁
  split_ifs with hskip
  · obtain ⟨rfl, hbefore⟩ := hskip
    obtain ⟨ht, hopen⟩ := blocked_of_skipped hentry hbefore
    rw [wp_bind]
    refine wp_loadTask hw₁ hsparing fun tr w₂ hw₂ h₂ hloaded ↦ ?_
    rw [wp_bind]
    refine wp_same hw₂ .nowMs trivial nofun fun w₃ hw₃ h₃ ↦ ?_
    have hboard : board r w₃.store = board r w₁.store := (h₂.trans h₃).board_eq r
    have hstored : (board r w₃.store t).status ≠ .succeeded := by
      rw [hboard]
      exact fun hdone ↦ hopen (hcovers₁.succeeded t hdone)
    refine wp_storeTaskRun hw₃ hloaded.id hloaded.runId hloaded.taskName ht hstored ?_
      fun w₄ hw₄ hend ↦ ⟨hw₄, ?_, hrest⟩
    · rw [hboard]
      exact fun _ ↦ hloaded.attempts.ge
    · exact (hcovers₁.of_same (h₂.trans h₃)).skip hend
  · exact ⟨hw₁, hcovers₁, hrest⟩

end Programs

section Endings

variable {run : Run} (hw : Steady run.id ⟨run.tenant, run.defName⟩ d w)
include hw

/-- A part of an attempt that only reads and writes the run. -/
theorem wp_ending {allowed : Call → Prop} {part : Prog ExecutorError AttemptOutcome}
    {result : AttemptOutcome → Prop} (hpart : part.Meets (fun _ _ ↦ True) allowed result)
    (hallowed : ∀ {call}, allowed call → ReadCall run.id call ∨
      ∃ written, call = .store (.putRun written) ∧ RunWrite run written) :
    Steadily env faults run.id ⟨run.tenant, run.defName⟩ d
      (fun _ ↦ Steady run.id ⟨run.tenant, run.defName⟩ d) part w := by
  refine hpart.wp (fun call w' hw' hcall ↦ ⟨trivial, ?_⟩) (fun _ h ↦ h) (fun _ _ _ h ↦ h)
    (fun _ _ _ h ↦ h) hw
  rcases hallowed hcall with hread | ⟨written, rfl, hwrite⟩
  · exact hw'.recorded_same hread.silent.1 (by simp [hread.silent.2])
  · exact hw'.recorded_putRun hwrite.id_eq hwrite.key_eq

theorem wp_finalize {ex : RunExecutor} :
    Steadily env faults run.id ⟨run.tenant, run.defName⟩ d
      (fun _ ↦ Steady run.id ⟨run.tenant, run.defName⟩ d) (finalize ex run d states) w := by
  refine wp_ending hw (meets_finalize ex run d states fun _ ↦ True) fun {call} hcall ↦ ?_
  rcases hcall with hread | hwrite
  · exact .inl hread
  · cases call with
    | store call =>
      cases call with
      | putRun written => exact .inr ⟨written, rfl, hwrite.1⟩
      | _ => exact hwrite.elim
    | _ => exact hwrite.elim

theorem wp_runWaves {ex : RunExecutor} {token : Option ClaimToken} {leaseMs : ℤ}
    (hnodup : d.names.Nodup) (hsparing : Sparing faults run.id) :
    Steadily env faults run.id ⟨run.tenant, run.defName⟩ d
      (fun _ ↦ Steady run.id ⟨run.tenant, run.defName⟩ d) (runWaves ex run d token leaseMs) w := by
  refine CallProgram.wp_seq (wp_loadedStates hw hsparing) fun states w₁ h₁ ↦ ?_
  refine CallProgram.wp_seq (wp_waves hsparing hnodup h₁.1 h₁.2) fun loopExit w₂ h₂ ↦ ?_
  cases loopExit with
  | cancelled outcome => exact h₂.1
  | drained states =>
    exact CallProgram.wp_seq (wp_persistSkipped h₂.1 hsparing h₂.2) fun _ _ hw₃ ↦ wp_finalize hw₃

end Endings

theorem wp_attemptWithToken (ex : RunExecutor) (token : Option ClaimToken) (leaseMs : ℤ)
    (hnodup : d.names.Nodup) (hsparing : Sparing faults r) (hw : Steady r key d w) :
    Steadily env faults r key d (fun _ ↦ Steady r key d) (attemptWithToken ex r token leaseMs)
      w := by
  obtain ⟨run, hrun, rfl⟩ := hw.run
  obtain rfl : run.id = r := KeyedMap.key_of_get? hrun
  unfold attemptWithToken
  rw [wp_bind]
  refine wp_getRun hw hrun fun w₁ hw₁ ↦ ?_
  dsimp only
  rw [wp_bind]
  refine wp_same hw₁ (.store (.getWorkflow ..)) trivial nofun fun w₂ hw₂ h₂ ↦ ?_
  have hrecord : faults.answer env w₁ (.store (.getWorkflow run.tenant run.defName)) = .ok ⟨d⟩ := by
    change w₁.store.getWorkflow run.tenant run.defName = .ok ⟨d⟩
    simp [MemoryStore.getWorkflow, hw₁.definition]
  rw [hrecord]
  dsimp only
  split_ifs
  · exact hw₂
  · exact hw₂
  · rw [wp_bind]
    refine wp_reads hw₂ hsparing (returns_deadlinePassed run) ReadCall.silent
      fun passed w₃ _ hw₃ _ ↦ ?_
    split_ifs
    · refine wp_ending hw₃ (meets_finishTimedOut run fun _ ↦ True) ?_
      rintro call (rfl | ⟨now, error, rfl⟩)
      · exact .inl trivial
      · exact .inr ⟨_, rfl, .timedOut now error⟩
    · exact wp_runWaves hw₃ hnodup hsparing

theorem wp_markRunning (hw : Steady r key d w) :
    Steadily env faults r key d (fun _ ↦ Steady r key d) (markRunning r) w := by
  obtain ⟨run, hrun, rfl⟩ := hw.run
  obtain rfl : run.id = r := KeyedMap.key_of_get? hrun
  unfold markRunning
  rw [wp_bind]
  refine wp_getRun hw hrun fun w₁ hw₁ ↦ ?_
  dsimp only
  split_ifs
  · exact hw₁
  · exact hw₁
  · split
    · exact hw₁
    · rw [wp_bind]
      refine wp_same hw₁ .nowMs trivial nofun fun w₂ hw₂ _ ↦ ⟨hw₂, ?_⟩
      exact hw₂.recorded_putRun rfl rfl

end Attempt

/-! ### Histories -/

section Histories

variable {parse : UrlParser} {r : RunId} {key : WorkflowKey} {d : WorkflowDef} {a : ℕ}
  {s : MemoryStore} {w w' : World} {env : Env} {faults : Faults}

theorem steady_of_submitted (h : Submitted r d a s) :
    ∃ key, Steady r key d ⟨s, []⟩ := by
  obtain ⟨⟨run, hrun, -, hdef⟩, hnone⟩ := h
  exact ⟨_, .of_noTaskRuns hnone d, ⟨run, hrun, rfl⟩, hdef, by simp [World.stores], by simp⟩

theorem Steady.cancel (h : Steady r key d w) (nowMs : ℤ) :
    Steady r key d (serveFaulty env faults (.store (.cancelRun r nowMs)) w).2 := by
  obtain ⟨run, hrun, hkey⟩ := h.run
  have hcases := w.store.cancelRun_cases r nowMs
  have htasks := w.store.taskRuns_cancelRun r nowMs
  have hboard : board r (w.store.cancelRun r nowMs).2 = board r w.store :=
    board_of_get? fun _ ↦ by rw [htasks]
  refine ⟨⟨fun hget ↦ ?_, fun hget ↦ ?_⟩, ?_, ?_, h.climbs_recorded ?_,
    h.invoked_recorded (by simp [Call.mark])⟩
  · exact h.filed.owner (htasks ▸ hget)
  · exact h.filed.named (htasks ▸ hget)
  · change ∃ run, (w.store.cancelRun r nowMs).2.runs.get? r = some run ∧ _
    rcases hcases with ⟨-, hstore⟩ | ⟨found, hfound, -, hstore⟩ <;> rw [hstore]
    · exact ⟨run, hrun, hkey⟩
    · obtain rfl : run = found := Option.some.inj (hrun.symm.trans hfound)
      have hid : run.id = r := KeyedMap.key_of_get? hrun
      exact ⟨_, (KeyedMap.get?_put ..).trans (if_pos hid), hkey⟩
  · exact (congrArg (·[key]?) (defs_after env w (.store (.cancelRun r nowMs)) trivial)).trans
      h.definition
  · change Climbs _ (board r (w.store.cancelRun r nowMs).2)
    rw [hboard]
    exact .refl _

theorem Steady.other (h : Steady r key d w) {s : MemoryStore} (hs : Undisturbed r w.store s) :
    Steady r key d ⟨s, w.log⟩ := by
  obtain ⟨run, hrun, hkey⟩ := h.run
  have hboard := hs.board_eq
  refine ⟨⟨fun hget ↦ ?_, fun hget howner ↦ ?_⟩, ?_, ?_, ?_, h.invoked⟩
  · rw [hs.task] at hget
    exact h.filed.owner hget
  · exact h.filed.named (hs.owned hget howner) howner
  · rw [hs.run]
    exact h.run
  · have hdef := hs.definition hrun
    rw [hkey] at hdef
    exact hdef.trans h.definition
  · have hboards : (World.mk s w.log).stores.map (board r) = w.stores.map (board r) := by
      simp [World.stores, hboard]
    rw [hboards]
    exact h.climbs

theorem Steady.step (hnodup : d.names.Nodup) (hsparing : Sparing faults r)
    (h : Steady r key d w) (hstep : FaultyStep env faults r w w') : Steady r key d w' := by
  cases hstep with
  | attempt ex token leaseMs hreach =>
    exact CallProgram.mid_of_reaches (wp_attemptWithToken ex token leaseMs hnodup hsparing h) hreach
      (fun _ _ hend ↦ hend) fun _ _ hend ↦ hend
  | dispatch hreach =>
    exact CallProgram.mid_of_reaches (wp_markRunning h) hreach (fun _ _ hend ↦ hend)
      fun _ _ hend ↦ hend
  | cancel nowMs => exact h.cancel nowMs
  | other hs => exact h.other hs

theorem steady_of_history (hnodup : d.names.Nodup) (hsparing : Sparing faults r)
    (hs : Steady r key d ⟨s, []⟩) (h : FaultyHistory env faults r ⟨s, []⟩ w) :
    Steady r key d w := by
  induction h with
  | refl => exact hs
  | tail _ hstep ih => exact ih.step hnodup hsparing hstep

/-- What is succeeded in a store the log has seen is so in all stores after it. -/
theorem Steady.succeeded_later (h : Steady r key d w) {earlier later : List MemoryStore}
    {s s' : MemoryStore} {t : String} (hstores : w.stores = earlier ++ s :: later)
    (hs' : s' ∈ later) (hdone : (board r s t).status = .succeeded) :
    (board r s' t).status = .succeeded := by
  let kept (b b' : Board String) : Prop := (b t).status = .succeeded → (b' t).status = .succeeded
  have : IsTrans (Board String) kept := ⟨fun _ _ _ hfirst hsecond hb ↦ hsecond (hfirst hb)⟩
  have hpairwise : (w.stores.map (board r)).Pairwise kept :=
    (h.climbs.imp fun _ _ hclimbs ↦ (hclimbs t).1).pairwise
  rw [hstores, List.map_append, List.map_cons] at hpairwise
  exact (List.pairwise_cons.mp (List.pairwise_append.mp hpairwise).2.1).1 _
    (List.mem_map_of_mem hs') hdone

/-- In every history on a store whose faults are sparing: once a task is stored as succeeded its
handler is not invoked again, and as long as no counter is about to overflow none ever falls. -/
theorem survives_faults (hvalid : validateDefinition parse d = .ok ())
    (hsubmitted : Submitted r d a s) (hsparing : Sparing faults r)
    (h : FaultyHistory env faults r ⟨s, []⟩ w)
    (hbelow : ∀ store ∈ w.stores, ∀ t ∈ d.names, (board r store t).attempts < 2 ^ 32 - 1) :
    (∀ earlier e later, w.log = earlier ++ e :: later → ∀ t, HasStatus e.store r t .succeeded →
      ∀ e' ∈ e :: later, ¬ e'.Invokes r t) ∧
    ∀ t ∈ d.names, (w.stores.map fun store ↦ (board r store t).attempts).Pairwise (· ≤ ·) := by
  obtain ⟨key, hs⟩ := steady_of_submitted hsubmitted
  have hsteady := steady_of_history (wellFormed_of_validateDefinition hvalid).nodup hsparing hs h
  refine ⟨fun earlier e later hlog t hdone e' he' hinvokes ↦ ?_, fun t ht ↦ ?_⟩
  · rw [hasStatus_iff (by simp)] at hdone
    have hlater : (board r e'.store t).status = .succeeded := by
      rcases List.mem_cons.mp he' with rfl | he'
      · exact hdone
      · have hstores : w.stores = earlier.map Event.store ++
            e.store :: (later.map Event.store ++ [w.store]) := by
          simp [World.stores, hlog]
        exact hsteady.succeeded_later hstores
          (List.mem_append_left _ (List.mem_map_of_mem he')) hdone
    have hmem : e' ∈ w.log := by
      rw [hlog]
      exact List.mem_append_right _ he'
    exact hsteady.invoked e' hmem t hinvokes.mark_eq hlater
  · have hchain := (List.isChain_map (board r)).mp hsteady.climbs
    have hmono : w.stores.IsChain fun s s' ↦ (board r s t).attempts ≤ (board r s' t).attempts :=
      hchain.imp_of_mem_imp fun s s' hs _ hclimbs ↦ (hclimbs t).2 (hbelow s hs t ht)
    exact ((List.isChain_map fun store ↦ (board r store t).attempts).mpr hmono).pairwise

end Histories

/-! ### Two kinds of faults -/

def attemptedFaulty (env : Env) (faults : Faults) (r : RunId) (w : World) : World :=
  ((attemptWithToken plainExecutor r none 0).run (serveFaulty env faults) w).2

def dispatchedFaulty (env : Env) (faults : Faults) (r : RunId) (w : World) : World :=
  ((markRunning r).run (serveFaulty env faults) w).2

theorem FaultyStep.attempted (env : Env) (faults : Faults) (r : RunId) (w : World) :
    FaultyStep env faults r w (attemptedFaulty env faults r w) :=
  .attempt plainExecutor none 0 (CallProgram.reaches_run ..)

theorem FaultyStep.dispatched (env : Env) (faults : Faults) (r : RunId) (w : World) :
    FaultyStep env faults r w (dispatchedFaulty env faults r w) :=
  .dispatch (CallProgram.reaches_run ..)

/-- The second task fails, so that the run is attempted again. -/
def secondDown : Env := answering fun ctx ↦
  if ctx.taskName = "b" then some (.error (.permanent "down")) else some (.ok ⟨.null⟩)

def sampleFaulty (faults : Faults) : World :=
  attemptedFaulty secondDown faults sampleRun (dispatchedFaulty secondDown faults sampleRun
    (attemptedFaulty secondDown faults sampleRun ⟨sampleStore, []⟩))

theorem sampleFaulty_history (faults : Faults) :
    FaultyHistory secondDown faults sampleRun ⟨sampleStore, []⟩ (sampleFaulty faults) :=
  ((Relation.ReflTransGen.single (.attempted ..)).tail (.dispatched ..)).tail (.attempted ..)

/-- Whatever hides nothing fails. -/
def sparingFaults : Faults where
  getTaskRun w id :=
    if ∀ tr ∈ w.store.taskRuns.get? id, tr.attempts = 0 then some (.backend "down") else none
  listTaskRuns w _ :=
    if ∀ tr ∈ w.store.taskRuns.values, tr.status ≠ .succeeded then some (.backend "down") else none

theorem sparing_sparingFaults (r : RunId) : Sparing sparingFaults r where
  list w e h t := by
    rintro ⟨tr, htr, hdone⟩
    simp only [sparingFaults, Option.ite_none_right_eq_some] at h
    rw [MemoryStore.getTaskRun_eq_ok] at htr
    rw [← KeyedMap.key_of_get? htr] at htr
    exact h.1 tr (KeyedMap.mem_values.mpr htr) hdone
  get w t e tr h htr := by
    simp only [sparingFaults, Option.ite_none_right_eq_some] at h
    exact h.1 tr (MemoryStore.getTaskRun_eq_ok.mp htr)

theorem survives_faults_sample :
    (∀ earlier e later, (sampleFaulty sparingFaults).log = earlier ++ e :: later →
      ∀ t, HasStatus e.store sampleRun t .succeeded →
        ∀ e' ∈ e :: later, ¬ e'.Invokes sampleRun t) ∧
    ∀ t ∈ sampleDef.names, ((sampleFaulty sparingFaults).stores.map fun store ↦
      (board sampleRun store t).attempts).Pairwise (· ≤ ·) :=
  survives_faults sampleDef_valid sampleStore_submitted (sparing_sparingFaults sampleRun)
    (sampleFaulty_history sparingFaults) (by decide +kernel)

/-- Lists of task runs cannot be read. -/
def listsDown : Faults := ⟨fun _ _ ↦ none, fun _ _ ↦ some (.backend "down")⟩

/-- Task runs cannot be read. -/
def getsDown : Faults := ⟨fun _ _ ↦ some (.backend "down"), fun _ _ ↦ none⟩

/-- With lists that cannot be read, the second attempt invokes a handler again whose task had
succeeded in the first. With task runs that cannot be read, the failure of a task is stored with the
counter that a new record has. -/
theorem repeated_after_fault :
    validateDefinition (fun _ ↦ .error "") sampleDef = .ok () ∧
    Submitted sampleRun sampleDef 0 sampleStore ∧
    (∃ w, FaultyHistory secondDown listsDown sampleRun ⟨sampleStore, []⟩ w ∧
      ∃ earlier e later, w.log = earlier ++ e :: later ∧
        HasStatus e.store sampleRun "a" .succeeded ∧ ∃ e' ∈ later, e'.Invokes sampleRun "a") ∧
    ∃ w, FaultyHistory allDown getsDown sampleRun ⟨sampleStore, []⟩ w ∧
      ¬ (w.stores.map fun store ↦ (board sampleRun store "a").attempts).Pairwise (· ≤ ·) := by
  refine ⟨sampleDef_valid, sampleStore_submitted,
    ⟨sampleFaulty listsDown, sampleFaulty_history _, ?_⟩,
    attemptedFaulty allDown getsDown sampleRun ⟨sampleStore, []⟩, .single (.attempted ..),
    by decide +kernel⟩
  have hevents : (∃ e ∈ (sampleFaulty listsDown).log.take 20,
        (board sampleRun e.store "a").status = .succeeded) ∧
      ∃ e' ∈ (sampleFaulty listsDown).log.drop 20, e'.Invokes sampleRun "a" := by decide +kernel
  obtain ⟨⟨e, he, hdone⟩, e', he', hinvokes⟩ := hevents
  obtain ⟨earlier, later, hlog⟩ := List.append_of_mem he
  refine ⟨earlier, e, later ++ (sampleFaulty listsDown).log.drop 20, ?_,
    (hasStatus_iff (by simp)).mpr hdone, e', List.mem_append_right _ he', hinvokes⟩
  rw [← List.cons_append, ← List.append_assoc, ← hlog, List.take_append_drop]

end Runvane.Scheduler.Flaky
