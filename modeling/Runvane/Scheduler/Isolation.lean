import Runvane.Scheduler.History

/-!
# Attempts of different runs

The task runs of all runs are kept in one table, under ids that encode the run id and the task name.
For accepted run ids the encoding tells runs apart, so an attempt only ever touches records of its
own run. The condition under which this holds (`IdsKept`) holds again wherever the attempt ends
(`attempt_isolated`).
-/

set_option autoImplicit false

namespace Runvane.Scheduler

open Library Domain Persistence Prog
open CallProgram (Reaches)

def Accepted (r : RunId) : Prop := Id.parse .run r.text = .ok r

instance (r : RunId) : Decidable (Accepted r) := inferInstanceAs (Decidable (_ = _))

/-- Every task run is filed under the id of its run and task, and all run ids are accepted. -/
structure IdsKept (s : MemoryStore) : Prop where
  taskRun : ∀ tr ∈ s.taskRuns.values, tr.id = taskRunId tr.runId tr.taskName ∧ Accepted tr.runId
  run : ∀ run ∈ s.runs.values, Accepted run.id
  queue : ∀ entry ∈ s.queue.values, Accepted entry.runId

/-- What an attempt of `r` leaves as it was. -/
structure Isolated (r : RunId) (s s' : MemoryStore) : Prop where
  run : ∀ other, other ≠ r → s'.getRun other = s.getRun other
  taskRuns : ∀ other, other ≠ r → s'.listTaskRunsForRun other = s.listTaskRunsForRun other
  entry : ∀ other, other ≠ r → s'.queue.get? other = s.queue.get? other
  defs : s'.defs = s.defs
  runNumbers : s'.runNumbers = s.runNumbers

/-- Where the task runs of other runs are the same ones, they are listed the same. -/
theorem listTaskRunsForRun_eq {s s' : MemoryStore} {r : RunId}
    (h : ∀ tr, tr.runId = r →
      (s'.taskRuns.get? tr.id = some tr ↔ s.taskRuns.get? tr.id = some tr)) :
    s'.listTaskRunsForRun r = s.listTaskRunsForRun r := by
  have hfilter : s'.taskRuns.filter (·.runId = r) = s.taskRuns.filter (·.runId = r) := by
    refine KeyedMap.ext_get? fun id ↦ Option.ext fun tr ↦ ?_
    simp only [KeyedMap.get?_filter, Option.filter_eq_some_iff, decide_eq_true_eq]
    refine and_congr_left fun hrun ↦ ?_
    constructor
    · intro hget
      obtain rfl : tr.id = id := KeyedMap.key_of_get? hget
      exact (h tr hrun).mp hget
    · intro hget
      obtain rfl : tr.id = id := KeyedMap.key_of_get? hget
      exact (h tr hrun).mpr hget
  unfold MemoryStore.listTaskRunsForRun
  rw [← KeyedMap.values_filter, ← KeyedMap.values_filter, hfilter]

/-! ### The calls of an attempt -/

/-- The call writes nothing but records of the run, which has an accepted id. -/
def Confined (r : RunId) : Call → Prop
  | .store (.putTaskRun tr) => Accepted r ∧ tr.runId = r ∧ tr.id = taskRunId r tr.taskName
  | .store (.putRun run) => Accepted r ∧ run.id = r
  | .store (.renewLease id ..) => id = r
  | .store (.getRun _) | .store (.getWorkflow ..) | .store (.getTaskRun _)
  | .store (.listTaskRunsForRun _) | .nowMs | .registryGet _ | .execute .. => True
  | _ => False

/-- How a store that keeps its ids answers. -/
def Filed : (call : Call) → call.Answer → Prop
  | .store (.getRun id), .ok run => run.id = id ∧ Accepted id
  | .store (.getTaskRun id), .ok tr =>
    tr.id = id ∧ tr.id = taskRunId tr.runId tr.taskName ∧ Accepted tr.runId
  | _, _ => True

theorem IdsKept.filed {w : World} (h : IdsKept w.store) (env : Env) (call : Call) :
    Filed call (env.answer w call).1 := by
  cases call with
  | store call =>
    cases call with
    | getRun id =>
      change Filed (.store (.getRun id)) (w.store.getRun id)
      cases hrun : w.store.getRun id with
      | error e => trivial
      | ok run =>
        rw [MemoryStore.getRun_eq_ok] at hrun
        obtain rfl : run.id = id := KeyedMap.key_of_get? hrun
        exact ⟨rfl, h.run run (KeyedMap.mem_values.mpr hrun)⟩
    | getTaskRun id =>
      change Filed (.store (.getTaskRun id)) (w.store.getTaskRun id)
      cases htr : w.store.getTaskRun id with
      | error e => trivial
      | ok tr =>
        rw [MemoryStore.getTaskRun_eq_ok] at htr
        obtain rfl : tr.id = id := KeyedMap.key_of_get? htr
        exact ⟨rfl, h.taskRun tr (KeyedMap.mem_values.mpr htr)⟩
    | _ => trivial
  | _ => trivial

variable {tr : TaskRun} {call : Call} {run : Run}

/-- A record that is loaded for a task of the run is one of the run and the task. -/
theorem Loaded.owner {r : RunId} {t : String} (hr : Accepted r) (h : Loaded Filed r t tr) :
    tr.id = taskRunId r t ∧ tr.runId = r ∧ tr.taskName = t := by
  rcases h with ⟨hid, hown, haccepted⟩ | rfl
  · obtain ⟨hrun, hname⟩ := taskRunId_injective_of_colon (colon_not_mem_of_parse haccepted)
      (colon_not_mem_of_parse hr) (hown.symm.trans hid)
    exact ⟨hid, hrun, hname⟩
  · exact ⟨rfl, rfl, rfl⟩

theorem RecordCall.confined {r : RunId} (hr : Accepted r) (h : RecordCall Filed r call) :
    Confined r call := by
  cases call with
  | store call =>
    cases call with
    | putTaskRun tr =>
      obtain ⟨t, old, hold, hid, hrun, hname⟩ := h
      obtain ⟨hid', hrun', hname'⟩ := hold.owner hr
      refine ⟨hr, hrun.trans hrun', ?_⟩
      rw [hid, hid', hname, hname']
    | _ => trivial
  | _ => trivial

theorem CourseCall.confined {d : WorkflowDef} {token : Option ClaimToken} {leaseMs : ℤ}
    (hr : Accepted run.id) (h : CourseCall Filed run d token leaseMs call) :
    Confined run.id call := by
  rcases h with (hwave | hdecision | rfl) | rfl | ⟨now, error, rfl⟩
  · rcases hwave with hrecord | hcall
    · exact hrecord.confined hr
    · cases call with
      | store call =>
        cases call with
        | renewLease => exact hcall.1
        | _ => exact hcall.elim
      | _ => trivial
  · rcases hdecision with hrecord | hcall
    · exact hrecord.confined hr
    · cases call with
      | store call =>
        cases call with
        | putRun written => exact ⟨hr, hcall.1.id_eq⟩
        | _ => exact hcall.elim
      | _ => exact hcall.elim
  · trivial
  · trivial
  · exact ⟨hr, rfl⟩

/-- An attempt of a run writes records of the run only. -/
theorem AttemptCall.confined {r : RunId} {token : Option ClaimToken} {leaseMs : ℤ}
    (h : AttemptCall Filed r token leaseMs call) : Confined r call := by
  rcases h with rfl | ⟨run, ⟨rfl, hr⟩, rfl | ⟨-, record, -, hcourse⟩⟩
  · trivial
  · trivial
  · exact hcourse.confined hr

/-! ### What the calls leave -/

theorem Isolated.refl (r : RunId) (s : MemoryStore) : Isolated r s s :=
  ⟨fun _ _ ↦ rfl, fun _ _ ↦ rfl, fun _ _ ↦ rfl, rfl, rfl⟩

theorem Isolated.trans {r : RunId} {s s' s'' : MemoryStore} (h : Isolated r s s')
    (h' : Isolated r s' s'') : Isolated r s s'' where
  run other hne := (h'.run other hne).trans (h.run other hne)
  taskRuns other hne := (h'.taskRuns other hne).trans (h.taskRuns other hne)
  entry other hne := (h'.entry other hne).trans (h.entry other hne)
  defs := h'.defs.trans h.defs
  runNumbers := h'.runNumbers.trans h.runNumbers

section Writes

variable {r : RunId} {s : MemoryStore}

theorem isolated_putRun (hid : run.id = r) : Isolated r s (s.putRun run).2 where
  run other hne := by
    unfold MemoryStore.getRun MemoryStore.putRun
    rw [KeyedMap.get?_put, if_neg fun h ↦ hne (h.symm.trans hid)]
  taskRuns _ _ := rfl
  entry _ _ := rfl
  defs := rfl
  runNumbers := rfl

theorem IdsKept.putRun (h : IdsKept s) (hr : Accepted run.id) :
    IdsKept (s.putRun run).2 where
  taskRun := h.taskRun
  run other hother := by
    rw [KeyedMap.mem_values] at hother
    simp only [MemoryStore.putRun, KeyedMap.get?_put] at hother
    split_ifs at hother with hid
    · rwa [← hid]
    · exact h.run other (KeyedMap.mem_values.mpr hother)
  queue := h.queue

/-- A task run of the run is stored in nobody else's place. -/
theorem isolated_putTaskRun (h : IdsKept s) (hr : Accepted r) (hrun : tr.runId = r)
    (hid : tr.id = taskRunId r tr.taskName) : Isolated r s (s.putTaskRun tr).2 where
  run _ _ := rfl
  taskRuns other hne := by
    refine listTaskRunsForRun_eq fun tr' hrun' ↦ ?_
    simp only [MemoryStore.putTaskRun, KeyedMap.get?_put]
    split_ifs with hsame
    · constructor
      · intro heq
        obtain rfl := Option.some.inj heq
        exact absurd (hrun'.symm.trans hrun) hne
      · intro hget
        obtain ⟨hown, haccepted⟩ := h.taskRun tr' (KeyedMap.mem_values.mpr hget)
        obtain ⟨hruns, -⟩ := taskRunId_injective_of_colon (colon_not_mem_of_parse haccepted)
          (colon_not_mem_of_parse hr) (hown.symm.trans (hsame.symm.trans hid))
        exact absurd (hrun'.symm.trans hruns) hne
    · exact Iff.rfl
  entry _ _ := rfl
  defs := rfl
  runNumbers := rfl

theorem IdsKept.putTaskRun (h : IdsKept s) (hr : Accepted r) (hrun : tr.runId = r)
    (hid : tr.id = taskRunId r tr.taskName) : IdsKept (s.putTaskRun tr).2 where
  taskRun other hother := by
    rw [KeyedMap.mem_values] at hother
    simp only [MemoryStore.putTaskRun, KeyedMap.get?_put] at hother
    split_ifs at hother
    · obtain rfl := Option.some.inj hother
      exact ⟨by rw [hid, hrun], by rwa [hrun]⟩
    · exact h.taskRun other (KeyedMap.mem_values.mpr hother)
  run := h.run
  queue := h.queue

variable (token : ClaimToken)

/-- The renewal of the run's lease changes the run's entry, or nothing. -/
theorem renewLease_cases (nowMs extendByMs : ℤ) :
    (s.renewLease r token nowMs extendByMs).2 = s ∨ ∃ entry, s.queue.get? r = some entry ∧
      (s.renewLease r token nowMs extendByMs).2 = { s with
        queue := s.queue.put { entry with leaseUntilMs := some (i64Add nowMs extendByMs) } } := by
  unfold MemoryStore.renewLease
  rcases s.asHolder_cases r (fun entry ↦ entry.token = token && entry.isLeased nowMs) fun entry ↦
      s.queue.put { entry with leaseUntilMs := some (i64Add nowMs extendByMs) } with
    ⟨e, heq⟩ | ⟨entry, hentry, -, heq⟩
  · exact .inl (by rw [heq])
  · exact .inr ⟨entry, hentry, by rw [heq]⟩

theorem isolated_renewLease (nowMs extendByMs : ℤ) :
    Isolated r s (s.renewLease r token nowMs extendByMs).2 := by
  rcases renewLease_cases token nowMs extendByMs with hsame | ⟨entry, hentry, hput⟩
  · rw [hsame]
    exact .refl r s
  · rw [hput]
    refine ⟨fun _ _ ↦ rfl, fun _ _ ↦ rfl, fun other hne ↦ ?_, rfl, rfl⟩
    have hid : entry.runId = r := KeyedMap.key_of_get? hentry
    rw [KeyedMap.get?_put, if_neg fun h ↦ hne (h.symm.trans hid)]

theorem IdsKept.renewLease (h : IdsKept s) (token : ClaimToken) (nowMs extendByMs : ℤ) :
    IdsKept (s.renewLease r token nowMs extendByMs).2 := by
  rcases renewLease_cases token nowMs extendByMs with hsame | ⟨entry, hentry, hput⟩
  · rwa [hsame]
  · rw [hput]
    refine ⟨h.taskRun, h.run, fun other hother ↦ ?_⟩
    rw [KeyedMap.mem_values] at hother
    simp only [KeyedMap.get?_put] at hother
    split_ifs at hother with hsame
    · have hid : entry.runId = r := KeyedMap.key_of_get? hentry
      rw [← hsame]
      exact h.queue entry (KeyedMap.mem_values.mpr (by rw [hid, hentry]))
    · exact h.queue other (KeyedMap.mem_values.mpr hother)

/-- A confined call keeps the ids and leaves the other runs alone. -/
theorem isolated_after {w : World} (h : IdsKept w.store) (env : Env) (hcall : Confined r call) :
    IdsKept (w.after env call).store ∧ Isolated r w.store (w.after env call).store := by
  cases call with
  | store call =>
    cases call with
    | putTaskRun tr =>
      obtain ⟨hr, hrun, hid⟩ := hcall
      exact ⟨h.putTaskRun hr hrun hid, isolated_putTaskRun h hr hrun hid⟩
    | putRun run =>
      obtain ⟨hr, rfl⟩ := hcall
      exact ⟨h.putRun hr, isolated_putRun rfl⟩
    | renewLease id token nowMs extendByMs =>
      obtain rfl : id = r := hcall
      exact ⟨h.renewLease token nowMs extendByMs, isolated_renewLease token nowMs extendByMs⟩
    | getRun | getWorkflow | getTaskRun | listTaskRunsForRun => exact ⟨h, .refl r _⟩
    | _ => exact hcall.elim
  | nowMs | registryGet | execute => exact ⟨h, .refl r _⟩
  | _ => exact hcall.elim

end Writes

/-- In a store that keeps its ids, an attempt of a run leaves the record, the task runs and the
queue entry of every other run, all definitions and all counters as they were, and the store keeps
its ids, wherever the attempt ends. -/
theorem attempt_isolated (env : Env) (ex : RunExecutor) (r : RunId) (token : Option ClaimToken)
    (leaseMs : ℤ) {w w' : World} {p : Prog ExecutorError AttemptOutcome} (hkept : IdsKept w.store)
    (hreach : Reaches (serve env) (attemptWithToken ex r token leaseMs, w) (p, w')) :
    Isolated r w.store w'.store ∧ IdsKept w'.store := by
  have hserve : ∀ call w₁, IdsKept w₁.store ∧ Isolated r w.store w₁.store →
      AttemptCall Filed r token leaseMs call → Filed call (serve env call w₁).1 ∧
        IdsKept (serve env call w₁).2.store ∧ Isolated r w.store (serve env call w₁).2.store := by
    rintro call w₁ ⟨hids, hisolated⟩ hcall
    obtain ⟨hids', hisolated'⟩ := isolated_after hids env hcall.confined
    exact ⟨hids.filed env call, hids', hisolated.trans hisolated'⟩
  obtain ⟨-, hids, hisolated⟩ := CallProgram.Keeps.reaches hserve hreach
    (meets_attemptWithToken ex r token leaseMs) ⟨hkept, .refl r _⟩
  exact ⟨hisolated, hids⟩

/-- Two running runs of one definition; a task of the second has succeeded. -/
def sampleNeighbours : MemoryStore :=
  ((((MemoryStore.new.putWorkflow sampleDef).2.putRun
    { id := ⟨"rn_0"⟩, tenant := "t", defName := "flow", status := .running }).2.putRun
    { id := ⟨"rn_1"⟩, tenant := "t", defName := "flow", status := .running }).2.putTaskRun
    { id := taskRunId ⟨"rn_1"⟩ "a", runId := ⟨"rn_1"⟩, taskName := "a", status := .succeeded }).2

theorem sampleNeighbours_idsKept : IdsKept sampleNeighbours where
  taskRun := by decide
  run := by decide
  queue := by decide

/-- The world after an attempt of the first run, in which all handlers succeed. -/
def sampleNeighboursAfter : World :=
  attempted (answering fun _ ↦ some (.ok ⟨.null⟩)) ⟨"rn_0"⟩ ⟨sampleNeighbours, []⟩

theorem attempt_isolated_sample :
    trail ⟨"rn_0"⟩ sampleNeighboursAfter.log =
      [.check, .check, .invoke "a", .check, .invoke "b", .check] ∧
    Isolated ⟨"rn_0"⟩ sampleNeighbours sampleNeighboursAfter.store ∧
    IdsKept sampleNeighboursAfter.store :=
  ⟨by decide, attempt_isolated (w := ⟨sampleNeighbours, []⟩)
    (answering fun _ ↦ some (.ok ⟨.null⟩)) plainExecutor ⟨"rn_0"⟩ none 0 sampleNeighbours_idsKept
    (CallProgram.reaches_run ..)⟩

end Runvane.Scheduler
