import Runvane.Persistence.Memory

/-!
# Queries for runs, and retention

The filter of `persistence/filter.rs`, `list_runs` of the in-memory store, and the retention pass
`reap_finished_runs`, which every backend shares: it lists all runs and deletes one by one those
that have a finishing time at or before the limit, without a look at their status.

`Reaped` says what the pass is for: exactly the finished runs up to the limit are removed, each with
its task runs, they are counted, and nothing else changes. The pass does this in every store in
which a run has a finishing time exactly when its status is terminal (`reaped_of_stamped`).
-/

set_option autoImplicit false

namespace Runvane.Persistence

open Library Domain

/-! ### Filters -/

/-- Filters for runs. All fields are combined; one that is not set matches everything. -/
structure RunFilter where
  name : Option String := none
  namePrefix : Option String := none
  status : Option RunStatus := none
  statusIn : List RunStatus := []
  tenant : Option String := none
  tags : List (String × String) := []
  hasTagKeys : List String := []
  fromMs : Option ℤ := none
  toMs : Option ℤ := none
  finishedFromMs : Option ℤ := none
  finishedToMs : Option ℤ := none
  minDurationMs : Option ℤ := none
  limit : Option ℕ := none
  offset : ℕ := 0

namespace RunFilter

/-- Whether a run took at least the given time, from its start to its end. -/
def lasted (run : Run) (minDurationMs : ℤ) : Bool :=
  match run.startedAtMs, run.finishedAtMs with
  | some started, some finished => minDurationMs ≤ i64SaturatingSub finished started
  | _, _ => false

/-- Whether a run satisfies every predicate that is set. -/
def matchesRun (f : RunFilter) (run : Run) : Bool :=
  f.name.all (run.defName == ·) &&
  f.namePrefix.all (·.toList.isPrefixOf run.defName.toList) &&
  f.status.all (run.status == ·) &&
  (f.statusIn.isEmpty || f.statusIn.contains run.status) &&
  f.tenant.all (run.tenant == ·) &&
  f.tags.all (fun tag ↦ run.tags.lookup tag.1 == some tag.2) &&
  f.hasTagKeys.all (fun key ↦ (run.tags.lookup key).isSome) &&
  f.fromMs.all (· ≤ run.createdAtMs) &&
  f.toMs.all (run.createdAtMs < ·) &&
  f.finishedFromMs.all (fun bound ↦ run.finishedAtMs.any (bound ≤ ·)) &&
  f.finishedToMs.all (fun bound ↦ run.finishedAtMs.any (· ≤ bound)) &&
  f.minDurationMs.all (lasted run)

/-- The loop that collects runs until the limit is reached, which it checks after each of them. -/
def collect (limit : Option ℕ) : ℕ → List Run → List Run
  | _, [] => []
  | taken, run :: runs =>
    run :: if limit.any (· ≤ taken + 1) then [] else collect limit (taken + 1) runs

/-- The runs from the newest on, from the offset up to the limit. -/
def applyOrder (f : RunFilter) (runs : List Run) : List Run :=
  collect f.limit 0
    ((runs.insertionSort fun a b ↦ b.createdAtMs ≤ a.createdAtMs).drop f.offset)

theorem collect_none (taken : ℕ) (runs : List Run) : collect none taken runs = runs := by
  induction runs generalizing taken with
  | nil => rfl
  | cons run runs ih => simp [collect, ih]

/-- The default filter keeps every run. -/
theorem applyOrder_default (runs : List Run) : (applyOrder {} runs).Perm runs := by
  unfold applyOrder
  rw [collect_none, List.drop_zero]
  exact List.perm_insertionSort _ runs

end RunFilter

namespace MemoryStore

/-- The runs that match a filter, newest first. -/
def listRuns (s : MemoryStore) (order : IterationOrder Run) (f : RunFilter) :
    Except StorageError (List Run) :=
  .ok (f.applyOrder ((order.arrange s.runs.values).filter f.matchesRun))

/-- Whether the retention pass takes a run: it has a finishing time up to the limit. -/
def reaps (beforeMs : ℤ) (run : Run) : Bool := run.finishedAtMs.any (· ≤ beforeMs)

def reapLoop (beforeMs : ℤ) : ℕ → MemoryStore → List Run → Except StorageError ℕ × MemoryStore
  | reaped, s, [] => (.ok reaped, s)
  | reaped, s, run :: runs =>
    if reaps beforeMs run then
      match s.deleteRun run.id with
      | (.ok _, s') => reapLoop beforeMs (reaped + 1) s' runs
      | (.error e, s') => (.error e, s')
    else reapLoop beforeMs reaped s runs

/-- Deletes the runs that finished at or before the limit, and counts them. -/
def reapFinishedRuns (s : MemoryStore) (order : IterationOrder Run) (beforeMs : ℤ) :
    Except StorageError ℕ × MemoryStore :=
  match s.listRuns order {} with
  | .error e => (.error e, s)
  | .ok runs => reapLoop beforeMs 0 s runs

end MemoryStore

/-! ### What retention is for -/

def Stamped (run : Run) : Prop := run.finishedAtMs.isSome = run.isTerminal

instance (run : Run) : Decidable (Stamped run) := inferInstanceAs (Decidable (_ = _))

/-- Whether the run has reached a terminal status, at or before the limit. -/
def finishedBy (beforeMs : ℤ) (run : Run) : Bool :=
  run.isTerminal && run.finishedAtMs.any (· ≤ beforeMs)

/-- What the pass answers and leaves: the runs that finished by the limit are counted, and removed
with their task runs; everything else is as it was. -/
structure Reaped (beforeMs : ℤ) (s : MemoryStore) (answer : Except StorageError ℕ × MemoryStore) :
    Prop where
  count : answer.1 = .ok (s.runs.values.countP (finishedBy beforeMs))
  run : ∀ id, answer.2.runs.get? id = (s.runs.get? id).filter fun run ↦ !finishedBy beforeMs run
  taskRun : ∀ id, answer.2.taskRuns.get? id =
    (s.taskRuns.get? id).filter fun tr ↦ !(s.runs.get? tr.runId).any (finishedBy beforeMs)
  defs : answer.2.defs = s.defs
  queue : answer.2.queue = s.queue
  runNumbers : answer.2.runNumbers = s.runNumbers

namespace MemoryStore

def without (s : MemoryStore) (ids : List RunId) : MemoryStore :=
  { s with
    runs := s.runs.filter (·.id ∉ ids)
    taskRuns := s.taskRuns.filter (·.runId ∉ ids) }

theorem without_nil (s : MemoryStore) : s.without [] = s := by
  unfold without
  rw [KeyedMap.filter_eq_self (by simp), KeyedMap.filter_eq_self (by simp)]

theorem without_deleteRun (s : MemoryStore) (id : RunId) (ids : List RunId) :
    (s.deleteRun id).2.without ids = s.without (id :: ids) := by
  unfold without deleteRun
  simp only [KeyedMap.erase_eq_filter, KeyedMap.filter_filter, List.mem_cons, not_or,
    Bool.decide_and]

/-- The loop deletes the listed runs that have a finishing time up to the limit, and counts them. -/
theorem reapLoop_eq (beforeMs : ℤ) (reaped : ℕ) (s : MemoryStore) (runs : List Run) :
    reapLoop beforeMs reaped s runs =
      (.ok (reaped + runs.countP (reaps beforeMs)),
        s.without ((runs.filter (reaps beforeMs)).map Run.id)) := by
  induction runs generalizing reaped s with
  | nil => simp [reapLoop, without_nil]
  | cons run runs ih =>
    unfold reapLoop
    by_cases hreaps : reaps beforeMs run
    · rw [if_pos hreaps, List.filter_cons_of_pos hreaps, List.countP_cons_of_pos hreaps,
        List.map_cons, ← without_deleteRun, Nat.add_comm (runs.countP _) 1, ← Nat.add_assoc]
      exact ih (reaped + 1) (s.deleteRun run.id).2
    · rw [if_neg hreaps, List.filter_cons_of_neg hreaps, List.countP_cons_of_neg hreaps]
      exact ih reaped s

theorem listRuns_default (s : MemoryStore) (order : IterationOrder Run) :
    ∃ runs, s.listRuns order {} = .ok runs ∧ runs.Perm s.runs.values := by
  refine ⟨_, rfl, (RunFilter.applyOrder_default _).trans ?_⟩
  have hall : (order.arrange s.runs.values).filter (RunFilter.matchesRun {}) =
      order.arrange s.runs.values := List.filter_eq_self.mpr fun _ _ ↦ rfl
  rw [hall]
  exact order.perm _

end MemoryStore

/-- In a store in which exactly the runs with a terminal status have a finishing time, the pass does
what it is for. -/
theorem reaped_of_stamped {s : MemoryStore} (h : ∀ id, ∀ run ∈ s.runs.get? id, Stamped run)
    (order : IterationOrder Run) (beforeMs : ℤ) :
    Reaped beforeMs s (s.reapFinishedRuns order beforeMs) := by
  obtain ⟨runs, hlist, hperm⟩ := s.listRuns_default order
  have hreaps (run : Run) (hrun : run ∈ runs) :
      MemoryStore.reaps beforeMs run = finishedBy beforeMs run := by
    have hstamped : Stamped run := h _ run (KeyedMap.mem_values.mp (hperm.mem_iff.mp hrun))
    unfold Stamped at hstamped
    unfold finishedBy MemoryStore.reaps
    rw [← hstamped]
    cases run.finishedAtMs <;> rfl
  have hanswer : s.reapFinishedRuns order beforeMs =
      (.ok (runs.countP (finishedBy beforeMs)),
        s.without ((runs.filter (finishedBy beforeMs)).map Run.id)) := by
    unfold MemoryStore.reapFinishedRuns
    rw [hlist]
    dsimp only
    rw [MemoryStore.reapLoop_eq, List.filter_congr hreaps, Nat.zero_add,
      List.countP_congr fun run hrun ↦ by rw [hreaps run hrun]]
  have hgone (id : RunId) : id ∈ (runs.filter (finishedBy beforeMs)).map Run.id ↔
      (s.runs.get? id).any (finishedBy beforeMs) = true := by
    simp only [List.mem_map, List.mem_filter, hperm.mem_iff, KeyedMap.mem_values,
      Option.any_eq_true]
    constructor
    · rintro ⟨run, ⟨hrun, hfinished⟩, rfl⟩
      exact ⟨run, hrun, hfinished⟩
    · rintro ⟨run, hrun, hfinished⟩
      obtain rfl := KeyedMap.key_of_get? hrun
      exact ⟨run, ⟨hrun, hfinished⟩, rfl⟩
  rw [hanswer]
  refine ⟨congrArg Except.ok (hperm.countP_eq _), fun id ↦ ?_, fun id ↦ ?_, rfl, rfl, rfl⟩
  · rw [MemoryStore.without, KeyedMap.get?_filter]
    cases hrun : s.runs.get? id with
    | none => rfl
    | some run =>
      obtain rfl := KeyedMap.key_of_get? hrun
      simp [Option.filter, hgone, hrun]
  · rw [MemoryStore.without, KeyedMap.get?_filter]
    simp only [hgone, decide_not, Bool.decide_eq_true]

end Runvane.Persistence
