import Runvane.Persistence.Interchange
import Runvane.Persistence.Retention

/-!
# Queries for runs on the two backends

`list_runs` and `count_runs` of both stores, after any writes to their runs. The in-memory store
looks at the stored runs. The SQL store selects on the column of the tenant, which a run keeps from
the write that inserted it, and it counts a page of the result.

`QueriesAgree` is what the two are meant to have in common. The runs they hold are the same after
the same writes (`matched_written`), and the column holds the tenant that `filedUnder` reads off the
writes (`tenant_written`). The answers then agree exactly if the runs asked for were filed under the
tenant of the filter and the page of the filter has room for them (`queriesAgree_iff`).
-/

set_option autoImplicit false

namespace Runvane.Persistence

open Library Domain

/-! ### The queries -/

def MemoryStore.countRuns (s : MemoryStore) (f : RunFilter) : Except StorageError ℕ :=
  .ok (s.runs.values.countP f.matchesRun)

namespace SqliteStore

/-- The rows that are read for a filter, which are those of its tenant if it has one. -/
def rowsFor (s : SqliteStore) (f : RunFilter) : List RunRow :=
  match f.tenant with
  | some tenant => Sql.select s.runs fun row ↦
      Sql.compares (· == ·) (some row.tenant) (some tenant)
  | none => s.runs.values

/-- The runs that match a filter, newest first. The order of the rows is left open by the statement.
-/
def listRuns (s : SqliteStore) (order : IterationOrder RunRow) (f : RunFilter) :
    Except StorageError (List Run) :=
  .ok (f.applyOrder (((order.arrange (s.rowsFor f)).map RunRow.document).filter f.matchesRun))

/-- The number of runs that match a filter: as many as are listed. -/
def countRuns (s : SqliteStore) (order : IterationOrder RunRow) (f : RunFilter) :
    Except StorageError ℕ :=
  (s.listRuns order f).map List.length

end SqliteStore

/-! ### Pages -/

namespace RunFilter

/-- How many of `n` runs the page of a filter shows. A limit of zero still shows one. -/
def shown (f : RunFilter) (n : ℕ) : ℕ :=
  match f.limit with
  | none => n - f.offset
  | some limit => min (n - f.offset) (max limit 1)

theorem length_collect (limit : ℕ) (taken : ℕ) (runs : List Run) :
    (collect (some limit) taken runs).length = min runs.length (max (limit - taken) 1) := by
  induction runs generalizing taken with
  | nil => simp [collect]
  | cons run runs ih =>
    simp only [collect, Option.any_some, decide_eq_true_eq, List.length_cons]
    split_ifs with hreached
    · simp only [List.length_nil]
      omega
    · rw [ih]
      omega

theorem length_applyOrder (f : RunFilter) (runs : List Run) :
    (f.applyOrder runs).length = f.shown runs.length := by
  unfold applyOrder shown
  cases f.limit with
  | none => simp [collect_none]
  | some limit => simp [length_collect]

theorem perm_applyOrder {f : RunFilter} (hlimit : f.limit = none) (hoffset : f.offset = 0)
    (runs : List Run) : (f.applyOrder runs).Perm runs := by
  unfold applyOrder
  rw [hlimit, hoffset, collect_none, List.drop_zero]
  exact List.perm_insertionSort _ runs

theorem shown_le (f : RunFilter) (n : ℕ) : f.shown n ≤ n := by
  unfold shown
  cases f.limit <;> dsimp only <;> omega

/-- The page has room for `n` runs. -/
def HasRoom (f : RunFilter) (n : ℕ) : Prop :=
  n = 0 ∨ f.offset = 0 ∧ ∀ limit, f.limit = some limit → n ≤ max limit 1

theorem shown_eq_iff (f : RunFilter) (n : ℕ) : f.shown n = n ↔ f.HasRoom n := by
  unfold shown HasRoom
  cases f.limit with
  | none => simp only [reduceCtorEq, false_implies, implies_true, and_true]; omega
  | some limit => simp only [Option.some.injEq, forall_eq']; omega

end RunFilter

/-! ### Writes -/

inductive RunWrite
  | putRun (run : Run)
  | deleteRun (id : RunId)
  | cancelRun (id : RunId) (nowMs : ℤ)

def MemoryStore.write (s : MemoryStore) : RunWrite → MemoryStore
  | .putRun run => (s.putRun run).2
  | .deleteRun id => (s.deleteRun id).2
  | .cancelRun id nowMs => (s.cancelRun id nowMs).2

def SqliteStore.write (s : SqliteStore) : RunWrite → SqliteStore
  | .putRun run => (s.putRun run).2
  | .deleteRun id => (s.deleteRun id).2
  | .cancelRun id nowMs => (s.cancelRun id nowMs).2

def MemoryStore.written (writes : List RunWrite) : MemoryStore := writes.foldl .write .new

/-- An SQL store that starts empty, after writes. -/
def SqliteStore.written (writes : List RunWrite) : SqliteStore := writes.foldl .write .new

/-- What a write does to the tenant under which a run is filed: the write that inserts the run
decides, and later ones leave it. -/
def fileStep (id : RunId) (filed : Option String) : RunWrite → Option String
  | .putRun run => if run.id = id then some (filed.getD run.tenant) else filed
  | .deleteRun deleted => if deleted = id then none else filed
  | .cancelRun .. => filed

def filedUnder (writes : List RunWrite) (id : RunId) : Option String :=
  writes.foldl (fileStep id) none

section Steps

variable {mem : MemoryStore} {sql : SqliteStore}

theorem get?_putRun (sql : SqliteStore) (run : Run) (id : RunId) :
    (sql.putRun run).2.runs.get? id =
      if run.id = id then some (((sql.runs.get? id).map fun old ↦
        SqliteStore.overwriteRun old (SqliteStore.runRow run)).getD (SqliteStore.runRow run))
      else sql.runs.get? id := by
  have hkey : ∀ old excluded, (SqliteStore.overwriteRun old excluded).id = old.id := fun _ _ ↦ rfl
  exact Sql.get?_upsert (SqliteStore.runRow run) hkey id

theorem get?_deleteRun (sql : SqliteStore) (deleted id : RunId) :
    (sql.deleteRun deleted).2.runs.get? id =
      if deleted = id then none else sql.runs.get? id := by
  unfold SqliteStore.deleteRun
  rw [Sql.get?_delete]
  cases hrow : sql.runs.get? id with
  | none => simp
  | some row =>
    have hid : row.id = id := KeyedMap.key_of_get? hrow
    by_cases heq : deleted = id
    · simp [Sql.compares, hid, heq]
    · simp [Sql.compares, hid, heq, Ne.symm heq]

/-- A cancellation leaves the columns of the tenant as they are. -/
theorem tenant_cancelRun (sql : SqliteStore) (cancelled : RunId) (nowMs : ℤ) (id : RunId) :
    ((sql.cancelRun cancelled nowMs).2.runs.get? id).map RunRow.tenant =
      (sql.runs.get? id).map RunRow.tenant := by
  unfold SqliteStore.cancelRun
  cases (sql.runs.get? cancelled).map RunRow.document with
  | none => rfl
  | some run =>
    dsimp only
    split_ifs
    · rfl
    · rw [Sql.get?_update, Option.map_map]
      refine congrFun (congrArg Option.map (funext fun row ↦ ?_)) _
      simp only [Function.comp_apply]
      split_ifs <;> rfl

theorem Matched.write (h : Matched mem sql) (write : RunWrite) :
    Matched (mem.write write) (sql.write write) := by
  cases write with
  | putRun run =>
    refine ⟨h.queue, fun id ↦ ?_⟩
    have hmem : (mem.write (.putRun run)).runs.get? id =
        if run.id = id then some run else mem.runs.get? id := KeyedMap.get?_put ..
    rw [hmem]
    refine Eq.trans ?_ (congrArg _ (get?_putRun sql run id)).symm
    split_ifs
    · cases sql.runs.get? id <;> rfl
    · exact h.runs id
  | deleteRun deleted =>
    refine ⟨h.queue, fun id ↦ ?_⟩
    have hmem : (mem.write (.deleteRun deleted)).runs.get? id =
        if deleted = id then none else mem.runs.get? id := KeyedMap.get?_erase ..
    rw [hmem]
    refine Eq.trans ?_ (congrArg _ (get?_deleteRun sql deleted id)).symm
    split_ifs
    · rfl
    · exact h.runs id
  | cancelRun id nowMs => exact (alike_cancelRun h nowMs).2

theorem tenant_write (sql : SqliteStore) (write : RunWrite) (id : RunId) :
    ((sql.write write).runs.get? id).map RunRow.tenant =
      fileStep id ((sql.runs.get? id).map RunRow.tenant) write := by
  cases write with
  | putRun run =>
    refine (congrArg _ (get?_putRun sql run id)).trans ?_
    dsimp only [fileStep]
    split_ifs
    · cases sql.runs.get? id <;> rfl
    · rfl
  | deleteRun deleted =>
    refine (congrArg _ (get?_deleteRun sql deleted id)).trans ?_
    dsimp only [fileStep]
    split_ifs <;> rfl
  | cancelRun cancelled nowMs => exact tenant_cancelRun sql cancelled nowMs id

end Steps

/-- Both stores hold the same runs after the same writes. -/
theorem matched_written (writes : List RunWrite) :
    Matched (MemoryStore.written writes) (SqliteStore.written writes) := by
  have hstep : ∀ {mem : MemoryStore} {sql : SqliteStore}, Matched mem sql →
      Matched (writes.foldl .write mem) (writes.foldl .write sql) := by
    induction writes with
    | nil => exact id
    | cons write writes ih => exact fun h ↦ ih (h.write write)
  exact hstep ⟨rfl, fun id ↦ by simp [MemoryStore.new, SqliteStore.new]⟩

/-- The column of the tenant holds the tenant under which the run is filed. -/
theorem tenant_written (writes : List RunWrite) (id : RunId) :
    ((SqliteStore.written writes).runs.get? id).map RunRow.tenant = filedUnder writes id := by
  have hstep : ∀ (sql : SqliteStore), ((writes.foldl .write sql).runs.get? id).map RunRow.tenant =
      writes.foldl (fileStep id) ((sql.runs.get? id).map RunRow.tenant) := by
    induction writes with
    | nil => exact fun _ ↦ rfl
    | cons write writes ih =>
      intro sql
      rw [List.foldl_cons, ih, tenant_write, List.foldl_cons]
  exact (hstep .new).trans (by simp [SqliteStore.new, filedUnder])

/-! ### Agreement -/

def stored (writes : List RunWrite) : List Run := (MemoryStore.written writes).runs.values

/-- What the backends are meant to answer after the same writes: both count the stored runs that
match, and both list these when the filter asks for no page. -/
structure QueriesAgree (writes : List RunWrite) (order : IterationOrder Run)
    (rowOrder : IterationOrder RunRow) (f : RunFilter) : Prop where
  memory_count : (MemoryStore.written writes).countRuns f =
    .ok ((stored writes).countP f.matchesRun)
  sqlite_count : (SqliteStore.written writes).countRuns rowOrder f =
    .ok ((stored writes).countP f.matchesRun)
  lists : f.limit = none → f.offset = 0 → ∃ found found',
    (MemoryStore.written writes).listRuns order f = .ok found ∧
    (SqliteStore.written writes).listRuns rowOrder f = .ok found' ∧
    found.Perm ((stored writes).filter f.matchesRun) ∧
    found'.Perm ((stored writes).filter f.matchesRun)

/-- The stored runs that match are filed under the tenant of the filter, if it has one. -/
def FiledAsAsked (writes : List RunWrite) (f : RunFilter) : Prop :=
  ∀ tenant, f.tenant = some tenant → ∀ run ∈ stored writes, f.matchesRun run →
    filedUnder writes run.id = some tenant

def RunFilter.reads (f : RunFilter) (row : RunRow) : Bool := f.tenant.all (row.tenant == ·)

theorem rowsFor_eq (s : SqliteStore) (f : RunFilter) :
    s.rowsFor f = s.runs.values.filter f.reads := by
  unfold SqliteStore.rowsFor RunFilter.reads
  cases f.tenant with
  | none => simp
  | some tenant =>
    refine List.filter_congr fun row _ ↦ ?_
    rw [Bool.eq_iff_iff]
    simp [Sql.compares]

section Written

variable (writes : List RunWrite) (f : RunFilter)

def matchingRows : List RunRow :=
  (SqliteStore.written writes).runs.values.filter (f.matchesRun ·.document)

theorem document_of_mem {row : RunRow} (h : row ∈ (SqliteStore.written writes).runs.values) :
    (MemoryStore.written writes).runs.get? row.id = some row.document := by
  rw [(matched_written writes).runs, KeyedMap.mem_values.mp h]
  rfl

theorem document_id {row : RunRow} (h : row ∈ (SqliteStore.written writes).runs.values) :
    row.document.id = row.id := by
  have hdocument := document_of_mem writes h
  exact KeyedMap.key_of_get? hdocument

theorem perm_documents :
    ((SqliteStore.written writes).runs.values.map RunRow.document).Perm (stored writes) := by
  have hids : ((SqliteStore.written writes).runs.values.map RunRow.document).map Run.id =
      (SqliteStore.written writes).runs.values.map RunRow.id := by
    rw [List.map_map]
    exact List.map_congr_left fun row hrow ↦ document_id writes hrow
  have hnodup : ((SqliteStore.written writes).runs.values.map RunRow.document).Nodup := by
    refine List.Nodup.of_map Run.id ?_
    rw [hids]
    exact KeyedMap.nodup_keys _
  refine (List.perm_ext_iff_of_nodup hnodup (KeyedMap.nodup_values _)).mpr fun run ↦ ?_
  rw [KeyedMap.mem_values, (matched_written writes).runs, List.mem_map, Option.map_eq_some_iff]
  constructor
  · rintro ⟨row, hrow, rfl⟩
    exact ⟨row, (document_id writes hrow).symm ▸ KeyedMap.mem_values.mp hrow, rfl⟩
  · rintro ⟨row, hrow, rfl⟩
    refine ⟨row, KeyedMap.mem_values.mpr ?_, rfl⟩
    rwa [KeyedMap.key_of_get? hrow]

theorem perm_matchingRows :
    ((matchingRows writes f).map RunRow.document).Perm ((stored writes).filter f.matchesRun) := by
  have hfilter : (matchingRows writes f).map RunRow.document =
      ((SqliteStore.written writes).runs.values.map RunRow.document).filter f.matchesRun := by
    rw [List.filter_map]
    rfl
  rw [hfilter]
  exact (perm_documents writes).filter _

/-- What is left of the rows that are read once the filter is applied. -/
theorem perm_listed (rowOrder : IterationOrder RunRow) :
    (((rowOrder.arrange ((SqliteStore.written writes).rowsFor f)).map RunRow.document).filter
      f.matchesRun).Perm (((matchingRows writes f).filter f.reads).map RunRow.document) := by
  refine (((rowOrder.perm _).map _).filter _).trans ?_
  rw [rowsFor_eq, List.filter_map, matchingRows, List.filter_filter, List.filter_filter]
  simp only [Bool.and_comm, Function.comp_apply]
  exact .rfl

/-- The rows that are read are all that match exactly if these are filed as asked. -/
theorem reads_iff_filedAsAsked :
    (∀ row ∈ matchingRows writes f, f.reads row = true) ↔ FiledAsAsked writes f := by
  have hcolumn : ∀ row ∈ (SqliteStore.written writes).runs.values,
      filedUnder writes row.id = some row.tenant := fun row hrow ↦ by
    rw [← tenant_written, KeyedMap.mem_values.mp hrow]
    rfl
  constructor
  · intro h tenant htenant run hrun hmatches
    obtain ⟨row, hrow, rfl⟩ := List.mem_map.mp ((perm_documents writes).mem_iff.mpr hrun)
    have hread := h row (List.mem_filter.mpr ⟨hrow, hmatches⟩)
    rw [document_id writes hrow, hcolumn row hrow]
    simpa [RunFilter.reads, htenant] using hread
  · intro h row hmatching
    obtain ⟨hrow, hmatches⟩ := List.mem_filter.mp hmatching
    unfold RunFilter.reads
    cases htenant : f.tenant with
    | none => rfl
    | some tenant =>
      have hfiled := h tenant htenant row.document
        ((perm_documents writes).mem_iff.mp (List.mem_map_of_mem hrow)) hmatches
      rw [document_id writes hrow, hcolumn row hrow] at hfiled
      simpa using hfiled

/-- The SQL store counts the page of the rows that it reads. -/
theorem countRuns_eq (rowOrder : IterationOrder RunRow) :
    (SqliteStore.written writes).countRuns rowOrder f =
      .ok (f.shown ((matchingRows writes f).countP f.reads)) := by
  unfold SqliteStore.countRuns SqliteStore.listRuns
  rw [Except.map, RunFilter.length_applyOrder, (perm_listed writes f rowOrder).length_eq,
    List.length_map, List.countP_eq_length_filter]

theorem countP_stored : (stored writes).countP f.matchesRun = (matchingRows writes f).length := by
  rw [List.countP_eq_length_filter, ← (perm_matchingRows writes f).length_eq, List.length_map]

/-- The SQL store counts all that match exactly if they are filed as asked and the page has room. -/
theorem sqlite_count_iff (rowOrder : IterationOrder RunRow) :
    (SqliteStore.written writes).countRuns rowOrder f = .ok ((stored writes).countP f.matchesRun) ↔
      FiledAsAsked writes f ∧ f.HasRoom ((stored writes).countP f.matchesRun) := by
  rw [countRuns_eq, countP_stored, Except.ok.injEq, ← reads_iff_filedAsAsked,
    ← List.countP_eq_length, ← RunFilter.shown_eq_iff]
  constructor
  · intro h
    have hshown := f.shown_le ((matchingRows writes f).countP f.reads)
    have hread : (matchingRows writes f).countP f.reads ≤ (matchingRows writes f).length :=
      List.countP_le_length
    have hall : (matchingRows writes f).countP f.reads = (matchingRows writes f).length := by omega
    exact ⟨hall, hall ▸ h⟩
  · rintro ⟨hall, hroom⟩
    rw [hall, hroom]

theorem lists_of_filedAsAsked (order : IterationOrder Run) (rowOrder : IterationOrder RunRow)
    (hfiled : FiledAsAsked writes f) (hlimit : f.limit = none) (hoffset : f.offset = 0) :
    ∃ found found',
      (MemoryStore.written writes).listRuns order f = .ok found ∧
      (SqliteStore.written writes).listRuns rowOrder f = .ok found' ∧
      found.Perm ((stored writes).filter f.matchesRun) ∧
      found'.Perm ((stored writes).filter f.matchesRun) := by
  refine ⟨_, _, rfl, rfl, ?_, ?_⟩
  · exact (RunFilter.perm_applyOrder hlimit hoffset _).trans ((order.perm _).filter _)
  · refine (RunFilter.perm_applyOrder hlimit hoffset _).trans
      ((perm_listed writes f rowOrder).trans ?_)
    rw [List.filter_eq_self.mpr ((reads_iff_filedAsAsked writes f).mpr hfiled)]
    exact perm_matchingRows writes f

end Written

/-- The backends agree on a filter after writes exactly if the stored runs that match are filed
under the tenant the filter asks for, and its page has room for all of them. -/
theorem queriesAgree_iff (writes : List RunWrite) (order : IterationOrder Run)
    (rowOrder : IterationOrder RunRow) (f : RunFilter) :
    QueriesAgree writes order rowOrder f ↔
      FiledAsAsked writes f ∧ f.HasRoom ((stored writes).countP f.matchesRun) := by
  constructor
  · intro h
    exact (sqlite_count_iff writes f rowOrder).mp h.sqlite_count
  · intro h
    exact
      { memory_count := rfl
        sqlite_count := (sqlite_count_iff writes f rowOrder).mpr h
        lists := lists_of_filedAsAsked writes f order rowOrder h.1 }

/-- A run that is stored again with another tenant is not found under it; and of two stored runs a
filter with a limit of one counts one. -/
theorem queries_disagree :
    ¬ QueriesAgree
      [.putRun { id := ⟨"rn_1"⟩, tenant := "acme", defName := "ship" },
        .putRun { id := ⟨"rn_1"⟩, tenant := "globex", defName := "ship" }]
      ⟨id, fun _ ↦ .rfl⟩ ⟨id, fun _ ↦ .rfl⟩ { tenant := some "globex" } ∧
    ¬ QueriesAgree
      [.putRun { id := ⟨"rn_1"⟩, tenant := "acme", defName := "ship" },
        .putRun { id := ⟨"rn_2"⟩, tenant := "acme", defName := "ship" }]
      ⟨id, fun _ ↦ .rfl⟩ ⟨id, fun _ ↦ .rfl⟩ { limit := some 1 } := by
  constructor
  · intro h
    have hcount := h.sqlite_count
    revert hcount
    decide
  · intro h
    have hcount := h.sqlite_count
    revert hcount
    decide

end Runvane.Persistence
