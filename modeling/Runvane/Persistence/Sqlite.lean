import Runvane.Library.SqlTable
import Runvane.Persistence.Memory

/-!
# The SQL store

The methods of `persistence/sqlite.rs` on definitions, runs, task runs, run numbers and the queue,
over the tables they use. Each method holds the lock of the connection, and `cancel_run` runs in a
transaction, so each is one step on the tables. The statements are translated clause by clause;
columns that no statement reads are left out. A document column holds the record it was encoded
from. Decoding a task run parses its ids again, and fails when a parser does not accept them; all
other fields, and all other records, come back as they were written.
-/

set_option autoImplicit false

namespace Runvane.Persistence

open Library Domain

/-- A row of the table of definitions. -/
structure WorkflowRow where
  tenant : String
  name : String
  version : ℕ
  document : WorkflowDef

/-- The primary key of a definition. -/
def WorkflowRow.key (row : WorkflowRow) : WorkflowKey := ⟨row.tenant, row.name⟩

structure RunRow where
  id : RunId
  tenant : String
  status : RunStatus
  document : Run

structure TaskRunRow where
  id : TaskRunId
  runId : RunId
  taskName : String
  status : TaskStatus
  document : TaskRun

structure RunCounterRow where
  defName : String
  n : Sql.Count

/-- The SQL backend. -/
structure SqliteStore where
  runs : KeyedMap RunRow.id
  queueEntries : KeyedMap QueueEntry.runId
  taskRuns : KeyedMap TaskRunRow.id
  workflows : KeyedMap WorkflowRow.key
  runCounters : KeyedMap RunCounterRow.defName

namespace SqliteStore

open Sql

def new : SqliteStore := ⟨.empty, .empty, .empty, .empty, .empty⟩

/-! ### The queue -/

/-- The clause `run_id = ?`. -/
def runIdIs (runId : RunId) (row : QueueEntry) : Truth :=
  compares (· == ·) (some row.runId) (some runId)

/-- The clause `token = ?`. -/
def tokenIs (token : ClaimToken) (row : QueueEntry) : Truth :=
  compares (· == ·) (some row.token) (some token)

/-- What the guarded statements have in common: no row is a lost claim. -/
def claimGuardOp (s : SqliteStore) (runId : RunId) (executed : ℕ × KeyedMap QueueEntry.runId) :
    Except StorageError Unit × SqliteStore :=
  (if executed.1 = 0 then .error (.claimLost s!"run {runId.text}") else .ok (),
    { s with queueEntries := executed.2 })

/-- Inserts a queue entry; a second one for the run violates the primary key. -/
def enqueue (s : SqliteStore) (entry : QueueEntry) : Except StorageError Unit × SqliteStore :=
  match Sql.insert s.queueEntries entry with
  | none => (.error (.backend "UNIQUE constraint failed: queue_entries.run_id"), s)
  | some queueEntries => (.ok (), { s with queueEntries := queueEntries })

/-- Up to `limit` entries that are due and not leased, earliest first. The order of entries that are
due at one time is left open by the statement; it comes from the order in which the rows are read.
-/
def scanReady (s : SqliteStore) (order : IterationOrder QueueEntry) (nowMs : ℤ) (limit : ℕ) :
    Except StorageError (List QueueEntry) :=
  .ok (Sql.limit (i64OfU64 limit) ((order.arrange (Sql.select s.queueEntries fun row ↦
    Sql.and (compares (· ≤ ·) (some row.dueAtMs) (some nowMs))
      (Sql.or (isNull row.leaseUntilMs) (compares (· ≤ ·) row.leaseUntilMs (some nowMs)))
    )).insertionSort (·.dueAtMs ≤ ·.dueAtMs)))

/-- Leases the entry to the token until `nowMs + leaseMs`. Leases that have run out are left to
`recoverExpiredLeases`. -/
def claim (s : SqliteStore) (runId : RunId) (token : ClaimToken) (nowMs leaseMs : ℤ) :
    Except StorageError Unit × SqliteStore :=
  s.claimGuardOp runId (Sql.update s.queueEntries
    (fun row ↦ Sql.and (runIdIs runId row) (Sql.or (isNull row.leaseUntilMs) (tokenIs token row)))
    (fun row ↦ row.leased token (i64Add nowMs leaseMs)) fun _ ↦ rfl)

/-- Removes the entry. -/
def ack (s : SqliteStore) (runId : RunId) (token : ClaimToken) :
    Except StorageError Unit × SqliteStore :=
  s.claimGuardOp runId (Sql.delete s.queueEntries
    fun row ↦ Sql.and (runIdIs runId row) (tokenIs token row))

/-- Clears the lease and schedules the entry again. -/
def release (s : SqliteStore) (runId : RunId) (token : ClaimToken) (retryAtMs : ℤ) :
    Except StorageError Unit × SqliteStore :=
  s.claimGuardOp runId (Sql.update s.queueEntries
    (fun row ↦ Sql.and (runIdIs runId row) (tokenIs token row))
    (fun row ↦ { row.unleased with dueAtMs := retryAtMs }) fun _ ↦ rfl)

/-- Clears the lease. -/
def failclaim (s : SqliteStore) (runId : RunId) (token : ClaimToken) :
    Except StorageError Unit × SqliteStore :=
  s.claimGuardOp runId (Sql.update s.queueEntries
    (fun row ↦ Sql.and (runIdIs runId row) (tokenIs token row))
    QueueEntry.unleased QueueEntry.runId_unleased)

/-- Extends the lease to `nowMs + extendByMs`. -/
def renewLease (s : SqliteStore) (runId : RunId) (token : ClaimToken) (nowMs extendByMs : ℤ) :
    Except StorageError Unit × SqliteStore :=
  s.claimGuardOp runId (Sql.update s.queueEntries
    (fun row ↦ Sql.and (Sql.and (runIdIs runId row) (tokenIs token row))
      (compares (fun expiry now ↦ expiry > now) row.leaseUntilMs (some nowMs)))
    (fun row ↦ { row with leaseUntilMs := some (i64Add nowMs extendByMs) }) fun _ ↦ rfl)

/-- Clears every lease that has run out, and counts them. -/
def recoverExpiredLeases (s : SqliteStore) (nowMs : ℤ) : Except StorageError ℕ × SqliteStore :=
  let changed := Sql.update s.queueEntries
    (fun row ↦ Sql.and (isNotNull row.leaseUntilMs)
      (compares (fun expiry now ↦ expiry ≤ now) row.leaseUntilMs (some nowMs)))
    QueueEntry.unleased QueueEntry.runId_unleased
  (.ok changed.1, { s with queueEntries := changed.2 })

/-! ### Runs -/

def runRow (run : Run) : RunRow where
  id := run.id
  tenant := run.tenant
  status := run.status
  document := run

/-- What a row of a run takes over from one that was excluded because of it. It keeps its tenant. -/
def overwriteRun (old excluded : RunRow) : RunRow :=
  { old with status := excluded.status, document := excluded.document }

def putRun (s : SqliteStore) (run : Run) : Except StorageError Unit × SqliteStore :=
  (.ok (), { s with runs := Sql.upsert s.runs (runRow run) overwriteRun })

def getRun (s : SqliteStore) (id : RunId) : Except StorageError Run :=
  match s.runs.get? id with
  | some row => .ok row.document
  | none => .error (.notFound s!"run {id.text}")

def deleteRun (s : SqliteStore) (id : RunId) : Except StorageError Unit × SqliteStore :=
  (.ok (), { s with
    taskRuns := (Sql.delete s.taskRuns fun row ↦ compares (· == ·) (some row.runId) (some id)).2
    runs := (Sql.delete s.runs fun row ↦ compares (· == ·) (some row.id) (some id)).2 })

/-- Cancels a run that is not terminal, and removes its queue entry whoever holds it. -/
def cancelRun (s : SqliteStore) (runId : RunId) (nowMs : ℤ) :
    Except StorageError Bool × SqliteStore :=
  match (s.runs.get? runId).map RunRow.document with
  | none => (.error (.notFound s!"run {runId.text}"), s)
  | some run =>
    if run.isTerminal then (.ok false, s)
    else
      let run := { run with status := .cancelled, finishedAtMs := some nowMs, error := none }
      (.ok true,
        { s with
          runs := (Sql.update s.runs
            (fun row ↦ compares (· == ·) (some row.id) (some runId))
            (fun row ↦ { row with status := run.status, document := run }) fun _ ↦ rfl).2
          queueEntries := (Sql.delete s.queueEntries (runIdIs runId)).2 })

/-! ### Task runs -/

def taskRunRow (tr : TaskRun) : TaskRunRow where
  id := tr.id
  runId := tr.runId
  taskName := tr.taskName
  status := tr.status
  document := tr

def takeOver (old excluded : TaskRunRow) : TaskRunRow :=
  { old with status := excluded.status, document := excluded.document }

def putTaskRun (s : SqliteStore) (tr : TaskRun) : Except StorageError Unit × SqliteStore :=
  (.ok (), { s with taskRuns := Sql.upsert s.taskRuns (taskRunRow tr) takeOver })

/-- The error for a document that cannot be decoded; `detail` is the deserializer's text. -/
def conversionError (detail : String) : StorageError :=
  .backend s!"Conversion error from type Text at index: 0, {detail}"

/-- Decodes a stored task run. The deserializer renders the error of an id parser together with the
position in the document, as `render` says. -/
def decodeTaskRun (render : IdError → String) (document : TaskRun) : Except StorageError TaskRun :=
  match Id.parse .taskRun document.id.text with
  | .error e => .error (conversionError (render e))
  | .ok id =>
    match Id.parse .run document.runId.text with
    | .error e => .error (conversionError (render e))
    | .ok runId => .ok { document with id := id, runId := runId }

def getTaskRun (s : SqliteStore) (render : IdError → String) (id : TaskRunId) :
    Except StorageError TaskRun :=
  match s.taskRuns.get? id with
  | none => .error (.notFound s!"task run {id.text}")
  | some row => decodeTaskRun render row.document

/-- The task runs of a run, ordered by task name; one that cannot be decoded fails the query. -/
def listTaskRunsForRun (s : SqliteStore) (render : IdError → String) (runId : RunId) :
    Except StorageError (List TaskRun) :=
  ((Sql.select s.taskRuns fun row ↦ compares (· == ·) (some row.runId) (some runId)).insertionSort
    (·.taskName ≤ ·.taskName)).mapM fun row ↦ decodeTaskRun render row.document

/-! ### Definitions and run numbers -/

/-- The row that is inserted for a definition. -/
def workflowRow (d : WorkflowDef) : WorkflowRow where
  tenant := d.tenant
  name := d.name
  version := d.version
  document := d

/-- What a row of a definition takes over from one that was excluded because of it. -/
def overwriteWorkflow (old excluded : WorkflowRow) : WorkflowRow :=
  { old with version := excluded.version, document := excluded.document }

/-- The clause `tenant = ? AND name = ?`. -/
def workflowIs (tenant name : String) (row : WorkflowRow) : Truth :=
  Sql.and (compares (· == ·) (some row.tenant) (some tenant))
    (compares (· == ·) (some row.name) (some name))

/-- Stores a definition, creating or replacing its natural key. -/
def putWorkflow (s : SqliteStore) (d : WorkflowDef) :
    Except StorageError WorkflowRecord × SqliteStore :=
  (.ok ⟨d⟩, { s with workflows := Sql.upsert s.workflows (workflowRow d) overwriteWorkflow })

/-- Replaces the definition under a natural key by its next version, if the stored one has the
version the caller expects. -/
def updateWorkflowVersion (s : SqliteStore) (tenant name : String) (d : WorkflowDef)
    (expectedVersion : ℕ) : Except StorageError WorkflowRecord × SqliteStore :=
  match s.workflows.get? ⟨tenant, name⟩ with
  | none => (.error (.notFound s!"workflow {tenant}/{name}"), s)
  | some row =>
    if row.version ≠ expectedVersion then
      (.error (.concurrentModification s!"workflow {tenant}/{name}"), s)
    else if d.version ≠ u32Succ expectedVersion then
      (.error (.conflict
        s!"workflow {tenant}/{name} version must be {expectedVersion}+1, got {d.version}"), s)
    else (.ok ⟨d⟩, { s with workflows := (Sql.update s.workflows (workflowIs tenant name)
      (fun row ↦ { row with version := d.version, document := d }) fun _ ↦ rfl).2 })

/-- Loads a definition by its natural key. -/
def getWorkflow (s : SqliteStore) (tenant name : String) : Except StorageError WorkflowRecord :=
  match s.workflows.get? ⟨tenant, name⟩ with
  | some row => .ok ⟨row.document⟩
  | none => .error (.notFound s!"workflow {tenant}/{name}")

/-- The clause `n = n + 1`. -/
def countUp (old _excluded : RunCounterRow) : RunCounterRow := { old with n := old.n.succ }

/-- The number of the next run of a definition, counted per definition name. A count that has left
the range of integers cannot be read. -/
def nextRunNumber (s : SqliteStore) (defName : String) : Except StorageError ℕ × SqliteStore :=
  let runCounters := Sql.upsert s.runCounters ⟨defName, .integer 1⟩ countUp
  (match runCounters.get? defName with
    | some ⟨_, .integer n⟩ => .ok (u64OfI64 n)
    | some ⟨_, .real⟩ => .error (.backend "Invalid column type Real at index: 0, name: n")
    | none => .error (.backend "Query returned no rows"),
    { s with runCounters := runCounters })

end SqliteStore

end Runvane.Persistence
