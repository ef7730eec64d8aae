import Runvane.Domain.Workflow
import Runvane.Library.KeyedMap
import Runvane.Library.MachineInt

/-!
# The in-memory store

The records of `persistence/model.rs` and the store of `persistence/memory.rs`, one function per
method of the `Store` trait that the engine's core calls. Every method is one critical section, so
it is one step on the whole state. Runs, task runs and queue entries are only ever written under
the id they carry, which makes their tables keyed maps. A method that fails leaves the store as it
was; the methods on leases succeed only for the holder of the token.

The code's tables are hash maps. Their iteration order shows in one answer that the engine uses,
that of `scanReady`, and is a parameter there.
-/

set_option autoImplicit false

namespace Runvane.Persistence

open Library Domain

/-! ### Records -/

/-- A structured failure of the persistence layer. -/
inductive StorageError
  | conflict (message : String)
  | notFound (message : String)
  | concurrentModification (message : String)
  | schema (message : String)
  | backend (message : String)
  | claimLost (message : String)
  deriving DecidableEq, Repr

structure WorkflowRecord where
  definition : WorkflowDef

/-- The natural key of a definition. -/
structure WorkflowKey where
  tenant : String
  name : String
  deriving DecidableEq, Repr

instance : Ord WorkflowKey :=
  ⟨fun a b ↦ (compare a.tenant b.tenant).then (compare a.name b.name)⟩

instance : Std.TransOrd WorkflowKey :=
  inferInstanceAs (Std.TransCmp (compareLex (compareOn WorkflowKey.tenant)
    (compareOn WorkflowKey.name)))

instance : Std.LawfulEqOrd WorkflowKey where
  eq_of_compare {a b} h := by
    obtain ⟨htenant, hname⟩ := Ordering.then_eq_eq.mp h
    cases a
    cases b
    simp_all

/-- A token that guards the lease of a queue entry. -/
structure ClaimToken where
  text : String
  deriving DecidableEq, Repr

/-- The token of an entry nobody holds. -/
def ClaimToken.empty : ClaimToken := ⟨""⟩

structure QueueEntry where
  runId : RunId
  token : ClaimToken
  dueAtMs : ℤ
  leaseUntilMs : Option ℤ
  claimedBy : Option String
  deriving DecidableEq, Repr

namespace QueueEntry

/-- Whether the entry is claimed and its lease has not run out. -/
def isLeased (e : QueueEntry) (nowMs : ℤ) : Bool :=
  match e.leaseUntilMs with
  | some expiry => nowMs < expiry
  | none => false

/-- Whether the entry may be scanned by a dispatcher. -/
def isReady (e : QueueEntry) (nowMs : ℤ) : Bool := decide (e.dueAtMs ≤ nowMs) && !e.isLeased nowMs

def isExpired (e : QueueEntry) (nowMs : ℤ) : Bool :=
  match e.leaseUntilMs with
  | some expiry => expiry ≤ nowMs
  | none => false

def unleased (e : QueueEntry) : QueueEntry :=
  { e with token := .empty, claimedBy := none, leaseUntilMs := none }

theorem runId_unleased (e : QueueEntry) : e.unleased.runId = e.runId := rfl

def leased (e : QueueEntry) (token : ClaimToken) (untilMs : ℤ) : QueueEntry :=
  { e with token := token, claimedBy := some "dispatcher", leaseUntilMs := some untilMs }

end QueueEntry

/-- An order in which a hash map may yield its values. -/
structure IterationOrder (V : Type) where
  arrange : List V → List V
  perm : ∀ values, (arrange values).Perm values

/-- The values as they are stored. -/
def IterationOrder.stored {V : Type} : IterationOrder V := ⟨id, fun _ ↦ .refl _⟩

/-! ### The store -/

structure MemoryStore where
  runs : KeyedMap Run.id
  taskRuns : KeyedMap TaskRun.id
  defs : Std.ExtTreeMap WorkflowKey WorkflowRecord
  queue : KeyedMap QueueEntry.runId
  runNumbers : Std.ExtTreeMap String ℕ

variable (s : MemoryStore) (runId : RunId)

namespace MemoryStore

def new : MemoryStore := ⟨.empty, .empty, ∅, .empty, ∅⟩

/-- Stores a definition, creating or replacing its natural key. -/
def putWorkflow (s : MemoryStore) (d : WorkflowDef) :
    Except StorageError WorkflowRecord × MemoryStore :=
  (.ok ⟨d⟩, { s with defs := s.defs.insert ⟨d.tenant, d.name⟩ ⟨d⟩ })

/-- Replaces the definition under a natural key by its next version, if the stored one has the
version the caller expects. -/
def updateWorkflowVersion (s : MemoryStore) (tenant name : String) (d : WorkflowDef)
    (expectedVersion : ℕ) : Except StorageError WorkflowRecord × MemoryStore :=
  match s.defs[WorkflowKey.mk tenant name]? with
  | none => (.error (.notFound s!"workflow {tenant}/{name}"), s)
  | some current =>
    if current.definition.version ≠ expectedVersion then
      (.error (.concurrentModification s!"workflow {tenant}/{name}"), s)
    else if d.version ≠ u32Succ expectedVersion then
      (.error (.conflict
        s!"workflow {tenant}/{name} version must be {expectedVersion}+1, got {d.version}"), s)
    else (.ok ⟨d⟩, { s with defs := s.defs.insert ⟨tenant, name⟩ ⟨d⟩ })

/-- Loads a definition by its natural key. -/
def getWorkflow (s : MemoryStore) (tenant name : String) : Except StorageError WorkflowRecord :=
  match s.defs[WorkflowKey.mk tenant name]? with
  | some record => .ok record
  | none => .error (.notFound s!"workflow {tenant}/{name}")

@[simp] theorem getWorkflow_eq_ok {s : MemoryStore} {tenant name : String}
    {record : WorkflowRecord} : s.getWorkflow tenant name = .ok record ↔
      s.defs[WorkflowKey.mk tenant name]? = some record := by
  unfold getWorkflow
  cases s.defs[WorkflowKey.mk tenant name]? <;> simp

/-- Inserts or replaces a run by its id. -/
def putRun (s : MemoryStore) (run : Run) : Except StorageError Unit × MemoryStore :=
  (.ok (), { s with runs := s.runs.put run })

def getRun (s : MemoryStore) (id : RunId) : Except StorageError Run :=
  match s.runs.get? id with
  | some run => .ok run
  | none => .error (.notFound s!"run {id.text}")

@[simp] theorem getRun_eq_ok {s : MemoryStore} {id : RunId} {run : Run} :
    s.getRun id = .ok run ↔ s.runs.get? id = some run := by
  unfold getRun
  cases s.runs.get? id <;> simp

def deleteRun (s : MemoryStore) (id : RunId) : Except StorageError Unit × MemoryStore :=
  (.ok (), { s with runs := s.runs.erase id, taskRuns := s.taskRuns.filter (·.runId ≠ id) })

/-- Inserts or replaces a task run by its id. -/
def putTaskRun (s : MemoryStore) (tr : TaskRun) : Except StorageError Unit × MemoryStore :=
  (.ok (), { s with taskRuns := s.taskRuns.put tr })

def getTaskRun (s : MemoryStore) (id : TaskRunId) : Except StorageError TaskRun :=
  match s.taskRuns.get? id with
  | some tr => .ok tr
  | none => .error (.notFound s!"task run {id.text}")

@[simp] theorem getTaskRun_eq_ok {s : MemoryStore} {id : TaskRunId} {tr : TaskRun} :
    s.getTaskRun id = .ok tr ↔ s.taskRuns.get? id = some tr := by
  unfold getTaskRun
  cases s.taskRuns.get? id <;> simp

def listTaskRunsForRun (s : MemoryStore) (runId : RunId) : Except StorageError (List TaskRun) :=
  .ok ((s.taskRuns.values.filter (·.runId = runId)).insertionSort (·.taskName ≤ ·.taskName))

/-- The number of the next run of a definition, counted per definition name. -/
def nextRunNumber (s : MemoryStore) (defName : String) : Except StorageError ℕ × MemoryStore :=
  let next := u64Succ (s.runNumbers.getD defName 0)
  (.ok next, { s with runNumbers := s.runNumbers.insert defName next })

def enqueue (s : MemoryStore) (entry : QueueEntry) : Except StorageError Unit × MemoryStore :=
  match s.queue.get? entry.runId with
  | some _ => (.error (.conflict s!"already queued: {entry.runId.text}"), s)
  | none => (.ok (), { s with queue := s.queue.put entry })

/-- Up to `limit` entries that are due and not leased, earliest first. -/
def scanReady (s : MemoryStore) (order : IterationOrder QueueEntry) (nowMs : ℤ) (limit : ℕ) :
    Except StorageError (List QueueEntry) :=
  .ok ((((order.arrange s.queue.values).filter (·.isReady nowMs)).insertionSort
    (·.dueAtMs ≤ ·.dueAtMs)).take limit)

/-- Leases the entry to the token until `nowMs + leaseMs`. -/
def claim (s : MemoryStore) (runId : RunId) (token : ClaimToken) (nowMs leaseMs : ℤ) :
    Except StorageError Unit × MemoryStore :=
  match s.queue.get? runId with
  | none => (.error (.notFound s!"queue entry {runId.text}"), s)
  | some entry =>
    if entry.isLeased nowMs && entry.token != token then
      (.error (.claimLost s!"run {runId.text}"), s)
    else if entry.token.text.isEmpty && token.text.isEmpty && entry.isLeased nowMs then
      (.error (.claimLost s!"run {runId.text}"), s)
    else (.ok (), { s with queue := s.queue.put (entry.leased token (i64Add nowMs leaseMs)) })

/-- A claim is refused and changes nothing, or leases the entry. -/
theorem claim_cases (token : ClaimToken) (nowMs leaseMs : ℤ) :
    (∃ e, s.claim runId token nowMs leaseMs = (.error e, s)) ∨
      ∃ entry, s.queue.get? runId = some entry ∧ s.claim runId token nowMs leaseMs =
        (.ok (), { s with queue := s.queue.put (entry.leased token (i64Add nowMs leaseMs)) }) := by
  unfold claim
  cases s.queue.get? runId with
  | none => exact .inl ⟨_, rfl⟩
  | some entry =>
    dsimp only
    split_ifs
    · exact .inl ⟨_, rfl⟩
    · exact .inl ⟨_, rfl⟩
    · exact .inr ⟨entry, rfl, rfl⟩

/-- The guard that the methods of a lease holder share: the entry must be there, and meet the
condition under which it is the caller's. -/
def asHolder (s : MemoryStore) (runId : RunId) (held : QueueEntry → Bool)
    (act : QueueEntry → KeyedMap QueueEntry.runId) : Except StorageError Unit × MemoryStore :=
  match s.queue.get? runId with
  | none => (.error (.notFound s!"queue entry {runId.text}"), s)
  | some entry =>
    if !held entry then (.error (.claimLost s!"run {runId.text}"), s)
    else (.ok (), { s with queue := act entry })

/-- A method of a lease holder is refused and changes nothing, or acts on an entry that meets its
condition. -/
theorem asHolder_cases (held : QueueEntry → Bool) (act : QueueEntry → KeyedMap QueueEntry.runId) :
    (∃ e, s.asHolder runId held act = (.error e, s)) ∨
      ∃ entry, s.queue.get? runId = some entry ∧ held entry = true ∧
        s.asHolder runId held act = (.ok (), { s with queue := act entry }) := by
  unfold asHolder
  cases s.queue.get? runId with
  | none => exact .inl ⟨_, rfl⟩
  | some entry =>
    dsimp only
    split_ifs with hheld
    · exact .inl ⟨_, rfl⟩
    · exact .inr ⟨entry, rfl, by simpa using hheld, rfl⟩

/-- Removes the entry. -/
def ack (s : MemoryStore) (runId : RunId) (token : ClaimToken) :
    Except StorageError Unit × MemoryStore :=
  s.asHolder runId (·.token = token) fun _ ↦ s.queue.erase runId

/-- Clears the lease and schedules the entry again. -/
def release (s : MemoryStore) (runId : RunId) (token : ClaimToken) (retryAtMs : ℤ) :
    Except StorageError Unit × MemoryStore :=
  s.asHolder runId (·.token = token) fun entry ↦
    s.queue.put { entry.unleased with dueAtMs := retryAtMs }

/-- Clears the lease. -/
def failclaim (s : MemoryStore) (runId : RunId) (token : ClaimToken) :
    Except StorageError Unit × MemoryStore :=
  s.asHolder runId (·.token = token) fun entry ↦ s.queue.put entry.unleased

/-- Extends the lease to `nowMs + extendByMs`. -/
def renewLease (s : MemoryStore) (runId : RunId) (token : ClaimToken) (nowMs extendByMs : ℤ) :
    Except StorageError Unit × MemoryStore :=
  s.asHolder runId (fun entry ↦ entry.token = token && entry.isLeased nowMs) fun entry ↦
    s.queue.put { entry with leaseUntilMs := some (i64Add nowMs extendByMs) }

/-- Cancels a run that is not terminal, and removes its queue entry whoever holds it. -/
def cancelRun (s : MemoryStore) (runId : RunId) (nowMs : ℤ) :
    Except StorageError Bool × MemoryStore :=
  match s.runs.get? runId with
  | none => (.error (.notFound s!"run {runId.text}"), s)
  | some run =>
    if run.isTerminal then (.ok false, s)
    else
      (.ok true, { s with
        runs := s.runs.put
          { run with status := .cancelled, finishedAtMs := some nowMs, error := none }
        queue := s.queue.erase runId })

/-- A cancellation finds no run or a terminal one, and then changes nothing, or stores the run as
cancelled and takes its entry off the queue. -/
theorem cancelRun_cases (nowMs : ℤ) :
    ((∀ run, s.runs.get? runId = some run → run.isTerminal = true) ∧
        (s.cancelRun runId nowMs).2 = s) ∨
      ∃ run, s.runs.get? runId = some run ∧ run.isTerminal = false ∧
        (s.cancelRun runId nowMs).2 = { s with
          runs := s.runs.put
            { run with status := .cancelled, finishedAtMs := some nowMs, error := none }
          queue := s.queue.erase runId } := by
  unfold cancelRun
  cases s.runs.get? runId with
  | none => exact .inl ⟨by simp, rfl⟩
  | some run =>
    dsimp only
    split_ifs with hterminal
    · refine .inl ⟨fun found hfound ↦ ?_, rfl⟩
      obtain rfl := Option.some.inj hfound
      exact hterminal
    · exact .inr ⟨run, rfl, Bool.eq_false_of_not_eq_true hterminal, rfl⟩

theorem taskRuns_cancelRun (nowMs : ℤ) : (s.cancelRun runId nowMs).2.taskRuns = s.taskRuns := by
  rcases s.cancelRun_cases runId nowMs with ⟨-, hstore⟩ | ⟨run, -, -, hstore⟩ <;> rw [hstore]

def unleaseEntry (queue : KeyedMap QueueEntry.runId) (id : RunId) : KeyedMap QueueEntry.runId :=
  match queue.get? id with
  | some entry => queue.put entry.unleased
  | none => queue

/-- Clears every lease that has run out, and counts them. -/
def recoverExpiredLeases (s : MemoryStore) (nowMs : ℤ) : Except StorageError ℕ × MemoryStore :=
  let expired := (s.queue.values.filter (·.isExpired nowMs)).map QueueEntry.runId
  (.ok expired.length, { s with queue := expired.foldl unleaseEntry s.queue })

end MemoryStore

end Runvane.Persistence
