import Runvane.Library.CallProgram
import Runvane.Library.LruCache
import Runvane.Persistence.Memory

/-!
# The caching store

`LruStore` puts a cache in front of the definitions of a store: `get_workflow` answers from the
cache and fills it on a miss, and the two writes drop their key from the cache when the inner store
has taken them. The cache has a lock of its own, so an operation is a program of several steps: a
lookup, a read of the inner store, an insertion into the cache; or a write to the inner store and an
invalidation. The other operations are those of the inner store.

What a step does to a key is said once, for the inner store and for the cache. What holds when the
steps of several operations interleave is the subject of `Runvane.Persistence.LruCoherence`.
-/

set_option autoImplicit false

namespace Runvane.Persistence

open Library Domain

/-! ### The store and its steps -/

/-- The store, its cache by natural key, and the totals of hits and misses. -/
structure LruStore where
  inner : MemoryStore
  cache : LruCache WorkflowKey WorkflowRecord
  hits : ℕ
  misses : ℕ

/-- The number of definitions that are kept by default. -/
def defaultCacheCapacity : ℕ := 128

/-- Wraps a store, with a cache of a capacity that is not zero. -/
def LruStore.withCapacity (inner : MemoryStore) (capacity : ℕ) (h : 0 < capacity) : LruStore :=
  ⟨inner, .new capacity h, 0, 0⟩

def LruStore.wrap (inner : MemoryStore) : LruStore :=
  .withCapacity inner defaultCacheCapacity (by decide)

/-- A step of an operation, under one lock or on one counter. -/
inductive LruCall
  | lookup (key : WorkflowKey)
  | countHit
  | countMiss
  | innerGet (tenant name : String)
  | fill (key : WorkflowKey) (record : WorkflowRecord)
  | innerPut (definition : WorkflowDef)
  | innerUpdate (tenant name : String) (definition : WorkflowDef) (expectedVersion : ℕ)
  | invalidate (key : WorkflowKey)

/-- What a step yields. -/
abbrev LruCall.Answer : LruCall → Type
  | lookup _ => Option WorkflowRecord
  | countHit | countMiss | fill .. | invalidate _ => Unit
  | innerGet .. | innerPut _ | innerUpdate .. => Except StorageError WorkflowRecord

/-- The steps on the store. -/
def serveLru : Server LruCall LruCall.Answer LruStore
  | .lookup key, s => ((s.cache.get key).1, { s with cache := (s.cache.get key).2 })
  | .countHit, s => ((), { s with hits := u64Succ s.hits })
  | .countMiss, s => ((), { s with misses := u64Succ s.misses })
  | .innerGet tenant name, s => (s.inner.getWorkflow tenant name, s)
  | .fill key record, s => ((), { s with cache := s.cache.put key record })
  | .innerPut definition, s =>
    ((s.inner.putWorkflow definition).1, { s with inner := (s.inner.putWorkflow definition).2 })
  | .innerUpdate tenant name definition expectedVersion, s =>
    let after := s.inner.updateWorkflowVersion tenant name definition expectedVersion
    (after.1, { s with inner := after.2 })
  | .invalidate key, s => ((), { s with cache := s.cache.pop key })

/-! ### The operations -/

/-- The steps of an operation, and the record or the failure it ends with. -/
abbrev LruProgram := CallProgram LruCall LruCall.Answer StorageError WorkflowRecord

/-- The end of a fetch that has read the inner store: the record goes into the cache. -/
def fillCache (key : WorkflowKey) (record : WorkflowRecord) : LruProgram :=
  .call (.fill key record) fun _ ↦ .ret record

/-- The rest of a fetch that has not found its key in the cache. -/
def readInner (tenant name : String) : LruProgram :=
  .call (.innerGet tenant name) fun
    | .ok record => fillCache ⟨tenant, name⟩ record
    | .error e => .abort e

/-- Answers from the cache, or from the inner store, whose record the cache then gets. -/
def fetch (tenant name : String) : LruProgram :=
  .call (.lookup ⟨tenant, name⟩) fun
    | some record => .call .countHit fun _ ↦ .ret record
    | none => .call .countMiss fun _ ↦ readInner tenant name

/-- The end of a write that the inner store has taken: its key is dropped from the cache. -/
def invalidateCache (key : WorkflowKey) (record : WorkflowRecord) : LruProgram :=
  .call (.invalidate key) fun _ ↦ .ret record

inductive WorkflowOp
  | putWorkflow (definition : WorkflowDef)
  | updateWorkflowVersion (tenant name : String) (definition : WorkflowDef) (expectedVersion : ℕ)
  | getWorkflow (tenant name : String)

/-- The steps of an operation of the caching store. -/
def WorkflowOp.program : WorkflowOp → LruProgram
  | putWorkflow definition => .call (.innerPut definition) fun
    | .ok record => invalidateCache ⟨record.definition.tenant, record.definition.name⟩ record
    | .error e => .abort e
  | updateWorkflowVersion tenant name definition expectedVersion =>
    .call (.innerUpdate tenant name definition expectedVersion) fun
      | .ok record => invalidateCache ⟨tenant, name⟩ record
      | .error e => .abort e
  | getWorkflow tenant name => fetch tenant name

/-! ### What a step does to a key -/

def LruCall.written (key : WorkflowKey) (s : LruStore) : LruCall → Option WorkflowRecord
  | innerPut definition =>
    if WorkflowKey.mk definition.tenant definition.name = key then
      (s.inner.putWorkflow definition).1.toOption else none
  | innerUpdate tenant name definition expectedVersion =>
    if WorkflowKey.mk tenant name = key then
      (s.inner.updateWorkflowVersion tenant name definition expectedVersion).1.toOption else none
  | lookup _ | countHit | countMiss | innerGet .. | fill .. | invalidate _ => none

/-- The inner store has under a key what a step has written there, or what it had. -/
theorem defs_serveLru (call : LruCall) (s : LruStore) (key : WorkflowKey) :
    (serveLru call s).2.inner.defs[key]? = (call.written key s).or s.inner.defs[key]? := by
  cases call with
  | innerPut definition =>
    simp only [serveLru, LruCall.written, MemoryStore.putWorkflow, Std.ExtTreeMap.getElem?_insert,
      Std.LawfulEqOrd.compare_eq_iff_eq, Except.toOption]
    split_ifs <;> rfl
  | innerUpdate tenant name definition expectedVersion =>
    simp only [serveLru, LruCall.written, MemoryStore.updateWorkflowVersion]
    cases s.inner.defs[WorkflowKey.mk tenant name]? with
    | none => simp [Except.toOption]
    | some current =>
      simp only
      split_ifs <;> simp_all [Except.toOption, Std.ExtTreeMap.getElem?_insert]
  | lookup | countHit | countMiss | innerGet | fill | invalidate => rfl

/-- What the cache holds after a step, the step put there, or it held it before and the step did not
invalidate it. -/
theorem peek_of_serveLru {call : LruCall} {s : LruStore} {key : WorkflowKey}
    {record : WorkflowRecord}
    (h : (serveLru call s).2.cache.peek key = some record) :
    call = .fill key record ∨ (s.cache.peek key = some record ∧ call ≠ .invalidate key) := by
  cases call with
  | lookup other => exact .inr ⟨LruCache.peek_of_peek_get h, by simp⟩
  | fill other new =>
    by_cases hother : key = other
    · subst hother
      obtain rfl : new = record := by simpa [serveLru, LruCache.peek_put_self] using h
      exact .inl rfl
    · exact .inr ⟨LruCache.peek_of_peek_put hother h, by simp⟩
  | invalidate other =>
    refine .inr ⟨LruCache.peek_of_peek_pop h, ?_⟩
    rintro ⟨rfl⟩
    simp [serveLru] at h
  | countHit | countMiss | innerGet | innerPut | innerUpdate => exact .inr ⟨h, by simp⟩

end Runvane.Persistence
