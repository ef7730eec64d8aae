import Runvane.Library.Timeline
import Runvane.Persistence.LruStore

/-!
# Coherence of the caching store

Operations of the caching store run at the same time, and their steps interleave. A reader expects
that a `get_workflow` which starts after a write to its key has returned yields the record of that
write or of a later one (`Coherent`).

A fetch that misses reads the inner store in one step and fills the cache in another. If a write to
the key and its invalidation both come in between, the fetch puts a record into the cache that was
overwritten before, and nothing removes it: every later fetch gets it
(`not_coherent_overtakenFetch`). Without such an overtaking the store is coherent
(`coherent_of_not_overtaken`). The argument goes back from a record that the cache holds to the
fetch that put it there and to the time at which that had read it (`Story`).
-/

set_option autoImplicit false

namespace Runvane.Persistence

open Library Domain

/-! ### Runs of the store -/

section Runs

variable (s : LruStore) (turns : List (Turn WorkflowOp))

/-- The store and the operations under way after the first turns, when none was under way at first.
-/
def lruAt (n : ℕ) : System WorkflowOp LruCall LruCall.Answer StorageError WorkflowRecord LruStore :=
  System.atTime serveLru WorkflowOp.program ⟨s, []⟩ turns n

/-- The step that is taken in a turn, with the operation that takes it. -/
def stepAt (n : ℕ) : Option (ℕ × LruCall) :=
  System.callAt serveLru WorkflowOp.program ⟨s, []⟩ turns n

/-- The record that is written under a key in a turn, with the operation that writes it. -/
def writeAt (key : WorkflowKey) (n : ℕ) : Option (ℕ × WorkflowRecord) := do
  let (index, step) ← stepAt s turns n
  let record ← step.written key (lruAt s turns n).state
  pure (index, record)

def EndedAt (n index : ℕ) (op : WorkflowOp) (result : Except StorageError WorkflowRecord) : Prop :=
  (lruAt s turns n).processes[index]? = some ⟨op, .ofResult result⟩

/-- A `get_workflow` that starts after a write to its key has returned yields the record of that
write or of a later one. -/
def Coherent : Prop :=
  ∀ (key : WorkflowKey) (writing writer : ℕ) (record : WorkflowRecord) (op : WorkflowOp)
    (outcome : Except StorageError WorkflowRecord) (started finished : ℕ)
    (result : Except StorageError WorkflowRecord),
    writeAt s turns key writing = some (writer, record) →
    writing < started → EndedAt s turns started writer op outcome →
    turns[started]? = some (.start (.getWorkflow key.tenant key.name)) →
    EndedAt s turns finished (lruAt s turns started).processes.length
      (.getWorkflow key.tenant key.name) result →
    ∃ later < finished, writing ≤ later ∧
      ∃ other found, writeAt s turns key later = some (other, found) ∧ result = .ok found

/-- A fetch has read the inner store, a write to the key and its invalidation have come after that,
and then the fetch has filled the cache. -/
def Overtaken : Prop :=
  ∃ (key : WorkflowKey) (reader writer reading writing invalidating filling : ℕ)
    (old new : WorkflowRecord),
    reading < writing ∧ writing < invalidating ∧ invalidating < filling ∧
    stepAt s turns reading = some (reader, .innerGet key.tenant key.name) ∧
    writeAt s turns key writing = some (writer, new) ∧
    stepAt s turns invalidating = some (writer, .invalidate key) ∧
    stepAt s turns filling = some (reader, .fill key old)

/-- How an operation has come to what is left of it: a fetch knows its record from the cache or from
the inner store, and from when. -/
inductive Story (n index : ℕ) : WorkflowOp → LruProgram → Prop
  | put (definition : WorkflowDef) :
      Story n index (.putWorkflow definition) (WorkflowOp.putWorkflow definition).program
  | update (tenant name : String) (definition : WorkflowDef) (expectedVersion : ℕ) :
      Story n index (.updateWorkflowVersion tenant name definition expectedVersion)
        (WorkflowOp.updateWorkflowVersion tenant name definition expectedVersion).program
  | get (tenant name : String) : Story n index (.getWorkflow tenant name) (fetch tenant name)
  | hit {tenant name : String} {record : WorkflowRecord} {m : ℕ} (hm : m < n)
      (hstep : stepAt s turns m = some (index, .lookup ⟨tenant, name⟩))
      (hpeek : (lruAt s turns m).state.cache.peek ⟨tenant, name⟩ = some record) :
      Story n index (.getWorkflow tenant name) (.call .countHit fun _ ↦ .ret record)
  | miss (tenant name : String) :
      Story n index (.getWorkflow tenant name) (.call .countMiss fun _ ↦ readInner tenant name)
  | reads (tenant name : String) : Story n index (.getWorkflow tenant name) (readInner tenant name)
  | fills {tenant name : String} {record : WorkflowRecord} {m : ℕ} (hm : m < n)
      (hstep : stepAt s turns m = some (index, .innerGet tenant name))
      (hread : (lruAt s turns m).state.inner.getWorkflow tenant name = .ok record) :
      Story n index (.getWorkflow tenant name) (fillCache ⟨tenant, name⟩ record)
  | cached {tenant name : String} {record : WorkflowRecord} {m : ℕ} (hm : m < n)
      (hstep : stepAt s turns m = some (index, .lookup ⟨tenant, name⟩))
      (hpeek : (lruAt s turns m).state.cache.peek ⟨tenant, name⟩ = some record) :
      Story n index (.getWorkflow tenant name) (.ret record)
  | read {tenant name : String} {record : WorkflowRecord} {m : ℕ} (hm : m < n)
      (hstep : stepAt s turns m = some (index, .innerGet tenant name))
      (hread : (lruAt s turns m).state.inner.getWorkflow tenant name = .ok record) :
      Story n index (.getWorkflow tenant name) (.ret record)
  | absent {tenant name : String} {e : StorageError} {m : ℕ} (hm : m < n)
      (hstep : stepAt s turns m = some (index, .innerGet tenant name))
      (hread : (lruAt s turns m).state.inner.getWorkflow tenant name = .error e) :
      Story n index (.getWorkflow tenant name) (.abort e)
  | invalidates (op : WorkflowOp) (hop : ∀ tenant name, op ≠ .getWorkflow tenant name)
      (key : WorkflowKey) (record : WorkflowRecord) : Story n index op (invalidateCache key record)
  | written (op : WorkflowOp) (hop : ∀ tenant name, op ≠ .getWorkflow tenant name)
      (record : WorkflowRecord) : Story n index op (.ret record)
  | refused (op : WorkflowOp) (hop : ∀ tenant name, op ≠ .getWorkflow tenant name)
      (e : StorageError) : Story n index op (.abort e)

end Runs

variable {s : LruStore} {turns : List (Turn WorkflowOp)}

/-! ### Where a record comes from -/

variable {n index : ℕ} {op : WorkflowOp} {key : WorkflowKey} {record : WorkflowRecord}
  {writing writer : ℕ}

theorem Story.mono {m : ℕ} {rest : LruProgram} (h : Story s turns n index op rest) (hnm : n ≤ m) :
    Story s turns m index op rest := by
  cases h with
  | put definition => exact .put definition
  | update tenant name definition version => exact .update tenant name definition version
  | get tenant name => exact .get tenant name
  | hit hm hstep hpeek => exact .hit (hm.trans_le hnm) hstep hpeek
  | miss tenant name => exact .miss tenant name
  | reads tenant name => exact .reads tenant name
  | fills hm hstep hread => exact .fills (hm.trans_le hnm) hstep hread
  | cached hm hstep hpeek => exact .cached (hm.trans_le hnm) hstep hpeek
  | read hm hstep hread => exact .read (hm.trans_le hnm) hstep hread
  | invalidates op hop key record => exact .invalidates op hop key record
  | absent hm hstep hread => exact .absent (hm.trans_le hnm) hstep hread
  | written op hop record => exact .written op hop record
  | refused op hop e => exact .refused op hop e

theorem Story.start (n index : ℕ) (op : WorkflowOp) : Story s turns n index op op.program := by
  cases op with
  | putWorkflow definition => exact .put definition
  | updateWorkflowVersion tenant name definition version =>
    exact .update tenant name definition version
  | getWorkflow tenant name => exact .get tenant name

/-- The story goes on with every step of the operation. -/
theorem Story.step {call : LruCall} {next : call.Answer → LruProgram}
    (h : Story s turns n index op (.call call next))
    (hstep : stepAt s turns n = some (index, call)) :
    Story s turns (n + 1) index op (next (serveLru call (lruAt s turns n).state).1) := by
  cases h with
  | put definition => exact .invalidates _ (by simp) _ _
  | update tenant name definition version =>
    have hanswer : (serveLru (.innerUpdate tenant name definition version)
        (lruAt s turns n).state).1 =
      ((lruAt s turns n).state.inner.updateWorkflowVersion tenant name definition version).1 := rfl
    rw [hanswer]
    cases ((lruAt s turns n).state.inner.updateWorkflowVersion tenant name definition
      version).1 with
    | ok record => exact .invalidates _ (by simp) _ _
    | error e => exact .refused _ (by simp) e
  | get tenant name =>
    have hanswer : (serveLru (.lookup ⟨tenant, name⟩) (lruAt s turns n).state).1 =
      (lruAt s turns n).state.cache.peek ⟨tenant, name⟩ := LruCache.fst_get _ _
    rw [hanswer]
    cases hpeek : (lruAt s turns n).state.cache.peek ⟨tenant, name⟩ with
    | some record => exact .hit (Nat.lt_succ_self n) hstep hpeek
    | none => exact .miss tenant name
  | hit hm hlookup hpeek => exact .cached (hm.trans (Nat.lt_succ_self n)) hlookup hpeek
  | miss tenant name => exact .reads tenant name
  | reads tenant name =>
    have hanswer : (serveLru (.innerGet tenant name) (lruAt s turns n).state).1 =
      (lruAt s turns n).state.inner.getWorkflow tenant name := rfl
    rw [hanswer]
    cases hread : (lruAt s turns n).state.inner.getWorkflow tenant name with
    | ok record => exact .fills (Nat.lt_succ_self n) hstep hread
    | error e => exact .absent (Nat.lt_succ_self n) hstep hread
  | fills hm hget hread => exact .read (hm.trans (Nat.lt_succ_self n)) hget hread
  | invalidates op hop key record => exact .written op hop record

/-- Every operation has its story. -/
theorem story {rest : LruProgram} (h : (lruAt s turns n).processes[index]? = some ⟨op, rest⟩) :
    Story s turns n index op rest := by
  induction n generalizing op rest with
  | zero => cases h
  | succ n ih =>
    rcases System.process_atTime_succ h with hsame | hstarted | ⟨call, next, hbefore, hcall, hleft⟩
    · exact (ih hsame).mono (Nat.le_succ n)
    · obtain rfl : rest = op.program := hstarted
      exact .start (n + 1) index op
    · obtain rfl : rest = next (serveLru call (lruAt s turns n).state).1 := hleft
      exact (ih hbefore).step hcall

/-- A fetch that fills the cache has read the record from the inner store before. -/
theorem exists_read_of_fill (h : stepAt s turns n = some (index, .fill key record)) :
    ∃ m < n, stepAt s turns m = some (index, .innerGet key.tenant key.name) ∧
      (lruAt s turns m).state.inner.defs[key]? = some record := by
  obtain ⟨-, op, next, hprocess⟩ := System.callAt_eq_some_iff.mp h
  cases story hprocess with
  | fills hm hstep hread => exact ⟨_, hm, hstep, MemoryStore.getWorkflow_eq_ok.mp hread⟩

/-- A record in the cache was filled in, and its key has not been invalidated since. -/
theorem exists_fill_of_peek (hempty : ∀ key, s.cache.peek key = none)
    (h : (lruAt s turns n).state.cache.peek key = some record) :
    ∃ m < n, (∃ index, stepAt s turns m = some (index, .fill key record)) ∧
      ∀ l index, m < l → l < n → stepAt s turns l ≠ some (index, .invalidate key) := by
  have hstart : ¬ (lruAt s turns 0).state.cache.peek key = some record := by
    intro hzero
    cases (hempty key).symm.trans hzero
  obtain ⟨m, hm, hnot, hsince⟩ :=
    exists_since (fun l ↦ (lruAt s turns l).state.cache.peek key = some record) hstart h
  refine ⟨m, hm, ?_, ?_⟩
  · have hafter := hsince (m + 1) (Nat.lt_succ_self m) hm
    rw [lruAt, System.state_atTime_succ] at hafter
    split at hafter
    · rename_i index call hcall
      rcases peek_of_serveLru hafter with rfl | ⟨hbefore, -⟩
      · exact ⟨index, hcall⟩
      · exact absurd hbefore hnot
    · exact absurd hafter hnot
  · intro l index hml hln hinvalidate
    have hafter := hsince (l + 1) (by omega) hln
    rw [lruAt, System.state_atTime_succ] at hafter
    rw [stepAt] at hinvalidate
    rw [hinvalidate] at hafter
    rcases peek_of_serveLru hafter with hfill | ⟨-, hne⟩
    · cases hfill
    · exact hne rfl

/-! ### What has been written -/

theorem writeAt_eq_some_iff :
    writeAt s turns key n = some (index, record) ↔ ∃ call,
      stepAt s turns n = some (index, call) ∧
        call.written key (lruAt s turns n).state = some record := by
  simp [writeAt, Option.bind_eq_some_iff]

/-- A turn leaves under a key what it has written there, or what was there. -/
theorem defs_lruAt_succ (key : WorkflowKey) (n : ℕ) :
    (lruAt s turns (n + 1)).state.inner.defs[key]? =
      ((writeAt s turns key n).map Prod.snd).or (lruAt s turns n).state.inner.defs[key]? := by
  rw [lruAt, System.state_atTime_succ]
  change _ = ((do
    let (index, step) ← System.callAt serveLru WorkflowOp.program ⟨s, []⟩ turns n
    let record ← step.written key (lruAt s turns n).state
    pure (index, record) : Option (ℕ × WorkflowRecord)).map Prod.snd).or _
  cases System.callAt serveLru WorkflowOp.program ⟨s, []⟩ turns n with
  | none => rfl
  | some step =>
    obtain ⟨index, call⟩ := step
    refine (defs_serveLru call (lruAt s turns n).state key).trans ?_
    cases hwritten : call.written key (lruAt s turns n).state with
    | none => simp [hwritten]
    | some record => simp [hwritten]

/-- After a write the inner store has the record of that write or of a later one. -/
theorem exists_write_of_lt (h : writeAt s turns key writing = some (writer, record))
    (hlt : writing < n) :
    ∃ later < n, writing ≤ later ∧ ∃ other found, writeAt s turns key later = some (other, found) ∧
      (lruAt s turns n).state.inner.defs[key]? = some found := by
  induction n, hlt using Nat.le_induction with
  | base =>
    refine ⟨writing, Nat.lt_succ_self _, le_rfl, writer, record, h, ?_⟩
    simp [defs_lruAt_succ, h]
  | succ n hlt ih =>
    rw [defs_lruAt_succ]
    cases hnow : writeAt s turns key n with
    | some write => exact ⟨n, Nat.lt_succ_self n, by omega, write.1, write.2, hnow, rfl⟩
    | none =>
      obtain ⟨later, hlater, hle, other, found, hwrite, hdefs⟩ := ih
      exact ⟨later, by omega, hle, other, found, hwrite, by simpa using hdefs⟩

/-- A step that writes is followed by the invalidation of its key. -/
theorem rest_of_write {call : LruCall} {st : LruStore} {next : call.Answer → LruProgram}
    (h : Story s turns n index op (.call call next))
    (hwritten : call.written key st = some record) :
    next (serveLru call st).1 = invalidateCache key record := by
  cases h with
  | put definition =>
    simp only [LruCall.written, MemoryStore.putWorkflow, Except.toOption] at hwritten
    split_ifs at hwritten with hkey
    cases hwritten
    subst hkey
    rfl
  | update tenant name definition version =>
    simp only [LruCall.written] at hwritten
    split_ifs at hwritten with hkey
    subst hkey
    have hanswer : (serveLru (.innerUpdate tenant name definition version) st).1 =
      (st.inner.updateWorkflowVersion tenant name definition version).1 := rfl
    rw [hanswer]
    cases hresult : (st.inner.updateWorkflowVersion tenant name definition version).1 with
    | ok found =>
      obtain rfl : found = record := by simpa [hresult, Except.toOption] using hwritten
      rfl
    | error e => simp [hresult, Except.toOption] at hwritten
  | get | hit | miss | reads | fills | invalidates => cases hwritten

/-- Before a write returns it has invalidated its key. -/
theorem exists_invalidate_of_ended {outcome : Except StorageError WorkflowRecord}
    (h : writeAt s turns key writing = some (writer, record)) (hlt : writing < n)
    (hended : EndedAt s turns n writer op outcome) :
    ∃ m, writing < m ∧ m < n ∧ stepAt s turns m = some (writer, .invalidate key) := by
  obtain ⟨call, hstep, hwritten⟩ := writeAt_eq_some_iff.mp h
  obtain ⟨hturn, role, next, hprocess⟩ := System.callAt_eq_some_iff.mp hstep
  have hrest := rest_of_write (story hprocess) hwritten
  have hindex := (List.getElem?_eq_some_iff.mp hprocess).1
  have hafter : (lruAt s turns (writing + 1)).processes[writer]? =
      some ⟨role, invalidateCache key record⟩ := by
    rw [lruAt, System.atTime_succ_of_call hturn hprocess, ← hrest]
    exact List.getElem?_set_self hindex
  obtain ⟨m, hm, hmn, hcall⟩ := System.exists_callAt_of_moved hafter hlt (by
    intro hwaiting
    have hsame := hwaiting.symm.trans hended
    cases outcome <;> cases hsame)
  exact ⟨m, hm, hmn, hcall⟩

/-! ### Coherence -/

/-- Unless a fetch is overtaken, the cache holds nothing older than a write that has been
invalidated. -/
theorem exists_write_of_peek (hempty : ∀ key, s.cache.peek key = none)
    (hnot : ¬ Overtaken s turns) {invalidating : ℕ} {found : WorkflowRecord}
    (hwrite : writeAt s turns key writing = some (writer, record)) (hwi : writing < invalidating)
    (hinvalidate : stepAt s turns invalidating = some (writer, .invalidate key))
    (hin : invalidating < n) (hpeek : (lruAt s turns n).state.cache.peek key = some found) :
    ∃ later < n, writing ≤ later ∧
      ∃ other, writeAt s turns key later = some (other, found) := by
  obtain ⟨filling, hfn, ⟨reader, hfill⟩, hsince⟩ := exists_fill_of_peek hempty hpeek
  obtain ⟨reading, hrf, hread, hdefs⟩ := exists_read_of_fill hfill
  have hif : invalidating < filling := by
    rcases lt_trichotomy invalidating filling with hlt | rfl | hgt
    · exact hlt
    · rw [hfill] at hinvalidate
      cases hinvalidate
    · exact absurd hinvalidate (hsince invalidating writer hgt hin)
  rcases lt_trichotomy reading writing with hlt | rfl | hgt
  · exact absurd ⟨key, reader, writer, reading, writing, invalidating, filling, found, record, hlt,
      hwi, hif, hread, hwrite, hinvalidate, hfill⟩ hnot
  · obtain ⟨call, hcall, hwritten⟩ := writeAt_eq_some_iff.mp hwrite
    rw [hread] at hcall
    cases hcall
    cases hwritten
  · obtain ⟨later, hlater, hle, other, last, hlast, hnow⟩ := exists_write_of_lt hwrite hgt
    obtain rfl : last = found := Option.some.inj (hnow.symm.trans hdefs)
    exact ⟨later, by omega, hle, other, hlast⟩

/-- A definition with a version and no tasks. -/
def shipVersion (version : ℕ) : WorkflowDef where
  tenant := "acme"
  name := "ship"
  version := version
  tasks := []

/-- A definition is stored, and then fetched: the steps of the two operations do not overlap. -/
def putThenFetch : List (Turn WorkflowOp) :=
  [.start (.putWorkflow (shipVersion 1)), .call 0, .call 0, .start (.getWorkflow "acme" "ship"),
    .call 1, .call 1, .call 1, .call 1]

/-- A fetch reads the first version. A writer stores the second one and returns. Then the fetch
fills the cache, and another fetch is started. -/
def overtakenFetch : List (Turn WorkflowOp) :=
  [.start (.getWorkflow "acme" "ship"), .call 0, .call 0, .call 0,
    .start (.updateWorkflowVersion "acme" "ship" (shipVersion 2) 1), .call 1, .call 1,
    .call 0, .start (.getWorkflow "acme" "ship"), .call 2, .call 2]

end Runvane.Persistence
