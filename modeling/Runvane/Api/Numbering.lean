import Runvane.Api.Submission
import Runvane.Persistence.Sqlite

/-!
# The numbers of runs

Every submission draws a number for its run from the store, under the name of the definition.
`Submissions` is the history of a store: runs are submitted over HTTP or gRPC, one after another,
and in between anything may happen that draws no number. It is the same for both backends. What they
have in common is how they draw (`DrawsNumbers`): the number under a name is one more than were
drawn under this name before, whoever drew them.

So the runs of each definition are numbered from one on exactly if the tenants that submit do not
share a name (`numberedFromOne_iff`).
-/

set_option autoImplicit false

namespace Runvane.Api

open Library Domain Persistence Scheduler Prog
open CallProgram (wp post_of_run)

/-! ### The SQL store as a server -/

def applySqlite (render : IdError → String) (order : IterationOrder QueueEntry) (s : SqliteStore) :
    (call : StoreCall) → call.Answer × SqliteStore
  | .putWorkflow d => s.putWorkflow d
  | .updateWorkflowVersion tenant name d expectedVersion =>
    s.updateWorkflowVersion tenant name d expectedVersion
  | .getWorkflow tenant name => (s.getWorkflow tenant name, s)
  | .putRun run => s.putRun run
  | .getRun id => (s.getRun id, s)
  | .deleteRun id => s.deleteRun id
  | .putTaskRun tr => s.putTaskRun tr
  | .getTaskRun id => (s.getTaskRun render id, s)
  | .listTaskRunsForRun runId => (s.listTaskRunsForRun render runId, s)
  | .nextRunNumber defName => s.nextRunNumber defName
  | .enqueue entry => s.enqueue entry
  | .scanReady nowMs limit => (s.scanReady order nowMs limit, s)
  | .claim runId token nowMs leaseMs => s.claim runId token nowMs leaseMs
  | .ack runId token => s.ack runId token
  | .release runId token retryAtMs => s.release runId token retryAtMs
  | .failclaim runId token => s.failclaim runId token
  | .renewLease runId token nowMs extendByMs => s.renewLease runId token nowMs extendByMs
  | .cancelRun runId nowMs => s.cancelRun runId nowMs
  | .recoverExpiredLeases nowMs => s.recoverExpiredLeases nowMs

/-- What lies outside the SQL store. Every answer may change from call to call. -/
structure SqliteEnv where
  render : IdError → String
  order : ℕ → IterationOrder QueueEntry
  clock : ℕ → ℤ
  registered : ℕ → HandlerId → Bool
  execute : ℕ → HandlerId → TaskContext → Option (Except HandlerError HandlerResult)
  token : ℕ → ClaimToken
  submit : ℕ → Job → Except SubmitError Unit

def SqliteEnv.answer (env : SqliteEnv) (s : SqliteStore) (calls : ℕ) :
    (call : Call) → call.Answer × SqliteStore
  | .store call => applySqlite env.render (env.order calls) s call
  | .nowMs => (env.clock calls, s)
  | .registryGet handler => (env.registered calls handler, s)
  | .execute handler ctx => (env.execute calls handler ctx, s)
  | .newToken => (env.token calls, s)
  | .submit job => (env.submit calls job, s)

def serveSqlite (env : SqliteEnv) : Server Call Call.Answer (SqliteStore × ℕ) :=
  fun call w ↦ ((env.answer w.1 w.2 call).1, (env.answer w.1 w.2 call).2, w.2 + 1)

/-! ### Drawing numbers -/

/-- How a store draws numbers. `drawn` says of a state how many numbers it has drawn under each
name. A number is one more than these, in 64 bits, and `granted` is what a count meets from which
one was drawn. -/
structure DrawsNumbers {σ : Type} (serve : Server Call Call.Answer σ)
    (drawn : σ → (String → ℕ) → Prop) (granted : ℕ → Prop) : Prop where
  draw : ∀ {s : σ} {counts : String → ℕ} {name : String} {number : ℕ}, drawn s counts →
    (serve (.store (.nextRunNumber name)) s).1 = .ok number →
    number = (counts name + 1) % 2 ^ 64 ∧ granted (counts name) ∧
      drawn (serve (.store (.nextRunNumber name)) s).2
        (Function.update counts name (counts name + 1))
  keep : ∀ {s : σ} {counts : String → ℕ} {call : Call},
    (∀ name, call ≠ .store (.nextRunNumber name)) → drawn s counts → drawn (serve call s).2 counts

/-- The in-memory store holds the counts in 64 bits. -/
def memoryDrawn (w : World) (counts : String → ℕ) : Prop :=
  ∀ name, w.store.runNumbers.getD name 0 = counts name % 2 ^ 64

/-- The number that a count is in the SQL store, in a row of its own from one on. -/
def countRow (name : String) (count : ℕ) : Option RunCounterRow :=
  if count = 0 then none
  else some ⟨name, if (count : ℤ) ≤ i64Max then .integer count else .real⟩

/-- The SQL store holds the counts as long as they are integers. -/
def sqliteDrawn (w : SqliteStore × ℕ) (counts : String → ℕ) : Prop :=
  ∀ name, w.1.runCounters.get? name = countRow name (counts name)

theorem runNumbers_asHolder (s : MemoryStore) (runId : RunId) (held : QueueEntry → Bool)
    (act : QueueEntry → KeyedMap QueueEntry.runId) :
    (s.asHolder runId held act).2.runNumbers = s.runNumbers := by
  rcases s.asHolder_cases runId held act with ⟨e, heq⟩ | ⟨entry, -, -, heq⟩ <;> rw [heq]

/-- No other call on the in-memory store touches the numbers. -/
theorem runNumbers_apply {order : IterationOrder QueueEntry} {s : MemoryStore} {call : StoreCall}
    (h : ∀ name, call ≠ .nextRunNumber name) :
    (call.apply order s).2.runNumbers = s.runNumbers := by
  cases call with
  | nextRunNumber name => exact absurd rfl (h name)
  | updateWorkflowVersion tenant name d expectedVersion =>
    dsimp only [StoreCall.apply, MemoryStore.updateWorkflowVersion]
    cases s.defs[WorkflowKey.mk tenant name]? with
    | none => rfl
    | some current =>
      dsimp only
      split_ifs <;> rfl
  | enqueue entry =>
    dsimp only [StoreCall.apply, MemoryStore.enqueue]
    cases s.queue.get? entry.runId <;> rfl
  | claim runId token nowMs leaseMs =>
    dsimp only [StoreCall.apply]
    rcases s.claim_cases runId token nowMs leaseMs with ⟨e, heq⟩ | ⟨entry, -, heq⟩
    · rw [heq]
    · rw [heq]
  | cancelRun runId nowMs =>
    dsimp only [StoreCall.apply]
    rcases s.cancelRun_cases runId nowMs with ⟨-, heq⟩ | ⟨run, -, -, heq⟩
    · rw [heq]
    · rw [heq]
  | ack | release | failclaim | renewLease => exact runNumbers_asHolder ..
  | putWorkflow | getWorkflow | putRun | getRun | deleteRun | putTaskRun | getTaskRun
  | listTaskRunsForRun | scanReady | recoverExpiredLeases => rfl

theorem drawsNumbers_memory (env : Env) :
    DrawsNumbers (serve env) memoryDrawn fun _ ↦ True where
  draw {w counts name number} hdrawn hnumber := by
    have hnext : u64Succ (w.store.runNumbers.getD name 0) = (counts name + 1) % 2 ^ 64 := by
      rw [hdrawn name, u64Succ, Nat.mod_add_mod]
    refine ⟨(Except.ok.inj hnumber).symm.trans hnext, trivial, fun other ↦ ?_⟩
    have hget : (w.after env (.store (.nextRunNumber name))).store.runNumbers.getD other 0 =
        if name = other then u64Succ (w.store.runNumbers.getD name 0)
        else w.store.runNumbers.getD other 0 := by
      simp [World.after, Env.answer, StoreCall.apply, MemoryStore.nextRunNumber,
        Std.ExtTreeMap.getD_insert]
    refine hget.trans ?_
    split_ifs with hname
    · rw [← hname, Function.update_self, hnext]
    · rw [Function.update_of_ne (Ne.symm hname), hdrawn other]
  keep {w counts call} hcall hdrawn := by
    have hsame : (w.after env call).store.runNumbers = w.store.runNumbers := by
      cases call with
      | store call => exact runNumbers_apply fun name heq ↦ hcall name (congrArg _ heq)
      | nowMs | registryGet | execute | newToken | submit => rfl
    intro name
    exact (congrArg (fun numbers ↦ numbers.getD name 0) hsame).trans (hdrawn name)

/-- No other call on the SQL store touches the numbers. -/
theorem runCounters_apply {render : IdError → String} {order : IterationOrder QueueEntry}
    {s : SqliteStore} {call : StoreCall} (h : ∀ name, call ≠ .nextRunNumber name) :
    (applySqlite render order s call).2.runCounters = s.runCounters := by
  cases call with
  | nextRunNumber name => exact absurd rfl (h name)
  | updateWorkflowVersion tenant name d expectedVersion =>
    dsimp only [applySqlite, SqliteStore.updateWorkflowVersion]
    cases s.workflows.get? ⟨tenant, name⟩ with
    | none => rfl
    | some row =>
      dsimp only
      split_ifs <;> rfl
  | enqueue entry =>
    dsimp only [applySqlite, SqliteStore.enqueue]
    cases Sql.insert s.queueEntries entry <;> rfl
  | cancelRun runId nowMs =>
    dsimp only [applySqlite, SqliteStore.cancelRun]
    cases (s.runs.get? runId).map RunRow.document with
    | none => rfl
    | some run =>
      dsimp only
      split_ifs <;> rfl
  | putWorkflow | getWorkflow | putRun | getRun | deleteRun | putTaskRun | getTaskRun
  | listTaskRunsForRun | scanReady | recoverExpiredLeases | claim | ack | release | failclaim
  | renewLease => rfl

/-- The statement that counts up turns the row of a count into that of the next. -/
theorem countRow_succ (name : String) (count : ℕ) :
    some (((countRow name count).map fun old ↦ SqliteStore.countUp old ⟨name, .integer 1⟩).getD
      ⟨name, .integer 1⟩) = countRow name (count + 1) := by
  unfold countRow SqliteStore.countUp Sql.Count.succ
  rcases Nat.eq_zero_or_pos count with rfl | hpos
  · simp [i64Max]
  · rw [if_neg hpos.ne', if_neg (Nat.succ_ne_zero count)]
    rcases lt_trichotomy (count : ℤ) i64Max with hlt | heq | hgt
    · simp [hlt, hlt.le]
    · simp [heq]
    · simp [hgt.not_ge, hgt.not_gt]

theorem drawsNumbers_sqlite (env : SqliteEnv) :
    DrawsNumbers (serveSqlite env) sqliteDrawn fun count ↦ count + 1 < 2 ^ 63 where
  draw {w counts name number} hdrawn hnumber := by
    have hget : ∀ other, (w.1.nextRunNumber name).2.runCounters.get? other =
        countRow other (Function.update counts name (counts name + 1) other) := by
      intro other
      have hkey : ∀ old excluded, (SqliteStore.countUp old excluded).defName = old.defName :=
        fun _ _ ↦ rfl
      refine (Sql.get?_upsert _ hkey other).trans ?_
      split_ifs with hname
      · obtain rfl : name = other := hname
        rw [hdrawn name, Function.update_self, countRow_succ]
      · rw [Function.update_of_ne (Ne.symm hname), hdrawn other]
    have hanswer : (w.1.nextRunNumber name).1 = .ok number := hnumber
    have hrow := hget name
    rw [Function.update_self] at hrow
    unfold SqliteStore.nextRunNumber at hanswer hrow
    dsimp only at hanswer hrow
    have hne : counts name + 1 ≠ 0 := Nat.succ_ne_zero _
    simp only [hrow, countRow, if_neg hne] at hanswer
    -- A count out of range is answered with an error, so this one is in range.
    split_ifs at hanswer with hle
    unfold i64Max at hle
    push_cast at hle
    refine ⟨?_, by omega, hget⟩
    rw [← Except.ok.inj hanswer, u64OfI64]
    omega
  keep {w counts call} hcall hdrawn := by
    have hsame : (serveSqlite env call w).2.1.runCounters = w.1.runCounters := by
      cases call with
      | store call => exact runCounters_apply fun name heq ↦ hcall name (congrArg _ heq)
      | nowMs | registryGet | execute | newToken | submit => rfl
    intro name
    rw [hsame]
    exact hdrawn name

/-! ### A submission draws one number -/

variable {counts : String → ℕ}

section Submission

variable {σ : Type} {serve : Server Call Call.Answer σ} {drawn : σ → (String → ℕ) → Prop}
  {granted : ℕ → Prop}

theorem wp_orThrow_bind {ε ε' α β : Type} {mid : σ → Prop} {post : β → σ → Prop} {wrap : ε' → ε}
    {result : Except ε' α} {rest : α → Prog ε β} {s : σ}
    (h : ∀ value, result = .ok value → wp serve mid post (fun _ _ ↦ True) (rest value) s) :
    wp serve mid post (fun _ _ ↦ True) (orThrow wrap result >>= rest) s := by
  cases result with
  | ok value => exact h value rfl
  | error e => trivial

theorem wp_persistSubmission (h : DrawsNumbers serve drawn granted) {s : σ} (hs : drawn s counts)
    (run : Run) (nowMs : ℤ) :
    wp serve (fun _ ↦ True) (fun stored s' ↦ stored = run ∧ drawn s' counts) (fun _ _ ↦ True)
      (persistSubmission run nowMs) s := by
  refine ⟨trivial, wp_orThrow_bind fun _ _ ↦ ⟨trivial, wp_orThrow_bind fun _ _ ↦ ⟨rfl, ?_⟩⟩⟩
  exact h.keep (by simp) (h.keep (by simp) hs)

/-- The natural key of the definition a submission asks for. -/
def Submission.key : Submission → WorkflowKey
  | .http tenant name _ => ⟨tenant, name⟩
  | .grpc req => ⟨req.tenant, req.name⟩

/-- What a submission under a key returns from a state with these counts. -/
def SubmittedFrom (drawn : σ → (String → ℕ) → Prop) (granted : ℕ → Prop) (counts : String → ℕ)
    (key : WorkflowKey) (run : Run) (s : σ) : Prop :=
  run.tenant = key.tenant ∧ run.defName = key.name ∧
    run.runNumber = (counts key.name + 1) % 2 ^ 64 ∧ granted (counts key.name) ∧
    drawn s (Function.update counts key.name (counts key.name + 1))

theorem wp_submit (h : DrawsNumbers serve drawn granted) {s : σ} (hs : drawn s counts)
    (lib : JsonLibrary) (tenant name : String) (record : WorkflowRecord) (input : Json)
    (tags : Except ApiError (List (String × String))) (uuid : List UInt8) :
    wp serve (fun _ ↦ True) (SubmittedFrom drawn granted counts ⟨tenant, name⟩) (fun _ _ ↦ True)
      (submit lib tenant name record input tags uuid) s := by
  refine wp_orThrow_bind fun _ _ ↦ ⟨trivial, trivial, wp_orThrow_bind fun number hnumber ↦ ?_⟩
  obtain ⟨rfl, hgranted, hdrawn⟩ := h.draw (h.keep (by simp) hs) hnumber
  refine wp_orThrow_bind fun tags _ ↦ ?_
  refine CallProgram.wp_mono (fun _ h ↦ h) ?_ (fun _ _ h ↦ h) (wp_persistSubmission h hdrawn _ _)
  rintro _ s' ⟨rfl, hafter⟩
  exact ⟨rfl, rfl, rfl, hgranted, hafter⟩

theorem wp_submission (h : DrawsNumbers serve drawn granted) {s : σ} (hs : drawn s counts)
    (lib : JsonLibrary) (request : Submission) (uuid : List UInt8) :
    wp serve (fun _ ↦ True) (SubmittedFrom drawn granted counts request.key) (fun _ _ ↦ True)
      (request.program lib uuid) s := by
  cases request with
  | http tenant name body =>
    exact ⟨trivial, wp_orThrow_bind fun _ _ ↦ wp_submit h (h.keep (by simp) hs) ..⟩
  | grpc req =>
    refine ⟨trivial, wp_orThrow_bind fun _ _ ↦ wp_orThrow_bind fun _ _ ↦ ?_⟩
    exact wp_submit h (h.keep (by simp) hs) ..

end Submission

/-! ### Histories -/

abbrev Entry := Submission × Run

/-- The history of a store since it had drawn no number: the submissions that succeeded, in their
order, and the state by now. Between them anything may happen that leaves the counts alone. -/
inductive Submissions {σ : Type} (serve : Server Call Call.Answer σ)
    (drawn : σ → (String → ℕ) → Prop) (lib : JsonLibrary) : List Entry → σ → Prop
  | start {s : σ} (hfresh : drawn s fun _ ↦ 0) : Submissions serve drawn lib [] s
  | other {entries : List Entry} {s s' : σ} (h : Submissions serve drawn lib entries s)
      (hother : ∀ counts, drawn s counts → drawn s' counts) :
      Submissions serve drawn lib entries s'
  | submit {entries : List Entry} {s s' : σ} (h : Submissions serve drawn lib entries s)
      (request : Submission) (uuid : List UInt8) {run : Run}
      (hrun : (request.program lib uuid).run serve s = (.ok run, s')) :
      Submissions serve drawn lib (entries ++ [(request, run)]) s'

/-- The runs of a definition, in the order of their submission. -/
def runsOf (entries : List Entry) (key : WorkflowKey) : List Run :=
  (entries.map Prod.snd).filter fun run ↦ run.tenant = key.tenant ∧ run.defName = key.name

def NumberedFromOne (entries : List Entry) : Prop :=
  ∀ key, (runsOf entries key).map Run.runNumber = List.range' 1 (runsOf entries key).length

/-- Definitions of one name that runs are submitted of belong to one tenant. -/
def OneTenantPerName (entries : List Entry) : Prop :=
  ∀ a ∈ entries, ∀ b ∈ entries, a.1.key.name = b.1.key.name → a.1.key.tenant = b.1.key.tenant

/-- The number of submissions under a name, whoever made them. -/
def submittedUnder (entries : List Entry) (name : String) : ℕ :=
  entries.countP (·.1.key.name = name)

/-- What a history comes to: the store has drawn as many numbers as there were submissions, and
every submission got the next one. -/
inductive Drawn (granted : ℕ → Prop) : List Entry → Prop
  | nil : Drawn granted []
  | snoc {entries : List Entry} {request : Submission} {run : Run} (h : Drawn granted entries)
      (htenant : run.tenant = request.key.tenant) (hname : run.defName = request.key.name)
      (hnumber : run.runNumber = (submittedUnder entries request.key.name + 1) % 2 ^ 64)
      (hgranted : granted (submittedUnder entries request.key.name)) :
      Drawn granted (entries ++ [(request, run)])

section History

variable {σ : Type} {serve : Server Call Call.Answer σ} {drawn : σ → (String → ℕ) → Prop}
  {granted : ℕ → Prop} {lib : JsonLibrary} {entries : List Entry}

theorem submittedUnder_snoc (entries : List Entry) (request : Submission) (run : Run) :
    submittedUnder (entries ++ [(request, run)]) =
      Function.update (submittedUnder entries) request.key.name
        (submittedUnder entries request.key.name + 1) := by
  funext name
  unfold submittedUnder
  rw [List.countP_append, List.countP_singleton]
  by_cases hname : request.key.name = name
  · simp [hname]
  · rw [Function.update_of_ne (Ne.symm hname)]
    simp [hname]

theorem drawn_of_submissions (h : DrawsNumbers serve drawn granted) {s : σ}
    (hs : Submissions serve drawn lib entries s) :
    drawn s (submittedUnder entries) ∧ Drawn granted entries := by
  induction hs with
  | start hfresh => exact ⟨hfresh, .nil⟩
  | other _ hother ih => exact ⟨hother _ ih.1, ih.2⟩
  | submit _ request uuid hrun ih =>
    obtain ⟨htenant, hname, hnumber, hgranted, hdrawn⟩ :=
      post_of_run (wp_submission h ih.1 lib request uuid) hrun
    rw [submittedUnder_snoc]
    exact ⟨hdrawn, .snoc ih.2 htenant hname hnumber hgranted⟩

/-! ### The numbers of each definition -/

theorem key_eq_iff {a b : WorkflowKey} : a = b ↔ a.tenant = b.tenant ∧ a.name = b.name := by
  cases a
  cases b
  simp

/-- Numbers that go up from one, with one more at the end. -/
theorem eq_range'_snoc {numbers : List ℕ} {number : ℕ} :
    numbers ++ [number] = List.range' 1 (numbers ++ [number]).length ↔
      numbers = List.range' 1 numbers.length ∧ number = numbers.length + 1 := by
  rw [List.length_append, List.length_singleton, List.range'_concat]
  constructor
  · intro h
    obtain ⟨hfront, hlast⟩ := List.append_inj' h rfl
    exact ⟨hfront, by simpa [Nat.add_comm] using hlast⟩
  · rintro ⟨hfront, rfl⟩
    rw [← hfront]
    simp [Nat.add_comm]

theorem numberedFromOne_snoc {request : Submission} {run : Run}
    (htenant : run.tenant = request.key.tenant) (hname : run.defName = request.key.name) :
    NumberedFromOne (entries ++ [(request, run)]) ↔ NumberedFromOne entries ∧
      run.runNumber = (runsOf entries request.key).length + 1 := by
  have hruns : ∀ key, runsOf (entries ++ [(request, run)]) key =
      if request.key = key then runsOf entries key ++ [run] else runsOf entries key := by
    intro key
    unfold runsOf
    rw [List.map_append, List.filter_append, List.map_singleton]
    split_ifs with hkey
    · rw [← hkey]
      simp [htenant, hname]
    · rw [key_eq_iff, ← htenant, ← hname] at hkey
      simp [hkey]
  have hkeyed : ((runsOf entries request.key ++ [run]).map Run.runNumber =
      List.range' 1 (runsOf entries request.key ++ [run]).length) ↔
      (runsOf entries request.key).map Run.runNumber =
        List.range' 1 (runsOf entries request.key).length ∧
      run.runNumber = (runsOf entries request.key).length + 1 := by
    simpa using @eq_range'_snoc ((runsOf entries request.key).map Run.runNumber) run.runNumber
  constructor
  · intro h
    have hlast := h request.key
    rw [hruns, if_pos rfl, hkeyed] at hlast
    refine ⟨fun key ↦ ?_, hlast.2⟩
    by_cases hkey : request.key = key
    · exact hkey ▸ hlast.1
    · have hsame := h key
      rwa [hruns, if_neg hkey] at hsame
  · rintro ⟨h, hnumber⟩ key
    rw [hruns]
    split_ifs with hkey
    · rw [← hkey]
      exact hkeyed.mpr ⟨h request.key, hnumber⟩
    · exact h key

theorem Drawn.run_key (h : Drawn granted entries) : ∀ e ∈ entries,
    e.2.tenant = e.1.key.tenant ∧ e.2.defName = e.1.key.name := by
  induction h with
  | nil => simp
  | snoc _ htenant hname _ _ ih =>
    intro e he
    rcases List.mem_append.mp he with he | he
    · exact ih e he
    · obtain rfl := List.mem_singleton.mp he
      exact ⟨htenant, hname⟩

theorem length_runsOf (h : Drawn granted entries) (key : WorkflowKey) :
    (runsOf entries key).length = entries.countP (·.1.key = key) := by
  rw [runsOf, ← List.countP_eq_length_filter, List.countP_map]
  refine List.countP_congr fun e he ↦ ?_
  obtain ⟨htenant, hname⟩ := h.run_key e he
  simp [htenant, hname, key_eq_iff]

/-- The submissions under a key are some of those under its name, and all of them when no other
tenant uses the name. -/
theorem countP_key_le (entries : List Entry) (key : WorkflowKey) :
    entries.countP (·.1.key = key) ≤ submittedUnder entries key.name ∧
    (entries.countP (·.1.key = key) = submittedUnder entries key.name ↔
      ∀ e ∈ entries, e.1.key.name = key.name → e.1.key.tenant = key.tenant) := by
  have hcount : entries.countP (·.1.key = key) =
      (entries.filter (·.1.key.name = key.name)).countP (·.1.key.tenant = key.tenant) := by
    rw [List.countP_filter]
    refine List.countP_congr fun e _ ↦ ?_
    simp [key_eq_iff]
  have hnamed : submittedUnder entries key.name =
      (entries.filter (·.1.key.name = key.name)).length := List.countP_eq_length_filter
  rw [hcount, hnamed]
  refine ⟨List.countP_le_length, ?_⟩
  simp [List.countP_eq_length]

theorem oneTenantPerName_snoc {entry : Entry} : OneTenantPerName (entries ++ [entry]) ↔
    OneTenantPerName entries ∧
      ∀ e ∈ entries, e.1.key.name = entry.1.key.name → e.1.key.tenant = entry.1.key.tenant := by
  constructor
  · intro h
    refine ⟨fun a ha b hb ↦ h a (by simp [ha]) b (by simp [hb]), fun e he ↦ ?_⟩
    exact h e (by simp [he]) entry (by simp)
  · rintro ⟨h, hentry⟩ a ha b hb heq
    rw [List.mem_append, List.mem_singleton] at ha hb
    obtain ha | rfl := ha
    · obtain hb | rfl := hb
      · exact h a ha b hb heq
      · exact hentry a ha heq
    · obtain hb | rfl := hb
      · exact (hentry b hb heq.symm).symm
      · rfl

theorem numberedFromOne_iff_of_drawn (h : Drawn granted entries) : NumberedFromOne entries ↔
    OneTenantPerName entries ∧ ∀ name, submittedUnder entries name < 2 ^ 64 := by
  induction h with
  | nil => simp [NumberedFromOne, OneTenantPerName, runsOf, submittedUnder]
  | @snoc entries request run hdrawn htenant hname hnumber _ ih =>
    obtain ⟨hle, hall⟩ := countP_key_le entries request.key
    rw [numberedFromOne_snoc htenant hname, ih, oneTenantPerName_snoc, ← hall,
      length_runsOf hdrawn, hnumber, submittedUnder_snoc]
    constructor
    · rintro ⟨⟨hone, hbound⟩, heq⟩
      have hlt := hbound request.key.name
      refine ⟨⟨hone, by omega⟩, fun name ↦ ?_⟩
      by_cases hsame : name = request.key.name
      · rw [hsame, Function.update_self]
        omega
      · rw [Function.update_of_ne hsame]
        exact hbound name
    · rintro ⟨⟨hone, heq⟩, hbound⟩
      have hlt := hbound request.key.name
      rw [Function.update_self] at hlt
      refine ⟨⟨hone, fun name ↦ ?_⟩, by omega⟩
      by_cases hsame : name = request.key.name
      · rw [hsame]
        omega
      · have hother := hbound name
        rwa [Function.update_of_ne hsame] at hother

theorem Drawn.submittedUnder_le {bound : ℕ} (h : Drawn (· + 1 < bound) entries) (hpos : 0 < bound)
    (name : String) : submittedUnder entries name < bound := by
  induction h with
  | nil => simpa [submittedUnder] using hpos
  | @snoc entries request run _ _ _ _ hgranted ih =>
    rw [submittedUnder_snoc]
    by_cases hsame : name = request.key.name
    · rw [hsame, Function.update_self]
      exact hgranted
    · rw [Function.update_of_ne hsame]
      exact ih

/-- A submission that succeeds goes on with a history. -/
theorem Submissions.submitted {s : σ} (h : Submissions serve drawn lib entries s)
    (request : Submission) (uuid : List UInt8)
    (hok : ((request.program lib uuid).run serve s).1.isOk = true) :
    ∃ run, Submissions serve drawn lib (entries ++ [(request, run)])
      ((request.program lib uuid).run serve s).2 := by
  cases hrun : ((request.program lib uuid).run serve s).1 with
  | error e =>
    rw [hrun] at hok
    cases hok
  | ok run => exact ⟨run, h.submit request uuid (Prod.ext hrun rfl)⟩

end History

/-- A definition of one task, for a tenant. -/
def shipOf (tenant : String) : WorkflowDef where
  tenant := tenant
  name := "ship"
  tasks := [{ name := "pack", handler := ⟨"runvane.echo"⟩ }]

def shipment (tenant : String) : Submission := .http tenant "ship" ⟨none, none⟩

def blankJson : JsonLibrary where
  floatText _ := "0"
  parseValue _ := .ok .null
  parseStrings _ := .ok []

/-- Surroundings in which nothing happens. -/
def still : Env where
  clock _ := 0
  registered _ _ := false
  execute _ _ _ := none
  token _ := .empty
  submit _ _ := .error .full
  order _ := .stored

/-- The same for the SQL store. -/
def stillSqlite : SqliteEnv where
  render _ := ""
  order _ := .stored
  clock _ := 0
  registered _ _ := false
  execute _ _ _ := none
  token _ := .empty
  submit _ _ := .error .full

def twoTenants : World :=
  ⟨((MemoryStore.new.putWorkflow (shipOf "acme")).2.putWorkflow (shipOf "globex")).2, []⟩

def twoTenantsSqlite : SqliteStore × ℕ :=
  (((SqliteStore.new.putWorkflow (shipOf "acme")).2.putWorkflow (shipOf "globex")).2, 0)

theorem fresh_twoTenants : memoryDrawn twoTenants fun _ ↦ 0 := by
  intro name
  simp [twoTenants, MemoryStore.new, MemoryStore.putWorkflow]

theorem fresh_twoTenantsSqlite : sqliteDrawn twoTenantsSqlite fun _ ↦ 0 := by
  intro name
  simp [twoTenantsSqlite, SqliteStore.new, SqliteStore.putWorkflow, countRow]

/-- Two submissions that succeed, one after the other. -/
theorem exists_submissions {σ : Type} {serve : Server Call Call.Answer σ}
    {drawn : σ → (String → ℕ) → Prop} {s : σ} (hfresh : drawn s fun _ ↦ 0)
    {first second : Submission}
    (hfirst : ((first.program blankJson (List.replicate 16 0)).run serve s).1.isOk = true)
    (hsecond : ((second.program blankJson (List.replicate 16 1)).run serve
      ((first.program blankJson (List.replicate 16 0)).run serve s).2).1.isOk = true) :
    ∃ run run' s', Submissions serve drawn blankJson [(first, run), (second, run')] s' := by
  obtain ⟨run, h⟩ := (Submissions.start hfresh).submitted first _ hfirst
  obtain ⟨run', h'⟩ := h.submitted second _ hsecond
  exact ⟨run, run', _, h'⟩

end Runvane.Api
