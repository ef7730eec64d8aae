import Runvane.Api.Submission
import Runvane.Engine.Expr
import Runvane.Persistence.Queries

/-!
# The listing of runs

`RunQuery::into_filter` of `api/payloads.rs` and the handler `list_runs` of `api/server.rs`. The
query string has been taken apart already: a query is a record of optional parameters. The quoted
form of a text in a message is the standard library's and stays a parameter.

`MAX_LIST_LIMIT` is called a hard ceiling on the runs that one query returns. It bounds the limit
that a client asks for, and the store keeps to that limit; but a query without a limit gives a
filter without one. So the ceiling holds exactly for the queries that name a limit, and for the
others if no more runs than that match beyond the offset (`ceiling_iff`).
-/

set_option autoImplicit false

namespace Runvane.Api

open Library Domain Persistence Engine

/-! ### Queries -/

/-- The run status with the given wire name. -/
def runStatusFromStr : String → Option RunStatus
  | "queued" => some .queued
  | "running" => some .running
  | "succeeded" => some .succeeded
  | "failed" => some .failed
  | "cancelled" => some .cancelled
  | "timedout" => some .timedOut
  | _ => none

/-- Hard ceiling on runs returned by a single list query. -/
def maxListLimit : ℕ := 500

/-- The parameters of `GET /v1/runs`. -/
structure RunQuery where
  tenant : Option String := none
  name : Option String := none
  namePrefix : Option String := none
  status : Option String := none
  statusIn : Option String := none
  fromMs : Option ℤ := none
  toMs : Option ℤ := none
  finishedFromMs : Option ℤ := none
  finishedToMs : Option ℤ := none
  minDurationMs : Option ℤ := none
  hasTagKeys : Option String := none
  limit : Option ℕ := none
  offset : Option ℕ := none

/-- Why a query is rejected. -/
inductive QueryError
  | status (raw : String)
  | statusIn (piece : String)
  | limit
  | created (source target : ℤ)
  | finished (source target : ℤ)
  | minDuration (duration : ℤ)
  deriving DecidableEq

/-- The message of the answer, for the quoted form of texts. -/
def QueryError.message (debugText : String → String) : QueryError → String
  | status raw => "invalid status " ++ debugText raw
  | statusIn piece => "invalid status_in element " ++ debugText piece
  | limit => s!"limit must be within 1..={maxListLimit}"
  | created source target => s!"from_ms ({source}) must be <= to_ms ({target})"
  | finished source target =>
    s!"finished_from_ms ({source}) must be <= finished_to_ms ({target})"
  | minDuration duration => s!"min_duration_ms ({duration}) must be non-negative"

namespace RunQuery

/-- The pieces between commas, trimmed, without the empty ones. -/
def pieces (raw : String) : List String :=
  (((raw.toList.splitOn ',').map trim).filter (· ≠ [])).map String.ofList

def parseStatus : Option String → Except QueryError (Option RunStatus)
  | none => .ok none
  | some raw =>
    match runStatusFromStr raw with
    | some status => .ok (some status)
    | none => .error (.status raw)

def parseStatusIn : Option String → Except QueryError (List RunStatus)
  | none => .ok []
  | some raw => (pieces raw).mapM fun piece ↦
    match runStatusFromStr piece with
    | some status => .ok status
    | none => .error (.statusIn piece)

/-- A limit has to be positive, and within the ceiling. -/
def checkLimit : Option ℕ → Except QueryError (Option ℕ)
  | none => .ok none
  | some n => if n = 0 ∨ maxListLimit < n then .error .limit else .ok (some n)

/-- The first time must not be after the second, if both are set. -/
def checkRange (e : ℤ → ℤ → QueryError) : Option ℤ → Option ℤ → Except QueryError Unit
  | some source, some target => if target < source then .error (e source target) else .ok ()
  | _, _ => .ok ()

/-- A duration must not be negative. -/
def checkDuration : Option ℤ → Except QueryError Unit
  | some duration => if duration < 0 then .error (.minDuration duration) else .ok ()
  | none => .ok ()

/-- Converts into a store filter, rejecting malformed dimensions. -/
def intoFilter (query : RunQuery) : Except QueryError RunFilter := do
  let status ← parseStatus query.status
  let statusIn ← parseStatusIn query.statusIn
  let limit ← checkLimit query.limit
  checkRange .created query.fromMs query.toMs
  checkRange .finished query.finishedFromMs query.finishedToMs
  checkDuration query.minDurationMs
  .ok
    { tenant := query.tenant
      name := query.name
      namePrefix := query.namePrefix
      status := status
      statusIn := statusIn
      fromMs := query.fromMs
      toMs := query.toMs
      finishedFromMs := query.finishedFromMs
      finishedToMs := query.finishedToMs
      minDurationMs := query.minDurationMs
      hasTagKeys := query.hasTagKeys.elim [] pieces
      limit := limit
      offset := query.offset.getD 0 }

end RunQuery

/-- `GET /v1/runs` over a store, given by how it lists runs. -/
def listRuns (debugText : String → String) (list : RunFilter → Except StorageError (List Run))
    (query : RunQuery) : Except ApiError (List Run) :=
  match query.intoFilter with
  | .error e => .error (.invalidArgument (e.message debugText))
  | .ok filter => (list filter).mapError .storage

/-! ### What an accepted query asks for -/

variable {query : RunQuery} {f : RunFilter}

namespace RunQuery

theorem checkLimit_ok {limit checked : Option ℕ} (h : checkLimit limit = .ok checked) :
    checked = limit ∧ ∀ n ∈ limit, 1 ≤ n ∧ n ≤ maxListLimit := by
  cases limit with
  | none => exact ⟨(Except.ok.inj h).symm, by simp⟩
  | some n =>
    simp only [checkLimit] at h
    split_ifs at h with hrange
    refine ⟨(Except.ok.inj h).symm, fun m hm ↦ ?_⟩
    obtain rfl : n = m := Option.some.inj hm
    omega

theorem intoFilter_ok (h : query.intoFilter = .ok f) :
    f.limit = query.limit ∧ f.offset = query.offset.getD 0 ∧
      ∀ n ∈ query.limit, 1 ≤ n ∧ n ≤ maxListLimit := by
  unfold intoFilter at h
  obtain ⟨status, -, h⟩ := bind_eq_ok h
  obtain ⟨statusIn, -, h⟩ := bind_eq_ok h
  obtain ⟨limit, hlimit, h⟩ := bind_eq_ok h
  obtain ⟨-, -, h⟩ := bind_eq_ok h
  obtain ⟨-, -, h⟩ := bind_eq_ok h
  obtain ⟨-, -, h⟩ := bind_eq_ok h
  obtain ⟨hchecked, hrange⟩ := checkLimit_ok hlimit
  obtain rfl := Except.ok.inj h
  exact ⟨hchecked, rfl, hrange⟩

/-- How many runs of those that match are shown: within the ceiling, or without a limit. -/
theorem shown_le_iff (h : query.intoFilter = .ok f) (n : ℕ) :
    f.shown n ≤ maxListLimit ↔ query.limit.isSome ∨ n - query.offset.getD 0 ≤ maxListLimit := by
  obtain ⟨hlimit, hoffset, hrange⟩ := intoFilter_ok h
  unfold RunFilter.shown
  rw [hlimit, hoffset]
  cases hquery : query.limit with
  | none => simp
  | some limit =>
    have hlimit := hrange limit hquery
    simp only [Option.isSome_some, true_or, iff_true]
    omega

end RunQuery

/-- The handler answers an accepted query with what the store lists. -/
theorem listRuns_of_intoFilter (h : query.intoFilter = .ok f) (debugText : String → String)
    {list : RunFilter → Except StorageError (List Run)} {runs : List Run}
    (hlist : list f = .ok runs) : listRuns debugText list query = .ok runs := by
  simp only [listRuns, h, hlist]
  rfl

/-- An accepted query is answered, on either backend, with as many runs as the ceiling allows if and
only if it names a limit or no more than that many runs match beyond the offset. -/
theorem ceiling_iff {query : RunQuery} {f : RunFilter} (h : query.intoFilter = .ok f)
    (debugText : String → String) (mem : MemoryStore) (order : IterationOrder Run)
    (sql : SqliteStore) (rowOrder : IterationOrder RunRow) :
    (∃ runs, listRuns debugText (mem.listRuns order) query = .ok runs ∧
      (runs.length ≤ maxListLimit ↔ query.limit.isSome ∨
        mem.runs.values.countP f.matchesRun - query.offset.getD 0 ≤ maxListLimit)) ∧
    ∃ runs, listRuns debugText (sql.listRuns rowOrder) query = .ok runs ∧
      (runs.length ≤ maxListLimit ↔ query.limit.isSome ∨
        ((sql.rowsFor f).map RunRow.document).countP f.matchesRun - query.offset.getD 0 ≤
          maxListLimit) := by
  refine ⟨⟨_, listRuns_of_intoFilter h debugText rfl, ?_⟩,
    ⟨_, listRuns_of_intoFilter h debugText rfl, ?_⟩⟩
  · rw [RunFilter.length_applyOrder, RunQuery.shown_le_iff h, ← List.countP_eq_length_filter,
      (order.perm _).countP_eq]
  · rw [RunFilter.length_applyOrder, RunQuery.shown_le_iff h, ← List.countP_eq_length_filter,
      ((rowOrder.perm _).map _).countP_eq]

theorem ceiling_iff_sample :
    (∃ runs, listRuns id (MemoryStore.new.listRuns ⟨id, .refl⟩) { limit := some 500 } = .ok runs ∧
      (runs.length ≤ maxListLimit ↔ (some 500).isSome ∨
        MemoryStore.new.runs.values.countP (RunFilter.matchesRun { limit := some 500 }) - 0 ≤
          maxListLimit)) ∧
    ∃ runs, listRuns id (SqliteStore.new.listRuns ⟨id, .refl⟩) { limit := some 500 } = .ok runs ∧
      (runs.length ≤ maxListLimit ↔ (some 500).isSome ∨
        ((SqliteStore.new.rowsFor { limit := some 500 }).map RunRow.document).countP
          (RunFilter.matchesRun { limit := some 500 }) - 0 ≤ maxListLimit) :=
  @ceiling_iff { limit := some 500 } { limit := some 500 } rfl id .new ⟨id, .refl⟩ .new ⟨id, .refl⟩

/-! ### A store that is too full for the ceiling -/

/-- The bytes of a uuid that ends in the given number. -/
def uuidOf (n : ℕ) : List UInt8 :=
  List.replicate 14 0 ++ [UInt8.ofNat (n / 256), UInt8.ofNat (n % 256)]

def waitingRun (n : ℕ) : Run where
  id := ⟨generateId .run (uuidOf n)⟩
  tenant := "acme"
  defName := "ship"
  defVersion := 1
  input := .object []
  status := .queued
  attempts := 0
  nextAttemptAtMs := none
  deadlineAtMs := none
  startedAtMs := none
  finishedAtMs := none
  error := none
  output := none
  tags := []
  createdAtMs := n
  runNumber := n

/-- The store after that many runs have been put. -/
def crowd : ℕ → MemoryStore
  | 0 => .new
  | n + 1 => ((crowd n).putRun (waitingRun n)).2

theorem waitingRun_id_ne {m n : ℕ} (hlt : m < n) (hn : n < 2 ^ 16) :
    (waitingRun m).id ≠ (waitingRun n).id := by
  intro h
  have htext : generateId .run (uuidOf m) = generateId .run (uuidOf n) := congrArg Id.text h
  have hbytes := encodeBase32hex_injective ((String.append_right_inj _).mp htext)
  have hpair := List.append_cancel_left hbytes
  simp only [List.cons.injEq, and_true] at hpair
  have hhigh := congrArg UInt8.toNat hpair.1
  have hlow := congrArg UInt8.toNat hpair.2
  simp only [UInt8.toNat_ofNat'] at hhigh hlow
  omega

theorem get?_crowd {m n : ℕ} (hle : n ≤ m) (hm : m < 2 ^ 16) :
    (crowd n).runs.get? (waitingRun m).id = none := by
  induction n with
  | zero => exact KeyedMap.get?_empty _
  | succ n ih =>
    have hput : (crowd (n + 1)).runs = (crowd n).runs.put (waitingRun n) := rfl
    rw [hput, KeyedMap.get?_put, if_neg (waitingRun_id_ne hle hm)]
    exact ih (Nat.le_of_succ_le hle)

theorem countP_crowd {n : ℕ} (hn : n ≤ 2 ^ 16) :
    (crowd n).runs.values.countP (RunFilter.matchesRun {}) = n := by
  induction n with
  | zero => rfl
  | succ n ih =>
    have hput : (crowd (n + 1)).runs = (crowd n).runs.put (waitingRun n) := rfl
    rw [hput, KeyedMap.countP_put_of_none (get?_crowd le_rfl hn), ih (Nat.le_of_succ_le hn)]
    rfl

/-- The query without parameters is answered with all the runs of a store. -/
theorem listRuns_crowd {n : ℕ} (hn : n ≤ 2 ^ 16) :
    ∃ runs, listRuns id ((crowd n).listRuns ⟨id, .refl⟩) {} = .ok runs ∧ runs.length = n := by
  refine ⟨_, listRuns_of_intoFilter rfl id rfl, ?_⟩
  rw [RunFilter.length_applyOrder, ← List.countP_eq_length_filter]
  exact countP_crowd hn

/-- With 501 runs in the store, the query without parameters gets more than the ceiling. -/
theorem ceiling_exceeded :
    (RunQuery.intoFilter {}).isOk ∧
      ∃ runs, listRuns id ((crowd 501).listRuns ⟨id, .refl⟩) {} = .ok runs ∧
        runs.length = 501 ∧ maxListLimit < runs.length := by
  obtain ⟨runs, hruns, hlength⟩ := @listRuns_crowd 501 (by decide)
  refine ⟨rfl, runs, hruns, hlength, ?_⟩
  rw [hlength, maxListLimit]
  omega

end Runvane.Api
