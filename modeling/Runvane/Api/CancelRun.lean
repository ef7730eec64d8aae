import Runvane.Api.Submission
import Runvane.Audit.Records

/-!
# The cancellation of runs over HTTP

`cancel_run` of `api/server.rs` reads the run, cancels it in the store, counts the cancellation,
reads the run again, records the cancellation in the audit log and answers with what it has read.
Between its calls others work on the same store. They are given by the calls on the store that they
make before each call of the handler, which makes every interleaving a run of the handler in some
surroundings.

The handler does not look at whether `cancel_run` of the store has cancelled anything. What it
reports is true exactly if the others leave the run alone: they do not finish it before it is
cancelled, and they do not change it from cancelled before it is read again
(`honest_iff_leftAlone`).
-/

set_option autoImplicit false

namespace Runvane.Api

open Library Domain Persistence Scheduler Audit

/-! ### Calls -/

inductive ApiCall
  | store (call : StoreCall)
  | nowMs
  | countCancellation
  | recordAudit (record : AuditRecord)

abbrev ApiCall.Answer : ApiCall → Type
  | store call => call.Answer
  | nowMs => ℤ
  | countCancellation => Unit
  | recordAudit _ => Except AuditError Unit

/-- A call that was made, with its answer and the store it found. -/
structure ApiEvent where
  store : MemoryStore
  call : ApiCall
  answer : call.Answer

/-- The store, and the log of the calls of the request so far. -/
structure ApiWorld where
  store : MemoryStore
  log : List ApiEvent

/-- What surrounds a request: the clock and the audit log, and what others do on the store.
Everything is given for each call of the request by its number. -/
structure Surroundings where
  clock : ℕ → ℤ
  audit : ℕ → AuditRecord → Except AuditError Unit
  order : ℕ → IterationOrder QueueEntry
  others : ℕ → List StoreCall

namespace Surroundings

/-- The store after what the others do before a call of the request. -/
def found (env : Surroundings) (n : ℕ) (s : MemoryStore) : MemoryStore :=
  (env.others n).foldl (fun s call ↦ (call.apply (env.order n) s).2) s

def answer (env : Surroundings) (n : ℕ) (s : MemoryStore) : (call : ApiCall) →
    call.Answer × MemoryStore
  | .store call => call.apply (env.order n) s
  | .nowMs => (env.clock n, s)
  | .countCancellation => ((), s)
  | .recordAudit record => (env.audit n record, s)

/-- Lets the others go on, answers the call and keeps the log. -/
def serve (env : Surroundings) : Server ApiCall ApiCall.Answer ApiWorld := fun call w ↦
  let s := env.found w.log.length w.store
  let answered := env.answer w.log.length s call
  (answered.1, ⟨answered.2, w.log ++ [⟨s, call, answered.1⟩]⟩)

end Surroundings

/-! ### The handler -/

abbrev Handler (α : Type) := CallProgram ApiCall ApiCall.Answer ApiError α

def Handler.ask (call : ApiCall) : Handler call.Answer := CallProgram.request call

/-- Goes on with a result, or leaves with its error. -/
def orFail {ε α : Type} (wrap : ε → ApiError) : Except ε α → Handler α
  | .ok value => .ret value
  | .error e => .abort (wrap e)

/-- The audit record of a cancellation. The bytes are those of the random uuid of its id. -/
def cancellationRecord (runId : RunId) (tenant : String) (nowMs : ℤ) (uuid : List UInt8) :
    AuditRecord :=
  ((AuditRecord.new ⟨generateId .auditRecord uuid⟩ nowMs (.user "admin" "admin")
    (.runCancelled runId.text "cancelled via api") .success "run").withTenant tenant).withResourceId
      runId.text

/-- What follows the cancellation in the store: it is counted, the run is read again, and the
cancellation is recorded, whether or not the record can be written. -/
def reportCancellation (runId : RunId) (uuid : List UInt8) : Handler Run := do
  Handler.ask .countCancellation
  let updated ← orFail .storage (← Handler.ask (.store (.getRun runId)))
  let nowMs ← Handler.ask .nowMs
  let _ ← Handler.ask (.recordAudit (cancellationRecord runId updated.tenant nowMs uuid))
  return updated

def cancelLive (runId : RunId) (uuid : List UInt8) : Handler Run := do
  let nowMs ← Handler.ask .nowMs
  let _ ← orFail .storage (← Handler.ask (.store (.cancelRun runId nowMs)))
  reportCancellation runId uuid

/-- The cancellation of a run as it was found: one that is cancelled is returned as it is, and one
that is finished otherwise is a conflict. -/
def cancelFound (id : String) (runId : RunId) (uuid : List UInt8) (current : Run) : Handler Run :=
  if current.status = .cancelled then .ret current
  else if current.status.isTerminal then
    .abort (.conflict s!"run {id} is already {current.status.display} and cannot be cancelled")
  else do
    orFail .illegalTransition (RunFsm.validate current.status .cancelled)
    cancelLive runId uuid

/-- `POST /v1/runs/:id/cancel`. -/
def cancelRun (id : String) (uuid : List UInt8) : Handler Run := do
  let runId ← orFail .id (Id.parse .run id)
  let current ← orFail .storage (← Handler.ask (.store (.getRun runId)))
  cancelFound id runId uuid current

/-! ### What it reports -/

def statusIn (s : MemoryStore) (r : RunId) : Option RunStatus := (s.runs.get? r).map Run.status

/-- The event counts a cancellation, or records one. -/
def ApiEvent.Reports (event : ApiEvent) : Prop :=
  match event.call with
  | .countCancellation => True
  | .recordAudit record => record.action.actionName = "run_cancelled"
  | _ => False

/-- The event is a call on the store that has found the run live and left it cancelled. -/
def ApiEvent.Cancels (event : ApiEvent) (r : RunId) : Prop :=
  match event.call with
  | .store (.cancelRun id nowMs) => id = r ∧ (statusIn event.store r).any (!·.isTerminal) ∧
      statusIn (event.store.cancelRun r nowMs).2 r = some .cancelled
  | _ => False

/-- Nothing is reported before the request has cancelled the run. -/
def ReportsAfter (r : RunId) : List ApiEvent → Prop
  | [] => True
  | event :: rest => ¬ event.Reports ∧ (event.Cancels r ∨ ReportsAfter r rest)

/-- What the request has reported and answered is true. -/
def Honest (r : RunId) (answered : Except ApiError Run × ApiWorld) : Prop :=
  ReportsAfter r answered.2.log ∧ ∀ run, answered.1 = .ok run → run.status = .cancelled

instance (event : ApiEvent) : Decidable event.Reports := by
  unfold ApiEvent.Reports
  split <;> infer_instance

instance (event : ApiEvent) (r : RunId) : Decidable (event.Cancels r) := by
  unfold ApiEvent.Cancels
  split <;> infer_instance

instance decidableReportsAfter (r : RunId) : (log : List ApiEvent) → Decidable (ReportsAfter r log)
  | [] => isTrue trivial
  | event :: rest =>
    have := decidableReportsAfter r rest
    inferInstanceAs (Decidable (¬ event.Reports ∧ (event.Cancels r ∨ ReportsAfter r rest)))

/-- What the others do to a run that was found live: they do not finish it before it is cancelled;
and if it is still there then, they do not change it from cancelled before it is read again. -/
def LeavesLive (env : Surroundings) (r : RunId) (read : MemoryStore) : Prop :=
  let cancelled := env.found 2 (env.found 1 read)
  let again := env.found 4 (env.found 3 (cancelled.cancelRun r (env.clock 1)).2)
  (statusIn cancelled r).all (!·.isTerminal) ∧
    ((statusIn cancelled r).isSome → (statusIn again r).all (· = .cancelled))

/-- The others leave the run alone, if it is live when it is first read. -/
def LeftAlone (env : Surroundings) (r : RunId) (s : MemoryStore) : Prop :=
  (statusIn (env.found 0 s) r).any (!·.isTerminal) → LeavesLive env r (env.found 0 s)

/-! ### When it is true -/

section Run

variable {env : Surroundings} {r : RunId} {uuid : List UInt8} {w : ApiWorld}

theorem run_ask {α : Type} (call : ApiCall) (next : call.Answer → Handler α) (w : ApiWorld) :
    (Handler.ask call >>= next).run env.serve w =
      (next (env.serve call w).1).run env.serve (env.serve call w).2 := rfl

theorem run_orFail {ε α β : Type} (wrap : ε → ApiError) (result : Except ε α) (next : α → Handler β)
    (w : ApiWorld) :
    (orFail wrap result >>= next).run env.serve w =
      match result with
      | .ok value => (next value).run env.serve w
      | .error e => (.error (wrap e), w) := by
  cases result with
  | ok value => rfl
  | error e => rfl

theorem reportsAfter_append {before rest : List ApiEvent} (h : ∀ event ∈ before, ¬ event.Reports) :
    ReportsAfter r (before ++ rest) ↔ (∃ event ∈ before, event.Cancels r) ∨
      ReportsAfter r rest := by
  induction before with
  | nil => simp
  | cons event before ih =>
    have hevent := h event List.mem_cons_self
    have hrest := ih fun other hother ↦ h other (List.mem_cons_of_mem _ hother)
    rw [List.cons_append, ReportsAfter, hrest]
    simp only [List.mem_cons, exists_eq_or_imp]
    rw [and_iff_right hevent, or_assoc]

theorem reportsAfter_of_forall {log : List ApiEvent} (h : ∀ event ∈ log, ¬ event.Reports) :
    ReportsAfter r log := by
  rw [← List.append_nil log, reportsAfter_append h]
  exact .inr trivial

theorem not_reports_store (s : MemoryStore) (call : StoreCall) (answer : call.Answer) :
    ¬ (⟨s, .store call, answer⟩ : ApiEvent).Reports := id

theorem not_reports_nowMs (s : MemoryStore) (nowMs : ℤ) :
    ¬ (⟨s, .nowMs, nowMs⟩ : ApiEvent).Reports := id

/-- Once the cancellation is counted, the log is true exactly if the request has cancelled the run;
and the answer is true exactly if the run is cancelled when it is read again. -/
theorem honest_report (env : Surroundings) (r : RunId) (uuid : List UInt8)
    (hbefore : ∀ event ∈ w.log, ¬ event.Reports) :
    Honest r ((reportCancellation r uuid).run env.serve w) ↔
      (∃ event ∈ w.log, event.Cancels r) ∧
        (statusIn (env.found (w.log.length + 1) (env.found w.log.length w.store)) r).all
          (· = .cancelled) := by
  have hlog : ∀ rest, ReportsAfter r (w.log ++
      ⟨env.found w.log.length w.store, .countCancellation, ()⟩ :: rest) ↔
        ∃ event ∈ w.log, event.Cancels r := by
    intro rest
    rw [reportsAfter_append hbefore, ReportsAfter]
    simp [ApiEvent.Reports]
  rw [reportCancellation, run_ask, run_ask, run_orFail]
  simp only [Surroundings.serve, Surroundings.answer, StoreCall.apply, List.length_append,
    List.length_singleton, statusIn]
  unfold MemoryStore.getRun
  cases (env.found (w.log.length + 1) (env.found w.log.length w.store)).runs.get? r with
  | none =>
    simp only [Honest, List.append_assoc, List.cons_append, List.nil_append, hlog]
    simp
  | some run =>
    simp only
    rw [run_ask, run_ask]
    change ReportsAfter r ((((w.log ++ [_]) ++ [_]) ++ [_]) ++ [_]) ∧
      (∀ found, Except.ok run = .ok found → found.status = .cancelled) ↔ _
    simp only [List.append_assoc, List.cons_append, List.nil_append, hlog]
    simp

/-- What the request has done when the call on the store has been answered. -/
def afterCancel (env : Surroundings) (r : RunId) (event : ApiEvent)
    (read : MemoryStore) : ApiWorld :=
  let cancelled := env.found 2 (env.found 1 read)
  let answered := cancelled.cancelRun r (env.clock 1)
  ⟨answered.2, [event, ⟨env.found 1 read, .nowMs, env.clock 1⟩,
    ⟨cancelled, .store (.cancelRun r (env.clock 1)), answered.1⟩]⟩

theorem run_cancelLive (event : ApiEvent) (read : MemoryStore) :
    (cancelLive r uuid).run env.serve ⟨read, [event]⟩ =
      match ((env.found 2 (env.found 1 read)).cancelRun r (env.clock 1)).1 with
      | .ok _ => (reportCancellation r uuid).run env.serve (afterCancel env r event read)
      | .error e => (.error (.storage e), afterCancel env r event read) := by
  have hnow : env.serve .nowMs ⟨read, [event]⟩ =
      (env.clock 1, ⟨env.found 1 read, [event, ⟨env.found 1 read, .nowMs, env.clock 1⟩]⟩) := rfl
  have hcall : env.serve (.store (.cancelRun r (env.clock 1)))
      ⟨env.found 1 read, [event, ⟨env.found 1 read, .nowMs, env.clock 1⟩]⟩ =
        (((env.found 2 (env.found 1 read)).cancelRun r (env.clock 1)).1,
          afterCancel env r event read) := rfl
  rw [cancelLive, run_ask, hnow, run_ask, hcall, run_orFail]
  cases ((env.found 2 (env.found 1 read)).cancelRun r (env.clock 1)).1 with
  | ok answer => rfl
  | error e => rfl

theorem not_reports_afterCancel {event : ApiEvent} (hevent : ¬ event.Reports) (read : MemoryStore) :
    ∀ e ∈ (afterCancel env r event read).log, ¬ e.Reports := by
  intro e he
  simp only [afterCancel, List.mem_cons, List.not_mem_nil, or_false] at he
  obtain rfl | rfl | rfl := he
  · exact hevent
  · exact not_reports_nowMs _ _
  · exact not_reports_store _ _ _

theorem cancels_iff {s : MemoryStore} {nowMs : ℤ} {answer : Except StorageError Bool} :
    (⟨s, .store (.cancelRun r nowMs), answer⟩ : ApiEvent).Cancels r ↔
      (statusIn s r).any (!·.isTerminal) := by
  refine ⟨fun h ↦ h.2.1, fun hlive ↦ ⟨rfl, hlive, ?_⟩⟩
  rw [statusIn] at hlive ⊢
  cases hfound : s.runs.get? r with
  | none =>
    rw [hfound] at hlive
    cases hlive
  | some run =>
    have hid : run.id = r := KeyedMap.key_of_get? hfound
    have hterminal : run.isTerminal = false := by
      simpa [hfound, Run.isTerminal] using hlive
    rw [MemoryStore.cancelRun, hfound]
    simp only [hterminal, Bool.false_eq_true, if_false]
    rw [KeyedMap.get?_put, if_pos hid, Option.map_some]

/-- The request after it has found the run live. -/
theorem honest_cancelLive {event : ApiEvent} (env : Surroundings) (uuid : List UInt8)
    (read : MemoryStore) (hevent : ¬ event.Reports)
    (hcancels : ¬ event.Cancels r) :
    Honest r ((cancelLive r uuid).run env.serve ⟨read, [event]⟩) ↔ LeavesLive env r read := by
  have hquiet : ∀ e ∈ (afterCancel env r event read).log, ¬ e.Reports :=
    not_reports_afterCancel hevent read
  have hexists : (∃ e ∈ (afterCancel env r event read).log, e.Cancels r) ↔
      (statusIn (env.found 2 (env.found 1 read)) r).any (!·.isTerminal) := by
    have hnow : ¬ (⟨env.found 1 read, .nowMs, env.clock 1⟩ : ApiEvent).Cancels r := id
    simp only [afterCancel, List.mem_cons, List.not_mem_nil, or_false, exists_eq_or_imp,
      exists_eq_left, hcancels, hnow, false_or]
    exact cancels_iff
  have hreport := honest_report env r uuid hquiet
  rw [hexists] at hreport
  rw [run_cancelLive, LeavesLive]
  cases hrun : (env.found 2 (env.found 1 read)).runs.get? r with
  | none =>
    -- the run is gone, and the call on the store fails
    have herror : ((env.found 2 (env.found 1 read)).cancelRun r (env.clock 1)).1 =
        .error (.notFound s!"run {r.text}") := by
      rw [MemoryStore.cancelRun, hrun]
    rw [herror]
    have hhonest : Honest r ((.error (.storage (.notFound s!"run {r.text}")),
        afterCancel env r event read) : Except ApiError Run × ApiWorld) :=
      ⟨reportsAfter_of_forall hquiet, fun run h ↦ by cases h⟩
    simp [hhonest, statusIn, hrun]
  | some run =>
    obtain ⟨answer, hanswer⟩ : ∃ answer,
        ((env.found 2 (env.found 1 read)).cancelRun r (env.clock 1)).1 = .ok answer := by
      rw [MemoryStore.cancelRun, hrun]
      dsimp only
      split_ifs
      · exact ⟨false, rfl⟩
      · exact ⟨true, rfl⟩
    have hstatus : statusIn (env.found 2 (env.found 1 read)) r = some run.status := by
      rw [statusIn, hrun, Option.map_some]
    rw [hanswer]
    simp only [hstatus, Option.any_some, Option.all_some, Option.isSome_some,
      true_implies] at hreport ⊢
    exact hreport

/-- The request after it has found the run. -/
theorem honest_cancelFound {event : ApiEvent} (env : Surroundings) (id : String) (uuid : List UInt8)
    (read : MemoryStore) (current : Run) (hevent : ¬ event.Reports) (hcancels : ¬ event.Cancels r) :
    Honest r ((cancelFound id r uuid current).run env.serve ⟨read, [event]⟩) ↔
      (current.status.isTerminal = false → LeavesLive env r read) := by
  have hquiet : ReportsAfter r [event] :=
    reportsAfter_of_forall fun e he ↦ by rwa [List.mem_singleton.mp he]
  unfold cancelFound
  split_ifs with hcancelled hterminal
  · have hhonest :
        Honest r ((CallProgram.ret current : Handler Run).run env.serve ⟨read, [event]⟩) := by
      refine ⟨hquiet, fun run hrun ↦ ?_⟩
      obtain rfl := Except.ok.inj hrun
      exact hcancelled
    simp [hhonest, hcancelled, RunStatus.isTerminal]
  · rw [hterminal]
    exact iff_of_true ⟨hquiet, fun run hrun ↦ by cases hrun⟩ nofun
  · have hlive : current.status.isTerminal = false := Bool.eq_false_of_not_eq_true hterminal
    have hlegal : RunFsm.validate current.status .cancelled = .ok () := by
      cases hstatus : current.status <;> simp_all [RunStatus.isTerminal] <;> rfl
    rw [run_orFail, hlegal, hlive]
    simp only [forall_const]
    exact honest_cancelLive env uuid read hevent hcancels

end Run

/-- What a request to cancel a run reports and answers is true exactly if its id is not accepted or
the others leave the run alone. -/
theorem honest_iff_leftAlone (env : Surroundings) (id : String) (uuid : List UInt8)
    (s : MemoryStore) :
    Honest ⟨id⟩ ((cancelRun id uuid).run env.serve ⟨s, []⟩) ↔
      ((Id.parse .run id).isOk → LeftAlone env ⟨id⟩ s) := by
  rw [cancelRun, run_orFail]
  cases hid : Id.parse .run id with
  | error e => simp [Honest, ReportsAfter, Except.isOk, Except.toBool]
  | ok r =>
    obtain rfl : r = ⟨id⟩ := by
      obtain ⟨htext, -⟩ := Id.chars_of_parse hid
      rw [← htext]
    let event : ApiEvent := ⟨env.found 0 s, .store (.getRun ⟨id⟩), (env.found 0 s).getRun ⟨id⟩⟩
    have hread : env.serve (.store (.getRun ⟨id⟩)) ⟨s, []⟩ =
        ((env.found 0 s).getRun ⟨id⟩, ⟨env.found 0 s, [event]⟩) := rfl
    have hevent : ¬ event.Reports := not_reports_store _ _ _
    have hcancels : ¬ event.Cancels ⟨id⟩ := fun h ↦ h
    have hok : (Except.ok (⟨id⟩ : RunId) : Except IdError RunId).isOk = true := rfl
    dsimp only
    rw [run_ask, hread, run_orFail, hok, LeftAlone, statusIn]
    cases hrun : (env.found 0 s).runs.get? ⟨id⟩ with
    | none =>
      have herror : (env.found 0 s).getRun ⟨id⟩ = .error (.notFound s!"run {id}") := by
        rw [MemoryStore.getRun, hrun]
      rw [herror]
      refine iff_of_true ⟨?_, fun run h ↦ by cases h⟩ fun _ h ↦ by cases h
      exact reportsAfter_of_forall fun e he ↦ by rwa [List.mem_singleton.mp he]
    | some current =>
      have hget : (env.found 0 s).getRun ⟨id⟩ = .ok current := MemoryStore.getRun_eq_ok.mpr hrun
      rw [hget]
      simp only [Option.map_some, Option.any_some, Bool.not_eq_true', true_implies]
      exact honest_cancelFound env id uuid (env.found 0 s) current hevent hcancels

/-! ### A run that is finished meanwhile -/

def executedRun : Run :=
  { id := ⟨"rn_00"⟩, tenant := "acme", defName := "ship", status := .running }

def executedStore : MemoryStore := (MemoryStore.new.putRun executedRun).2

/-- A worker stores the run as succeeded just before it is cancelled. -/
def finishedMeanwhile : Surroundings where
  clock _ := 0
  audit _ _ := .ok ()
  order _ := .stored
  others n := if n = 2 then [.putRun { executedRun with status := .succeeded }] else []

/-- A run that has succeeded by then is counted and recorded as cancelled, and returned as
succeeded. -/
theorem succeeded_run_reported :
    let answered := (cancelRun "rn_00" []).run finishedMeanwhile.serve ⟨executedStore, []⟩
    answered.1.toOption.map Run.status = some .succeeded ∧
      ¬ ReportsAfter ⟨"rn_00"⟩ answered.2.log ∧ ¬ Honest ⟨"rn_00"⟩ answered := by
  have hreports : ¬ ReportsAfter ⟨"rn_00"⟩
      ((cancelRun "rn_00" []).run finishedMeanwhile.serve ⟨executedStore, []⟩).2.log := by
    decide
  exact ⟨by decide, hreports, fun h ↦ hreports h.1⟩

end Runvane.Api
