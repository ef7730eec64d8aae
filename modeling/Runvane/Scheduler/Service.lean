import Runvane.Api.Submission
import Runvane.Scheduler.Concurrency

/-!
# Everybody who works on the store

The parties of the running system: clients that submit runs, the dispatchers, workers and operators
of `Role`, the recovery of expired leases, and single calls of functions that operators and tests
use on their own: the transition to running, an attempt with or without a token, and the deletion of
a run. Each is a program over the calls of the store, and each meets the contract of `PartyCall`,
whatever is expected of the answers.
-/

set_option autoImplicit false

namespace Runvane.Scheduler

open Library Domain Persistence Prog Api
open CallProgram (keeps_bind keeps_mono meets_reify)

/-- The parties of the service proper. -/
inductive Service
  | submission (request : Submission) (uuid : List UInt8)
  | engine (role : Role)
  | recovery

def Service.program (lib : JsonLibrary) : Service → Prog Empty Unit
  | .submission request uuid => do
    let _ ← (request.program lib uuid).reify
    pure ()
  | .engine role => role.program
  | .recovery => do
    let now ← ask .nowMs
    let _ ← onStore (.recoverExpiredLeases now)
    pure ()

inductive Party
  | service (member : Service)
  | marking (runId : RunId)
  | attempt (ex : RunExecutor) (runId : RunId) (token : Option ClaimToken) (leaseMs : ℤ)
  | deletion (runId : RunId)

def Party.program (lib : JsonLibrary) : Party → Prog Empty Unit
  | .service member => member.program lib
  | .marking runId => do
    let _ ← (markRunning runId).reify
    pure ()
  | .attempt ex runId token leaseMs => do
    let _ ← (attemptWithToken ex runId token leaseMs).reify
    pure ()
  | .deletion runId => do
    let _ ← onStore (.deleteRun runId)
    pure ()

/-! ### Contracts -/

section Contracts

variable (expected : (call : Call) → call.Answer → Prop)

def RoleCall : Role → Call → Prop
  | .dispatcher settings, call => DispatchCall expected settings.leaseMs call
  | .worker _ job, call => WorkCall expected job call
  | .operator runId, call => call = .nowMs ∨ ∃ nowMs, call = .store (.cancelRun runId nowMs)

def ServiceCall : Service → Call → Prop
  | .submission _ uuid, call => SubmitCall uuid call
  | .engine role, call => RoleCall expected role call
  | .recovery, call => call = .nowMs ∨ ∃ nowMs, call = .store (.recoverExpiredLeases nowMs)

def PartyCall : Party → Call → Prop
  | .service member, call => ServiceCall expected member call
  | .marking _, call => ∃ claimMs, DispatchCall expected claimMs call
  | .attempt _ runId token leaseMs, call => AttemptCall expected runId token leaseMs call
  | .deletion runId, call => call = .store (.deleteRun runId)

variable {expected}

theorem meets_role (role : Role) :
    role.program.Meets expected (RoleCall expected role) fun _ ↦ True := by
  cases role with
  | dispatcher settings => exact keeps_bind (meets_step settings) fun _ _ ↦ trivial
  | worker ex job => exact meets_runJob ex job
  | operator runId =>
    refine keeps_bind (meets_now (.inl rfl)) fun now _ ↦ ?_
    exact keeps_bind (meets_ask (.inr ⟨now, rfl⟩) fun _ _ ↦ trivial) fun _ _ ↦ trivial

theorem meets_service (lib : JsonLibrary) (member : Service) :
    (member.program lib).Meets expected (ServiceCall expected member) fun _ ↦ True := by
  cases member with
  | submission request uuid =>
    have hreified : ((request.program lib uuid).reify : Prog Empty _).Meets expected
        (SubmitCall uuid) fun _ ↦ True :=
      meets_reify (meets_submission lib uuid request) fun _ ↦ trivial
    exact keeps_bind hreified fun _ _ ↦ trivial
  | engine role => exact meets_role role
  | recovery =>
    refine keeps_bind (meets_now (.inl rfl)) fun now _ ↦ ?_
    exact keeps_bind (meets_ask (.inr ⟨now, rfl⟩) fun _ _ ↦ trivial) fun _ _ ↦ trivial

theorem meets_party (lib : JsonLibrary) (party : Party) :
    (party.program lib).Meets expected (PartyCall expected party) fun _ ↦ True := by
  cases party with
  | service member => exact meets_service lib member
  | marking runId =>
    have hreified : ((markRunning runId).reify : Prog Empty _).Meets expected
        (fun call ↦ ∃ claimMs, DispatchCall expected claimMs call) fun _ ↦ True :=
      meets_reify ((meets_markRunning runId 0).within fun _ h ↦ ⟨0, h⟩)
        fun _ ↦ trivial
    exact keeps_bind hreified fun _ _ ↦ trivial
  | attempt ex runId token leaseMs =>
    have hattempt : (attemptWithToken ex runId token leaseMs).Meets expected
        (AttemptCall expected runId token leaseMs) fun _ ↦ True :=
      keeps_mono (fun _ h ↦ h) (fun _ _ ↦ trivial) (meets_attemptWithToken ex runId token leaseMs)
    have hreified : ((attemptWithToken ex runId token leaseMs).reify : Prog Empty _).Meets expected
        (AttemptCall expected runId token leaseMs) fun _ ↦ True :=
      meets_reify hattempt fun _ ↦ trivial
    exact keeps_bind hreified fun _ _ ↦ trivial
  | deletion runId => exact keeps_bind (meets_ask rfl fun _ _ ↦ trivial) fun _ _ ↦ trivial

/-- No party writes a definition. -/
theorem PartyCall.leavesDefs {party : Party} {call : Call} (h : PartyCall expected party call) :
    call.LeavesDefs := by
  have hattempt {r : RunId} {token : Option ClaimToken} {leaseMs : ℤ}
      (hcall : AttemptCall expected r token leaseMs call) : call.LeavesDefs := by
    have hattempting := hcall.attempting
    cases call with
    | store call =>
      cases call with
      | putWorkflow | updateWorkflowVersion =>
        simp [Call.Attempting, Call.InWave, Call.Deciding, Call.OnRecords] at hattempting
      | _ => trivial
    | _ => trivial
  have hdispatch {claimMs : ℤ} (hcall : DispatchCall expected claimMs call) : call.LeavesDefs := by
    cases call with
    | store call => cases call <;> trivial
    | _ => trivial
  cases party with
  | service member =>
    cases member with
    | submission request uuid =>
      cases call with
      | store call => cases call <;> trivial
      | _ => trivial
    | engine role =>
      cases role with
      | dispatcher settings => exact hdispatch h
      | worker ex job =>
        rcases h with hcall | hcall
        · exact hattempt hcall
        · cases call with
          | store call => cases call <;> trivial
          | _ => trivial
      | operator runId => rcases h with rfl | ⟨now, rfl⟩ <;> trivial
    | recovery => rcases h with rfl | ⟨now, rfl⟩ <;> trivial
  | marking runId => exact hdispatch h.choose_spec
  | attempt ex runId token leaseMs => exact hattempt h
  | deletion runId =>
    obtain rfl := h
    trivial

end Contracts

end Runvane.Scheduler
