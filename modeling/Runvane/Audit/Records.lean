import Runvane.Domain.Dag

/-!
# Audit records

An audit record says who did what to which resource and with what outcome. A filter selects records
by these fields and by the time they were recorded, and carries the page that is asked for.
-/

set_option autoImplicit false

namespace Runvane.Audit

open Domain

abbrev AuditRecordId := Id .auditRecord

/-! ### Who, what and how -/

/-- Category of actor that initiates the event. -/
inductive AuditActor
  | system (component : String)
  | user (username role : String)
  | token (tokenId tenantId role : String)
  | anonymous (clientIp : Option String)
  deriving DecidableEq, Repr

/-- Short classifier of an actor. -/
def AuditActor.kindStr : AuditActor → String
  | system _ => "system"
  | user _ _ => "user"
  | token _ _ _ => "token"
  | anonymous _ => "anonymous"

/-- The administrative or operational action performed. -/
inductive AuditAction
  | workflowCreated (name : String) (version : ℕ)
  | workflowUpdated (name : String) (version : ℕ)
  | workflowDeleted (name : String)
  | runSubmitted (runId workflowName : String)
  | runCancelled (runId reason : String)
  | runRetried (runId : String) (attempt : ℕ)
  | authFailed (reason : String) (clientIp : Option String)
  | tokenCreated (tokenId role : String)
  | tokenRevoked (tokenId : String)
  | leaseReaped (count : ℕ)
  | retentionPurged (count : ℕ)
  | custom (name : String)
  deriving DecidableEq, Repr

/-- Short classifier of an action. -/
def AuditAction.actionName : AuditAction → String
  | workflowCreated _ _ => "workflow_created"
  | workflowUpdated _ _ => "workflow_updated"
  | workflowDeleted _ => "workflow_deleted"
  | runSubmitted _ _ => "run_submitted"
  | runCancelled _ _ => "run_cancelled"
  | runRetried _ _ => "run_retried"
  | authFailed _ _ => "auth_failed"
  | tokenCreated _ _ => "token_created"
  | tokenRevoked _ => "token_revoked"
  | leaseReaped _ => "lease_reaped"
  | retentionPurged _ => "retention_purged"
  | custom _ => "custom"

inductive AuditOutcome
  | success
  | denied (reason : String)
  | error (message : String)
  deriving DecidableEq, Repr

/-- Short classifier of an outcome. -/
def AuditOutcome.statusStr : AuditOutcome → String
  | success => "success"
  | denied _ => "denied"
  | error _ => "error"

/-! ### Records and filters -/

structure AuditRecord where
  id : AuditRecordId
  timestampMs : ℤ
  tenant : Option String := none
  actor : AuditActor
  action : AuditAction
  outcome : AuditOutcome
  resourceType : String
  resourceId : Option String := none
  metadata : NameMap Json := ∅

namespace AuditRecord

/-- A record with the required fields. -/
def new (id : AuditRecordId) (timestampMs : ℤ) (actor : AuditActor) (action : AuditAction)
    (outcome : AuditOutcome) (resourceType : String) : AuditRecord :=
  { id, timestampMs, actor, action, outcome, resourceType }

def withTenant (record : AuditRecord) (tenant : String) : AuditRecord :=
  { record with tenant := some tenant }

def withResourceId (record : AuditRecord) (resourceId : String) : AuditRecord :=
  { record with resourceId := some resourceId }

end AuditRecord

/-- What is asked of the audit log. -/
structure AuditFilter where
  tenant : Option String := none
  actorKind : Option String := none
  actionName : Option String := none
  status : Option String := none
  resourceType : Option String := none
  resourceId : Option String := none
  sinceMs : Option ℤ := none
  untilMs : Option ℤ := none
  limit : ℕ := 0
  offset : ℕ := 0
  deriving DecidableEq, Repr

def AuditFilter.matchesRecord (f : AuditFilter) (record : AuditRecord) : Bool :=
  f.tenant.all (fun expected ↦ record.tenant == some expected) &&
  f.actorKind.all (fun expected ↦ record.actor.kindStr == expected) &&
  f.actionName.all (fun expected ↦ record.action.actionName == expected) &&
  f.status.all (fun expected ↦ record.outcome.statusStr == expected) &&
  f.resourceType.all (fun expected ↦ record.resourceType == expected) &&
  f.resourceId.all (fun expected ↦ record.resourceId == some expected) &&
  f.sinceMs.all (fun since ↦ !decide (record.timestampMs < since)) &&
  f.untilMs.all (fun untilMs ↦ !decide (untilMs < record.timestampMs))

/-- The page of a filter: as many records as its limit, after its offset. -/
def AuditFilter.page (f : AuditFilter) (records : List AuditRecord) : List AuditRecord :=
  (records.drop f.offset).take f.limit

inductive AuditError
  | io (message : String)
  | serialization (message : String)
  | storage (message : String)
  deriving DecidableEq, Repr

end Runvane.Audit
