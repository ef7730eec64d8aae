import Runvane.Api.Submission
import Runvane.Domain.Names

/-!
# The creation of definitions

`WorkflowSpec::into_definition` of `api/payloads.rs` and `create_workflow` of `api/server.rs`: the
payload of a request is completed by defaults, stamped with version 1, validated and stored. The
other way to write a definition is `update_workflow_version`, which asks for the next version.

A definition is meant to be immutable under its tenant, name and version. A second creation of a
name replaces what is stored by another version 1 (`recreated_definition`). Versions ascend, and a
version never stands for two definitions, exactly when every creation that goes through is the first
of its name, and no update starts from the last version there is (`versions_ascend_iff`).
-/

set_option autoImplicit false

namespace Runvane.Api

open Library Domain Persistence

/-! ### Payloads -/

structure TaskSpecPayload where
  name : String
  handler : String
  input : Option Json := none
  dependsOn : Option (List String) := none
  timeoutMs : Option ℕ := none
  retry : Option RetryPolicy := none

def TaskSpecPayload.intoTask (payload : TaskSpecPayload) : Except ApiError TaskSpec :=
  match HandlerId.parse payload.handler with
  | .error e => .error (.id e)
  | .ok handler => .ok
    { name := payload.name
      handler := handler
      input := payload.input.getD (.object [])
      dependsOn := payload.dependsOn.getD []
      timeoutMs := payload.timeoutMs
      retry := payload.retry }

/-- The payload of a definition. -/
structure WorkflowSpec where
  tenant : String
  name : String
  description : Option String := none
  tasks : List TaskSpecPayload
  timeoutMs : Option ℕ := none
  retry : Option RetryPolicy := none
  hooks : Option Hooks := none

/-- The definition that a payload with these tasks stands for. -/
def WorkflowSpec.stamped (spec : WorkflowSpec) (tasks : List TaskSpec) : WorkflowDef where
  tenant := spec.tenant
  name := spec.name
  version := 1
  description := spec.description.getD ""
  tasks := tasks
  timeoutMs := spec.timeoutMs.getD 60000
  retry := spec.retry.getD {}
  hooks := spec.hooks.getD {}

/-- Converts into a validated definition. -/
def WorkflowSpec.intoDefinition (parse : UrlParser) (spec : WorkflowSpec) :
    Except ApiError WorkflowDef := do
  (validateTenantId spec.tenant).mapError .id
  let tasks ← spec.tasks.mapM TaskSpecPayload.intoTask
  (validateDefinition parse (spec.stamped tasks)).mapError .domain
  (validateWorkflowPolicy (spec.stamped tasks)).mapError .domain
  pure (spec.stamped tasks)

/-- `POST /v1/workflows`. -/
def createWorkflow (parse : UrlParser) (s : MemoryStore) (spec : WorkflowSpec) :
    Except ApiError WorkflowRecord × MemoryStore :=
  match spec.intoDefinition parse with
  | .error e => (.error e, s)
  | .ok d =>
    let (answer, s') := s.putWorkflow d
    (answer.mapError .storage, s')

/-- What is accepted is the stamped payload, and passes validation. -/
theorem intoDefinition_eq_ok {parse : UrlParser} {spec : WorkflowSpec} {d : WorkflowDef}
    (h : spec.intoDefinition parse = .ok d) :
    (∃ tasks, d = spec.stamped tasks) ∧ validateDefinition parse d = .ok () ∧
      validateWorkflowPolicy d = .ok () := by
  obtain ⟨_, -, h⟩ := bind_eq_ok h
  obtain ⟨tasks, -, h⟩ := bind_eq_ok h
  obtain ⟨_, hvalid, h⟩ := bind_eq_ok h
  obtain ⟨_, hpolicy, h⟩ := bind_eq_ok h
  obtain rfl := Except.ok.inj h
  exact ⟨⟨tasks, rfl⟩, mapError_eq_ok hvalid, mapError_eq_ok hpolicy⟩

/-! ### Writes of definitions -/

/-- A request that writes a definition. -/
inductive DefinitionCall
  | create (spec : WorkflowSpec)
  | update (tenant name : String) (d : WorkflowDef) (expectedVersion : ℕ)

namespace DefinitionCall

/-- The natural key that a request writes. -/
def key : DefinitionCall → WorkflowKey
  | create spec => ⟨spec.tenant, spec.name⟩
  | update tenant name _ _ => ⟨tenant, name⟩

def creates : DefinitionCall → Bool
  | create _ => true
  | update .. => false

def apply (parse : UrlParser) (s : MemoryStore) :
    DefinitionCall → Except ApiError WorkflowRecord × MemoryStore
  | create spec => createWorkflow parse s spec
  | update tenant name d expectedVersion =>
    let (answer, s') := s.updateWorkflowVersion tenant name d expectedVersion
    (answer.mapError .storage, s')

end DefinitionCall

/-- A write that went through: whether it was a creation, its key, what was stored under the key
before, and what is stored since. -/
structure Written where
  created : Bool
  key : WorkflowKey
  replaced : Option WorkflowDef
  stored : WorkflowDef

/-- The record of a request that goes through. -/
def writeOf (s : MemoryStore) (call : DefinitionCall) (record : WorkflowRecord) : Written where
  created := call.creates
  key := call.key
  replaced := (s.defs[call.key]?).map WorkflowRecord.definition
  stored := record.definition

/-- The writes that go through in a sequence of requests. -/
def writes (parse : UrlParser) : MemoryStore → List DefinitionCall → List Written
  | _, [] => []
  | s, call :: calls =>
    match call.apply parse s with
    | (.error _, s') => writes parse s' calls
    | (.ok record, s') => writeOf s call record :: writes parse s' calls

def Written.Ascends (w : Written) : Prop := ∀ d ∈ w.replaced, d.version < w.stored.version

/-- The write adds to what is stored: a creation finds nothing under its key, and an update does not
find the last version. -/
def Written.Adds (w : Written) : Prop :=
  ∀ d ∈ w.replaced, w.created = false ∧ d.version + 1 < 2 ^ 32

/-- Under one key, one version stands for one definition. -/
def SamePayload (first second : Written) : Prop :=
  first.key = second.key → first.stored.version = second.stored.version →
    first.stored = second.stored

/-! ### Single requests -/

variable {record : WorkflowRecord}

section Requests

variable {parse : UrlParser} {s s' : MemoryStore} {call : DefinitionCall}

theorem defs_of_apply_error {e : ApiError} (h : call.apply parse s = (.error e, s')) :
    s'.defs = s.defs := by
  cases call with
  | create spec =>
    simp only [DefinitionCall.apply, createWorkflow] at h
    split at h
    · cases h
      rfl
    · cases h
  | update tenant name d expected =>
    simp only [DefinitionCall.apply, MemoryStore.updateWorkflowVersion] at h
    split at h
    · cases h
      rfl
    · split_ifs at h <;> cases h <;> rfl

/-- What a request that goes through does: it stores version 1 if it is a creation, and the version
after the stored one if it is an update. -/
theorem stored_of_apply_ok (h : call.apply parse s = (.ok record, s')) :
    s'.defs = s.defs.insert call.key record ∧
      (call.creates = true ∧ record.definition.version = 1 ∨
        call.creates = false ∧ ∃ current, s.defs[call.key]? = some current ∧
          record.definition.version = u32Succ current.definition.version) := by
  cases call with
  | create spec =>
    simp only [DefinitionCall.apply, createWorkflow] at h
    split at h
    · cases h
    · next d hd =>
      obtain ⟨⟨tasks, rfl⟩, -, -⟩ := intoDefinition_eq_ok hd
      cases h
      exact ⟨rfl, .inl ⟨rfl, rfl⟩⟩
  | update tenant name d expected =>
    simp only [DefinitionCall.apply, MemoryStore.updateWorkflowVersion] at h
    split at h
    · cases h
    · next current hcurrent =>
      split_ifs at h with hversion hnext
      · cases h
      · cases h
      · cases h
        rw [not_not] at hversion hnext
        exact ⟨rfl, .inr ⟨rfl, current, hcurrent, by rw [hversion]; exact hnext⟩⟩

end Requests

/-! ### Sequences of requests -/

section Sequences

variable {parse : UrlParser}

/-- The rule for the writes of a sequence: a request that fails adds none, and one that goes through
adds its own in front of those that follow. -/
theorem writes_induction {motive : MemoryStore → List Written → Prop} (nil : ∀ s, motive s [])
    (error : ∀ {s s' : MemoryStore} {call : DefinitionCall} {e : ApiError} {later : List Written},
      call.apply parse s = (.error e, s') → motive s' later → motive s later)
    (ok : ∀ {s s' : MemoryStore} {call : DefinitionCall} {record : WorkflowRecord}
      {later : List Written}, call.apply parse s = (.ok record, s') → motive s' later →
        motive s (writeOf s call record :: later))
    (s : MemoryStore) (calls : List DefinitionCall) : motive s (writes parse s calls) := by
  induction calls generalizing s with
  | nil => exact nil s
  | cons call calls ih =>
    rw [writes]
    split
    · next e s' happly => exact error happly (ih s')
    · next record s' happly => exact ok happly (ih s')

theorem mem_replaced {s : MemoryStore} {call : DefinitionCall} {d : WorkflowDef} :
    d ∈ (writeOf s call record).replaced ↔
      ∃ current, s.defs[call.key]? = some current ∧ current.definition = d :=
  Option.map_eq_some_iff

theorem u32Succ_gt_iff (n : ℕ) : n < u32Succ n ↔ n + 1 < 2 ^ 32 := by
  unfold u32Succ
  omega

def VersionsPositive (s : MemoryStore) : Prop :=
  ∀ (key : WorkflowKey) (record : WorkflowRecord), s.defs[key]? = some record →
    0 < record.definition.version

variable (s : MemoryStore) (calls : List DefinitionCall)

/-- Every write is the record of a request that went through. -/
theorem exists_of_mem_writes :
    ∀ w ∈ writes parse s calls, ∃ s₁ s₂ call record,
      call.apply parse s₁ = (.ok record, s₂) ∧ w = writeOf s₁ call record := by
  refine writes_induction (motive := fun _ written ↦ ∀ w ∈ written, ∃ s₁ s₂ call record,
    call.apply parse s₁ = (.ok record, s₂) ∧ w = writeOf s₁ call record) ?nil ?error ?ok s calls
  case nil => simp
  case error => exact fun _ ih ↦ ih
  case ok =>
    intro s s' call record later happly ih
    exact List.forall_mem_cons.mpr ⟨⟨s, s', call, record, happly, rfl⟩, ih⟩

/-- A write that adds to what is stored ascends. -/
theorem ascends_of_adds {s s' : MemoryStore} {call : DefinitionCall}
    (h : call.apply parse s = (.ok record, s')) (hadds : (writeOf s call record).Adds) :
    (writeOf s call record).Ascends := by
  intro d hd
  obtain ⟨hcreated, hlast⟩ := hadds d hd
  obtain ⟨current, hcurrent, rfl⟩ := mem_replaced.mp hd
  obtain ⟨-, ⟨hcreates, -⟩ | ⟨-, other, hother, hversion⟩⟩ := stored_of_apply_ok h
  · exact absurd (hcreates.symm.trans hcreated) (by simp)
  · obtain rfl := Option.some.inj (hcurrent.symm.trans hother)
    show current.definition.version < record.definition.version
    rw [hversion]
    exact (u32Succ_gt_iff _).mpr hlast

/-- Where no version is zero, a write that ascends adds to what is stored. -/
theorem adds_of_ascends {s s' : MemoryStore} {call : DefinitionCall} (hs : VersionsPositive s)
    (h : call.apply parse s = (.ok record, s')) (hascends : (writeOf s call record).Ascends) :
    (writeOf s call record).Adds := by
  intro d hd
  have hlt : d.version < record.definition.version := hascends d hd
  obtain ⟨current, hcurrent, rfl⟩ := mem_replaced.mp hd
  obtain ⟨-, ⟨-, hone⟩ | ⟨hcreates, other, hother, hversion⟩⟩ := stored_of_apply_ok h
  · have hpos := hs _ current hcurrent
    omega
  · obtain rfl := Option.some.inj (hcurrent.symm.trans hother)
    rw [hversion] at hlt
    exact ⟨hcreates, (u32Succ_gt_iff _).mp hlt⟩

/-- What is stored under a key after a request that went through. -/
theorem getElem?_defs_of_ok {s s' : MemoryStore} {call : DefinitionCall}
    (h : call.apply parse s = (.ok record, s')) (key : WorkflowKey) :
    s'.defs[key]? = if call.key = key then some record else s.defs[key]? := by
  rw [(stored_of_apply_ok h).1, Std.ExtTreeMap.getElem?_insert]
  simp only [Std.compare_eq_iff_eq]

/-- The writes lie above what is stored, and versions ascend along the writes of a key. -/
def Rising (s : MemoryStore) (written : List Written) : Prop :=
  (∀ w ∈ written, ∀ record ∈ s.defs[w.key]?, record.definition.version < w.stored.version) ∧
    written.Pairwise fun first second ↦
      first.key = second.key → first.stored.version < second.stored.version

/-- When all writes add to what is stored, they rise. -/
theorem rising_of_adds :
    (∀ w ∈ writes parse s calls, w.Adds) → Rising s (writes parse s calls) := by
  refine writes_induction (motive := fun s written ↦ (∀ w ∈ written, w.Adds) → Rising s written)
    ?nil ?error ?ok s calls
  case nil => simp [Rising]
  case error =>
    intro s s' call e later happly ih
    unfold Rising at ih ⊢
    rwa [← defs_of_apply_error happly]
  case ok =>
    intro s s' call stored later happly ih h
    rw [List.forall_mem_cons] at h
    obtain ⟨habove, hpairwise⟩ := ih h.2
    have hhead := ascends_of_adds happly h.1
    refine ⟨List.forall_mem_cons.mpr ⟨fun record hrecord ↦ ?_, fun w hw record hrecord ↦ ?_⟩,
      List.pairwise_cons.mpr ⟨fun w hw hkey ↦ habove w hw stored ?_, hpairwise⟩⟩
    · exact hhead _ (mem_replaced.mpr ⟨record, hrecord, rfl⟩)
    · have hlater := habove w hw
      rw [getElem?_defs_of_ok happly] at hlater
      by_cases hkey : call.key = w.key
      · rw [if_pos hkey] at hlater
        rw [← hkey] at hrecord
        exact (hhead _ (mem_replaced.mpr ⟨record, hrecord, rfl⟩)).trans (hlater stored rfl)
      · rw [if_neg hkey] at hlater
        exact hlater record hrecord
    · exact (getElem?_defs_of_ok happly w.key).trans (if_pos hkey)

/-- When all writes ascend, from a store without a version zero, all add to what is stored. -/
theorem all_adds_of_ascend (hs : VersionsPositive s) (h : ∀ w ∈ writes parse s calls, w.Ascends) :
    ∀ w ∈ writes parse s calls, w.Adds := by
  revert hs h
  refine writes_induction (motive := fun s written ↦ VersionsPositive s →
    (∀ w ∈ written, w.Ascends) → ∀ w ∈ written, w.Adds) ?nil ?error ?ok s calls
  case nil => simp
  case error =>
    intro s s' call e later happly ih hs
    refine ih fun key record hrecord ↦ hs key record ?_
    rwa [← defs_of_apply_error happly]
  case ok =>
    intro s s' call stored later happly ih hs h
    rw [List.forall_mem_cons] at h ⊢
    refine ⟨adds_of_ascends hs happly h.1, ih (fun key current hcurrent ↦ ?_) h.2⟩
    rw [getElem?_defs_of_ok happly] at hcurrent
    split_ifs at hcurrent
    · obtain rfl := Option.some.inj hcurrent
      obtain ⟨-, ⟨-, hone⟩ | ⟨-, replaced, hreplaced, -⟩⟩ := stored_of_apply_ok happly
      · omega
      · exact (Nat.zero_le _).trans_lt (h.1 _ (mem_replaced.mpr ⟨replaced, hreplaced, rfl⟩))
    · exact hs key current hcurrent

end Sequences

/-- In a sequence of creations and updates on a new store, every write stores a greater version than
the one before and no version stands for two definitions, exactly when every creation that goes
through is the first of its name and no update starts from the last version. -/
theorem versions_ascend_iff (parse : UrlParser) (calls : List DefinitionCall) :
    (∀ w ∈ writes parse .new calls, w.Ascends) ∧
        (writes parse .new calls).Pairwise SamePayload ↔
      ∀ w ∈ writes parse .new calls, w.Adds := by
  constructor
  · rintro ⟨hascend, -⟩
    have hnew : VersionsPositive .new := by
      intro key record hrecord
      simp [MemoryStore.new] at hrecord
    exact all_adds_of_ascend .new calls hnew hascend
  · intro hadds
    have hpairwise := (rising_of_adds .new calls hadds).2
    refine ⟨fun w hw ↦ ?_, hpairwise.imp fun hlt hkey hversion ↦ ?_⟩
    · obtain ⟨s₁, s₂, call, record, happly, rfl⟩ := exists_of_mem_writes .new calls w hw
      exact ascends_of_adds happly (hadds _ hw)
    · exact absurd hversion (hlt hkey).ne

/-- A payload with a single task. -/
def nightlySpec (task : String) : WorkflowSpec where
  tenant := "acme"
  name := "nightly"
  tasks := [{ name := task, handler := "runvane.echo" }]

/-- A name is created twice, with different tasks. Both definitions are stored as version 1. -/
theorem recreated_definition :
    let written := writes (fun _ ↦ .error "") .new
      [.create (nightlySpec "a"), .create (nightlySpec "b")]
    (written.map fun w ↦ (w.key, w.replaced.map WorkflowDef.version, w.stored.version,
        w.stored.names)) =
      [(⟨"acme", "nightly"⟩, none, 1, ["a"]), (⟨"acme", "nightly"⟩, some 1, 1, ["b"])] ∧
    ¬ (∀ w ∈ written, w.Ascends) ∧ ¬ written.Pairwise SamePayload := by
  intro written
  have hsummary : (written.map fun w ↦ (w.key, w.replaced.map WorkflowDef.version, w.stored.version,
      w.stored.names)) =
      [(⟨"acme", "nightly"⟩, none, 1, ["a"]), (⟨"acme", "nightly"⟩, some 1, 1, ["b"])] := by
    decide
  obtain ⟨first, rest, hwritten, hfirst, hrest⟩ := List.map_eq_cons_iff.mp hsummary
  obtain ⟨second, last, rfl, hsecond, hlast⟩ := List.map_eq_cons_iff.mp hrest
  obtain rfl := List.map_eq_nil_iff.mp hlast
  simp only [Prod.mk.injEq] at hfirst hsecond
  obtain ⟨hkey, -, hversion, hnames⟩ := hfirst
  obtain ⟨hkey', hreplaced, hversion', hnames'⟩ := hsecond
  refine ⟨hsummary, fun hascend ↦ ?_, fun hsame ↦ ?_⟩
  · obtain ⟨d, hd, hone⟩ := Option.map_eq_some_iff.mp hreplaced
    have hlt := hascend second (by simp [hwritten]) d hd
    omega
  · rw [hwritten] at hsame
    have heq : first.stored = second.stored :=
      (List.pairwise_cons.mp hsame).1 second (by simp) (hkey.trans hkey'.symm)
        (hversion.trans hversion'.symm)
    rw [heq, hnames'] at hnames
    simp at hnames

end Runvane.Api
