import Runvane.Library.Tolerance
import Runvane.Scheduler.Finishing

/-!
# Definitions that change under a run

A run records the version of the definition it was submitted with, but an attempt takes the latest
one that is stored under the tenant and the name. So a definition that is replaced between two
attempts, or before the first, changes what the run does (`definition_swapped`).

What an attempt takes from a definition are its tasks and its retry policy (`SamePlan`). Writes of
definitions that keep both are not noticed. Two executions that differ only in such writes, with
handlers and a clock that do not look at definitions (`Env.blinded`), invoke the same handlers with
the same contexts in the same order, and store the same runs and task runs (`definitions_isolated`).
The proof is the one of `System.similar_of_moves`: all parties but submissions are tolerant, and two
worlds with the same plans and the same other records stay such.
-/

set_option autoImplicit false

def Runvane.Persistence.MemoryStore.sansDefs (s : MemoryStore) : MemoryStore :=
  { s with defs := ∅ }

namespace Runvane.Scheduler

open Library Domain Persistence Prog Api
open CallProgram (Tolerant tolerant_of_calls tolerant_request_bind tolerant_bind tolerant_reify
  calls_of_meets)

/-! ### What an attempt takes from a definition -/

/-- Two definitions with the same tasks and the same retry policy. -/
def SamePlan (d d' : WorkflowDef) : Prop := d.tasks = d'.tasks ∧ d.retry = d'.retry

theorem SamePlan.trans {d d' d'' : WorkflowDef} (h : SamePlan d d') (h' : SamePlan d' d'') :
    SamePlan d d'' :=
  ⟨h.1.trans h'.1, h.2.trans h'.2⟩

theorem SamePlan.symm {d d' : WorkflowDef} (h : SamePlan d d') : SamePlan d' d :=
  ⟨h.1.symm, h.2.symm⟩

variable {ε : Type}

section Congruence

variable {d d' : WorkflowDef} (h : SamePlan d d')
include h

theorem pendingToSkip_congr (states : StatusMap) :
    pendingToSkip d states = pendingToSkip d' states := by
  have hpass (states : StatusMap) : skipPass d states = skipPass d' states := by
    simp only [skipPass, h.1]
  have hpasses (fuel : ℕ) (states : StatusMap) :
      skipPasses d fuel states = skipPasses d' fuel states := by
    induction fuel generalizing states with
    | zero => rfl
    | succ fuel ih => rw [skipPasses, skipPasses, hpass, ih]
  simp only [pendingToSkip, h.1, hpasses]

theorem policyOf_congr (name : String) : d.policyOf name = d'.policyOf name := by
  simp only [WorkflowDef.policyOf, h.1, h.2]

theorem budgetsLeft_congr (r : RunId) (names : List String) :
    (budgetsLeft r d names : Prog ε Bool) = budgetsLeft r d' names := by
  induction names with
  | nil => rfl
  | cons name names ih => simp only [budgetsLeft, policyOf_congr h, ih]

theorem finalize_congr (ex : RunExecutor) (run : Run) (states : StatusMap) :
    finalize ex run d states = finalize ex run d' states := by
  simp only [finalize, finishRetry, budgetsLeft_congr h, h.2]

theorem turn_congr (run : Run) (token : Option ClaimToken) (leaseMs : ℤ) (p : Progress) :
    turn run d token leaseMs p = turn run d' token leaseMs p := by
  have htask : waveTask run d token leaseMs = waveTask run d' token leaseMs := by
    funext p name
    simp only [waveTask, runTask, h.1]
  simp only [turn, turn.dispatch, nextWave, readyTasks, mayDispatch, policyOf_congr h, h.1, htask]

theorem runWaves_congr (ex : RunExecutor) (run : Run) (token : Option ClaimToken) (leaseMs : ℤ) :
    runWaves ex run d token leaseMs = runWaves ex run d' token leaseMs := by
  have hturn : turn run d token leaseMs = turn run d' token leaseMs :=
    funext (turn_congr h run token leaseMs)
  simp only [runWaves, loadedStates, hturn, pendingToSkip_congr h, finalize_congr h, h.1]

end Congruence

/-- Answers between which a program may have to decide: definitions with the same plan. -/
def AlikeAnswer : (call : Call) → call.Answer → call.Answer → Prop
  | .store (.getWorkflow ..) => fun first second ↦
    match first, second with
    | .ok record, .ok record' => SamePlan record.definition record'.definition
    | .error _, .error _ => True
    | _, _ => False
  | _ => fun first second ↦ first = second

/-- The calls that do not concern definitions. -/
def Call.OffDefs : Call → Prop
  | .store (.putWorkflow _) | .store (.updateWorkflowVersion ..) | .store (.getWorkflow ..) => False
  | _ => True

theorem alikeAnswer_iff {call : Call} (hcall : call.OffDefs) {first second : call.Answer} :
    AlikeAnswer call first second ↔ first = second := by
  cases call with
  | store call =>
    cases call with
    | getWorkflow => exact hcall.elim
    | _ => rfl
  | _ => rfl

theorem tolerant_of_offDefs {α : Type} {p : Prog ε α} (h : p.Calls Call.OffDefs) :
    p.Tolerant AlikeAnswer :=
  tolerant_of_calls (h.within fun _ hcall _ _ halike ↦ (alikeAnswer_iff hcall).mp halike)

/-! ### Everybody but submissions is tolerant -/

theorem RecordCall.offDefs {expected : (call : Call) → call.Answer → Prop} {r : RunId} {call : Call}
    (h : RecordCall expected r call) : call.OffDefs := by
  cases call with
  | store call => cases call <;> trivial
  | _ => trivial

theorem TimelyCall.offDefs {expected : (call : Call) → call.Answer → Prop} {run : Run}
    {d : WorkflowDef} {token : Option ClaimToken} {leaseMs : ℤ} {call : Call}
    (h : TimelyCall expected run d token leaseMs call) : call.OffDefs := by
  rcases h with (hrecord | hwave) | (hrecord | hdecision) | rfl
  · exact hrecord.offDefs
  · cases call with
    | store call => cases call <;> trivial
    | _ => trivial
  · exact hrecord.offDefs
  · cases call with
    | store call => cases call <;> trivial
    | _ => trivial
  · trivial

theorem Call.Deciding.offDefs {call : Call} (h : call.Deciding) : call.OffDefs := by
  cases call with
  | store call =>
    cases call with
    | putWorkflow | updateWorkflowVersion | getWorkflow => simp [Call.Deciding, Call.OnRecords] at h
    | _ => trivial
  | _ => trivial

theorem tolerant_attemptWithToken (ex : RunExecutor) (r : RunId) (token : Option ClaimToken)
    (leaseMs : ℤ) : (attemptWithToken ex r token leaseMs).Tolerant AlikeAnswer := by
  unfold attemptWithToken
  refine tolerant_bind (tolerant_of_offDefs (calls_ask trivial)) fun answer ↦ ?_
  cases answer with
  | error e => trivial
  | ok run =>
    refine tolerant_request_bind (fun first second halike ↦ ?_) fun answer ↦ ?_
    · cases first with
      | error e =>
        cases second with
        | error e' => rfl
        | ok record' => exact halike.elim
      | ok record =>
        cases second with
        | error e' => exact halike.elim
        | ok record' =>
          have hplan : SamePlan record.definition record'.definition := halike
          simp only [runWaves_congr hplan]
    · cases answer with
      | error e => trivial
      | ok record =>
        dsimp only
        split_ifs
        · trivial
        · trivial
        · refine tolerant_bind (tolerant_of_offDefs ?_) fun late ↦ ?_
          · exact calls_of_meets (meets_of_reads (returns_deadlinePassed run))
              fun _ ↦ RecordCall.offDefs
          · split_ifs
            · exact tolerant_of_offDefs
                ((calls_finishTimedOut run).within fun _ ↦ Call.Deciding.offDefs)
            · exact tolerant_of_offDefs (calls_of_meets
                (meets_runWaves ex run record.definition token leaseMs) fun _ ↦ TimelyCall.offDefs)

theorem tolerant_ask {call : Call} (h : call.OffDefs) :
    (ask call : Prog ε call.Answer).Tolerant AlikeAnswer :=
  tolerant_of_offDefs (calls_ask h)

theorem tolerant_runJob (ex : RunExecutor) (job : Job) :
    (runJob ex job : Prog ε Unit).Tolerant AlikeAnswer := by
  refine tolerant_bind (tolerant_reify (tolerant_attemptWithToken ..)) fun result ↦ ?_
  cases result with
  | ok outcome =>
    change (applyAction job outcome.action).Tolerant AlikeAnswer
    cases outcome.action with
    | ack => exact tolerant_bind (tolerant_ask trivial) fun _ ↦ trivial
    | release releaseAtMs => exact tolerant_bind (tolerant_ask trivial) fun _ ↦ trivial
  | error reason =>
    refine tolerant_bind (tolerant_ask trivial) fun now ↦ ?_
    exact tolerant_bind (tolerant_ask trivial) fun _ ↦ trivial

theorem DispatchCall.offDefs {expected : (call : Call) → call.Answer → Prop} {claimMs : ℤ}
    {call : Call} (h : DispatchCall expected claimMs call) : call.OffDefs := by
  cases call with
  | store call => cases call <;> trivial
  | _ => trivial

/-- The parties that submit runs. A new run takes the version of the definition it finds. -/
def Party.Submits : Party → Prop
  | .service (.submission ..) => True
  | _ => False

theorem tolerant_party (lib : JsonLibrary) {party : Party} (h : ¬ party.Submits) :
    (party.program lib).Tolerant AlikeAnswer := by
  cases party with
  | service member =>
    cases member with
    | submission request uuid => exact absurd trivial h
    | engine role =>
      cases role with
      | dispatcher settings =>
        have hstep : (settings.step : Prog Empty DispatchStats).Tolerant AlikeAnswer :=
          tolerant_of_offDefs (calls_of_meets (meets_step settings) fun _ ↦ DispatchCall.offDefs)
        exact tolerant_bind hstep fun _ ↦ trivial
      | worker ex job => exact tolerant_runJob ex job
      | operator runId =>
        refine tolerant_bind (tolerant_ask trivial) fun now ↦ ?_
        exact tolerant_bind (tolerant_ask trivial) fun _ ↦ trivial
    | recovery =>
      refine tolerant_bind (tolerant_ask trivial) fun now ↦ ?_
      exact tolerant_bind (tolerant_ask trivial) fun _ ↦ trivial
  | marking runId =>
    have hmarking : (markRunning runId).Tolerant AlikeAnswer :=
      tolerant_of_offDefs (calls_of_meets (meets_markRunning runId 0) fun _ ↦ DispatchCall.offDefs)
    exact tolerant_bind (tolerant_reify hmarking) fun _ ↦ trivial
  | attempt ex runId token leaseMs =>
    exact tolerant_bind (tolerant_reify (tolerant_attemptWithToken ..)) fun _ ↦ trivial
  | deletion runId => exact tolerant_bind (tolerant_ask trivial) fun _ ↦ trivial

/-! ### Worlds with the same plans -/

/-- What can be seen of an event without a look at definitions. Writes of definitions cannot, and of
the read of one only that it was made. -/
def Event.sansDefs : Event → Option Event
  | ⟨_, .store (.putWorkflow _), _⟩ | ⟨_, .store (.updateWorkflowVersion ..), _⟩ => none
  | ⟨store, .store (.getWorkflow tenant name), _⟩ =>
    some ⟨store.sansDefs, .store (.getWorkflow tenant name), .error (.notFound "")⟩
  | ⟨store, call, answer⟩ => some ⟨store.sansDefs, call, answer⟩

/-- The environment whose answers are those of `env`, but depend on nothing that concerns
definitions. -/
def Env.blinded (env : Env) : Env where
  clock log := env.clock (log.filterMap Event.sansDefs)
  registered log := env.registered (log.filterMap Event.sansDefs)
  execute log := env.execute (log.filterMap Event.sansDefs)
  token log := env.token (log.filterMap Event.sansDefs)
  submit log := env.submit (log.filterMap Event.sansDefs)
  order log := env.order (log.filterMap Event.sansDefs)

/-- Two worlds that differ in definitions only, which have the same plans. -/
structure Similar (w w' : World) : Prop where
  plans : ∀ key : WorkflowKey,
    Option.Rel (fun record record' ↦ SamePlan record.definition record'.definition)
      w.store.defs[key]? w'.store.defs[key]?
  others : w.store.sansDefs = w'.store.sansDefs
  seen : w.log.filterMap Event.sansDefs = w'.log.filterMap Event.sansDefs

/-- Calls that do not concern definitions neither read nor write them. -/
theorem apply_sansDefs (order : IterationOrder QueueEntry) (s : MemoryStore) (call : StoreCall)
    (h : Call.OffDefs (.store call)) : call.apply order s.sansDefs =
      ((call.apply order s).1, (call.apply order s).2.sansDefs) := by
  cases call with
  | putWorkflow | updateWorkflowVersion | getWorkflow => exact h.elim
  | enqueue entry =>
    simp only [StoreCall.apply, MemoryStore.enqueue, MemoryStore.sansDefs]
    split <;> rfl
  | claim runId token nowMs leaseMs =>
    simp only [StoreCall.apply, MemoryStore.claim, MemoryStore.sansDefs]
    split
    · rfl
    · split_ifs <;> rfl
  | ack | release | failclaim | renewLease =>
    simp only [StoreCall.apply, MemoryStore.ack, MemoryStore.release, MemoryStore.failclaim,
      MemoryStore.renewLease, MemoryStore.asHolder, MemoryStore.sansDefs]
    split
    · rfl
    · split_ifs <;> rfl
  | cancelRun runId nowMs =>
    simp only [StoreCall.apply, MemoryStore.cancelRun, MemoryStore.sansDefs]
    split
    · rfl
    · split_ifs <;> rfl
  | _ => rfl

theorem Event.sansDefs_of_offDefs (s : MemoryStore) (call : Call) (answer : call.Answer)
    (h : call.OffDefs) : Event.sansDefs ⟨s, call, answer⟩ = some ⟨s.sansDefs, call, answer⟩ := by
  cases call with
  | store call =>
    cases call with
    | putWorkflow | updateWorkflowVersion | getWorkflow => exact h.elim
    | _ => rfl
  | _ => rfl

section Similar

variable {env : Env} {w w' : World}

variable (env) in
theorem Similar.answer (h : Similar w w') {call : Call} (hcall : call.OffDefs) :
    (env.blinded.answer w call).1 = (env.blinded.answer w' call).1 ∧
      (env.blinded.answer w call).2.sansDefs = (env.blinded.answer w' call).2.sansDefs := by
  cases call with
  | store call =>
    have happly := apply_sansDefs (env.blinded.order w.log) w.store call hcall
    have horder : env.blinded.order w.log = env.blinded.order w'.log := congrArg env.order h.seen
    rw [h.others, horder, apply_sansDefs _ _ _ hcall, ← horder] at happly
    simp only [Env.answer, ← horder]
    exact ⟨(congrArg Prod.fst happly).symm, (congrArg Prod.snd happly).symm⟩
  | _ => exact ⟨by simp only [Env.answer, Env.blinded, h.seen], h.others⟩

theorem Similar.plans_after (h : Similar w w') {call : Call} (hcall : call.LeavesDefs)
    (key : WorkflowKey) :
    Option.Rel (fun record record' ↦ SamePlan record.definition record'.definition)
      (w.after env call).store.defs[key]? (w'.after env call).store.defs[key]? := by
  rw [defs_after env w call hcall, defs_after env w' call hcall]
  exact h.plans key

/-- Similar worlds give alike answers, and stay similar. -/
theorem Similar.after (h : Similar w w') {call : Call} (hcall : call.LeavesDefs) :
    AlikeAnswer call (serve env.blinded call w).1 (serve env.blinded call w').1 ∧
      Similar (serve env.blinded call w).2 (serve env.blinded call w').2 := by
  have hoff (hoff : call.OffDefs) :
      AlikeAnswer call (serve env.blinded call w).1 (serve env.blinded call w').1 ∧
        Similar (serve env.blinded call w).2 (serve env.blinded call w').2 := by
    obtain ⟨hanswer, hstore⟩ := h.answer env hoff
    refine ⟨(alikeAnswer_iff hoff).mpr hanswer, h.plans_after hcall, hstore, ?_⟩
    simp only [serve, World.after, List.filterMap_append, List.filterMap_cons, List.filterMap_nil,
      Event.sansDefs_of_offDefs _ _ _ hoff, h.seen, h.others, hanswer]
  cases call with
  | store call =>
    cases call with
    | putWorkflow | updateWorkflowVersion => exact hcall.elim
    | getWorkflow tenant name =>
      refine ⟨?_, h.plans_after hcall, h.others, ?_⟩
      · have hrel := h.plans ⟨tenant, name⟩
        simp only [serve, Env.answer, StoreCall.apply, MemoryStore.getWorkflow]
        generalize w.store.defs[WorkflowKey.mk tenant name]? = stored at hrel ⊢
        generalize w'.store.defs[WorkflowKey.mk tenant name]? = stored' at hrel ⊢
        cases hrel with
        | none => trivial
        | some hplan => exact hplan
      · simp only [serve, World.after, List.filterMap_append, List.filterMap_cons,
          List.filterMap_nil, Event.sansDefs, h.seen, h.others]
    | _ => exact hoff trivial
  | _ => exact hoff trivial

end Similar

/-! ### Writes of definitions -/

/-- The calls that write a definition. -/
inductive DefWrite
  | put (d : WorkflowDef)
  | update (tenant name : String) (d : WorkflowDef) (expectedVersion : ℕ)

def DefWrite.call : DefWrite → Call
  | .put d => .store (.putWorkflow d)
  | .update tenant name d expectedVersion =>
    .store (.updateWorkflowVersion tenant name d expectedVersion)

/-- A write that takes effect replaces a definition by one with the same plan. -/
def DefWrite.KeepsPlan (write : DefWrite) (w : World) : Prop :=
  match write with
  | .put d => ∃ record, w.store.defs[WorkflowKey.mk d.tenant d.name]? = some record ∧
      SamePlan record.definition d
  | .update tenant name d expectedVersion =>
    ∀ record, w.store.defs[WorkflowKey.mk tenant name]? = some record →
      record.definition.version = expectedVersion → d.version = u32Succ expectedVersion →
        SamePlan record.definition d

def written (env : Env) (write : DefWrite) (w : World) : World := w.after env write.call

section Writes

variable {env : Env} {w w' : World}

/-- A definition with the same plan takes the place of the one under its key. -/
theorem Similar.replace (h : Similar w w') {s : MemoryStore} {key : WorkflowKey}
    {record record' : WorkflowRecord} (hrecord : w.store.defs[key]? = some record)
    (hplan : SamePlan record.definition record'.definition) (e : Event)
    (he : Event.sansDefs e = none)
    (hs : s = { w.store with defs := w.store.defs.insert key record' }) :
    Similar ⟨s, w.log ++ [e]⟩ w' where
  plans other := by
    subst hs
    simp only [Std.ExtTreeMap.getElem?_insert, Std.compare_eq_iff_eq]
    have hrel := h.plans other
    split_ifs with hother
    · subst hother
      rw [hrecord] at hrel
      cases hstored : w'.store.defs[key]? with
      | none =>
        rw [hstored] at hrel
        cases hrel
      | some stored =>
        rw [hstored] at hrel
        cases hrel with
        | some hsame => exact .some (hplan.symm.trans hsame)
    · exact hrel
  others := by
    subst hs
    exact h.others
  seen := by simp [he, h.seen]

/-- An update of a definition fails and changes nothing, or replaces the version that was expected
by the next one. -/
theorem store_of_updateWorkflowVersion (s : MemoryStore) (tenant name : String) (d : WorkflowDef)
    (expectedVersion : ℕ) :
    (s.updateWorkflowVersion tenant name d expectedVersion).2 = s ∨
      ∃ record, s.defs[WorkflowKey.mk tenant name]? = some record ∧
        record.definition.version = expectedVersion ∧ d.version = u32Succ expectedVersion ∧
        (s.updateWorkflowVersion tenant name d expectedVersion).2 =
          { s with defs := s.defs.insert ⟨tenant, name⟩ ⟨d⟩ } := by
  unfold MemoryStore.updateWorkflowVersion
  cases hrecord : s.defs[WorkflowKey.mk tenant name]? with
  | none => exact .inl rfl
  | some record =>
    dsimp only
    split_ifs with hversion hnext
    · exact .inl rfl
    · exact .inl rfl
    · exact .inr ⟨record, rfl, not_not.mp hversion, not_not.mp hnext, rfl⟩

/-- A write that keeps the plan leads to a world that is similar to what the one before was. -/
theorem Similar.written (h : Similar w w') {write : DefWrite} (hwrite : write.KeepsPlan w) :
    Similar (written env write w) w' := by
  cases write with
  | put d =>
    obtain ⟨record, hrecord, hplan⟩ := hwrite
    exact h.replace hrecord hplan _ rfl rfl
  | update tenant name d expectedVersion =>
    rcases store_of_updateWorkflowVersion w.store tenant name d expectedVersion with
      hsame | ⟨record, hrecord, hversion, hnext, hstore⟩
    · have hseen : (Scheduler.written env (.update tenant name d expectedVersion) w).log.filterMap
          Event.sansDefs = w'.log.filterMap Event.sansDefs := by
        simp [Scheduler.written, World.after, DefWrite.call, Event.sansDefs, h.seen]
      have hstore : (Scheduler.written env (.update tenant name d expectedVersion) w).store =
          w.store := hsame
      exact ⟨fun key ↦ by rw [hstore]; exact h.plans key, by rw [hstore]; exact h.others, hseen⟩
    · exact h.replace hrecord (hwrite record hrecord hversion hnext) _ rfl hstore

end Writes

/-! ### Two executions -/

def Event.invocation (e : Event) : Option (HandlerId × TaskContext) :=
  match e.call with
  | .execute handler ctx => some (handler, ctx)
  | _ => none

theorem invocations_sansDefs (log : List Event) :
    (log.filterMap Event.sansDefs).filterMap Event.invocation = log.filterMap Event.invocation := by
  rw [List.filterMap_filterMap]
  congr 1
  funext e
  obtain ⟨store, call, answer⟩ := e
  cases call with
  | store call => cases call <;> rfl
  | _ => rfl

section Executions

variable (env : Env) (lib : JsonLibrary) (w : World) (moves : List (Move Party DefWrite))

/-- The world after an execution with writes of definitions among the turns. -/
def withWrites : World :=
  (System.afterMoves (serve env) (Party.program lib) (written env) ⟨w, []⟩ moves).state

/-- The world after the same execution without the writes. -/
def withoutWrites : World :=
  (System.afterTurns (serve env) (Party.program lib) ⟨w, []⟩ moves).state

/-- Every write of a definition that takes effect keeps the plan that is stored. -/
def PlansKept : Prop :=
  System.Permitted (serve env) (Party.program lib) (written env) DefWrite.KeepsPlan ⟨w, []⟩ moves

end Executions

/-- Two executions from the same world, with the same turns of attempts, dispatchers, workers,
operators and recoveries, and with handlers and a clock that do not look at definitions. In one of
them definitions are written, too, by writes that keep the plan that is stored. Then the same
handlers are invoked with the same contexts in the same order, and the same runs and task runs are
stored. -/
theorem definitions_isolated (env : Env) (lib : JsonLibrary) (w : World)
    (moves : List (Move Party DefWrite))
    (hparties : ∀ party, .turn (.start party) ∈ moves → ¬ party.Submits)
    (hkept : PlansKept env.blinded lib w moves) :
    (withWrites env.blinded lib w moves).log.filterMap Event.invocation =
      (withoutWrites env.blinded lib w moves).log.filterMap Event.invocation ∧
    (withWrites env.blinded lib w moves).store.runs =
      (withoutWrites env.blinded lib w moves).store.runs ∧
    (withWrites env.blinded lib w moves).store.taskRuns =
      (withoutWrites env.blinded lib w moves).store.taskRuns := by
  have hrefl : Similar w w :=
    ⟨fun key ↦ by cases w.store.defs[key]? <;> constructor; exact ⟨rfl, rfl⟩, rfl, rfl⟩
  have hsimilar : Similar (withWrites env.blinded lib w moves)
      (withoutWrites env.blinded lib w moves) := by
    refine System.similar_of_moves (fun call s s' hcall hs ↦ hs.after hcall)
      (fun write s s' hwrite hs ↦ hs.written hwrite) (fun party hparty ↦ ?_)
      ⟨rfl, by simp, hrefl⟩ hkept
    exact ⟨calls_of_meets (meets_party lib party) fun _ ↦ PartyCall.leavesDefs,
      tolerant_party lib (hparties party hparty)⟩
  have hruns := congrArg MemoryStore.runs hsimilar.others
  have htaskRuns := congrArg MemoryStore.taskRuns hsimilar.others
  refine ⟨?_, hruns, htaskRuns⟩
  rw [← invocations_sansDefs, hsimilar.seen, invocations_sansDefs]

/-- The definition of the run is updated before its only attempt. -/
def sampleMoves (d : WorkflowDef) : List (Move Party DefWrite) :=
  .change (.update "t" "flow" d 1) ::
    .turn (.start (.attempt plainExecutor sampleRun none 0)) :: List.replicate 30 (.turn (.call 0))

def describedDef : WorkflowDef := { sampleDef with version := 2, description := "nightly" }

def swappedDef : WorkflowDef :=
  { sampleDef with version := 2, tasks := [{ name := "c", handler := ⟨"g"⟩ }] }

theorem plansKept_sample (env : Env) (lib : JsonLibrary) :
    PlansKept env lib ⟨sampleStore, []⟩ (sampleMoves describedDef) := by
  refine ⟨fun record hrecord _ _ ↦ ?_, trivial⟩
  obtain rfl : (⟨sampleDef⟩ : WorkflowRecord) = record := Option.some.inj hrecord
  exact ⟨rfl, rfl⟩

theorem sampleMoves_parties (d : WorkflowDef) (party : Party)
    (h : .turn (.start party) ∈ sampleMoves d) : ¬ party.Submits := by
  simp only [sampleMoves, List.mem_cons, List.mem_replicate] at h
  rcases h with h | h | ⟨-, h⟩
  · cases h
  · cases h
    exact id
  · cases h

theorem definitions_isolated_sample :
    PlansKept allUp.blinded plainJson ⟨sampleStore, []⟩ (sampleMoves describedDef) ∧
    (withWrites allUp.blinded plainJson ⟨sampleStore, []⟩ (sampleMoves describedDef)).log.filterMap
        Event.invocation =
      (withoutWrites allUp.blinded plainJson ⟨sampleStore, []⟩
        (sampleMoves describedDef)).log.filterMap Event.invocation ∧
    (withWrites allUp.blinded plainJson ⟨sampleStore, []⟩ (sampleMoves describedDef)).store.runs =
      (withoutWrites allUp.blinded plainJson ⟨sampleStore, []⟩
        (sampleMoves describedDef)).store.runs ∧
    (withWrites allUp.blinded plainJson ⟨sampleStore, []⟩
        (sampleMoves describedDef)).store.taskRuns =
      (withoutWrites allUp.blinded plainJson ⟨sampleStore, []⟩
        (sampleMoves describedDef)).store.taskRuns :=
  ⟨plansKept_sample .., definitions_isolated allUp plainJson ⟨sampleStore, []⟩
    (sampleMoves describedDef) (sampleMoves_parties describedDef) (plansKept_sample ..)⟩

/-- The definition of a submitted run is updated to one with another task. Without the update an
attempt invokes the handlers of `a` and `b`, and stores `a` as succeeded. With it, it invokes the
handler of the new task, and `a` is not touched. -/
theorem definition_swapped :
    ((withoutWrites allUp.blinded plainJson ⟨sampleStore, []⟩
        (sampleMoves swappedDef)).log.filterMap Event.invocation).map (·.2.taskName) = ["a", "b"] ∧
    ((withWrites allUp.blinded plainJson ⟨sampleStore, []⟩
        (sampleMoves swappedDef)).log.filterMap Event.invocation).map (·.2.taskName) = ["c"] ∧
    HasStatus (withoutWrites allUp.blinded plainJson ⟨sampleStore, []⟩
      (sampleMoves swappedDef)).store sampleRun "a" .succeeded ∧
    ¬ HasStatus (withWrites allUp.blinded plainJson ⟨sampleStore, []⟩
      (sampleMoves swappedDef)).store sampleRun "a" .succeeded := by
  rw [hasStatus_iff (by simp), hasStatus_iff (by simp)]
  decide

end Runvane.Scheduler
