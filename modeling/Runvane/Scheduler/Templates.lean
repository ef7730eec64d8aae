import Runvane.Engine.Expr
import Runvane.Scheduler.Finishing

/-!
# Inputs with expressions in them

The inputs of tasks are templates: they may refer to the input of the run and to the outputs of
other tasks. The executor does not interpolate them. It passes a handler the input as the definition
has it, so a handler that should be given a name is given the expression that stands for it
(`input_passed_raw`).

For inputs in which no expression is opened the two are the same, and the handlers receive what the
templates say, whoever attempts the run and whatever else goes on (`inputs_interpolated`).
-/

set_option autoImplicit false

namespace Runvane.Scheduler

open Library Domain Persistence Engine Prog Api

def succeededOutputs (s : MemoryStore) (r : RunId) : NameMap Json :=
  ((s.listTaskRunsForRun r).toOption.getD []).foldl (fun outputs tr ↦
    if tr.status = .succeeded then outputs.insert tr.taskName (tr.output.getD .null) else outputs) ∅

/-- What the templates of a run refer to: its input, and the outputs of its tasks so far. -/
def exprContext (metadata : NameMap String) (s : MemoryStore) (r : RunId) : ExprContext where
  runInput := (s.runs.get? r).elim .null Run.input
  taskOutputs := succeededOutputs s r
  metadata := metadata

/-- A handler that is invoked for a run of the definition is passed the input of its task,
interpolated at this point. -/
def Interpolated (floatText : F64 → String) (metadata : NameMap String) (d : WorkflowDef)
    (e : Event) : Prop :=
  ∀ handler ctx, e.call = .execute handler ctx → ctx.tenant = d.tenant → ctx.defName = d.name →
    ∃ task ∈ d.tasks, task.name = ctx.taskName ∧ task.handler = handler ∧
      interpolateJson floatText (exprContext metadata e.store ctx.runId) task.input = .ok ctx.input

/-! ### Literal inputs -/

section Literal

variable {s : MemoryStore}

def DefinitionAnswer (s : MemoryStore) : (call : Call) → call.Answer → Prop
  | .store (.getWorkflow tenant name), answer => answer = s.getWorkflow tenant name
  | _, _ => True

/-- The handler is the one of a task of the stored definition, and is passed the input of the task.
-/
def PassesInput (s : MemoryStore) : Call → Prop
  | .execute handler ctx => ∃ record, s.getWorkflow ctx.tenant ctx.defName = .ok record ∧
      ∃ task ∈ record.definition.tasks,
        handler = task.handler ∧ ctx.taskName = task.name ∧ ctx.input = task.input
  | _ => True

theorem AttemptCall.passesInput {r : RunId} {token : Option ClaimToken} {leaseMs : ℤ} {call : Call}
    (h : AttemptCall (DefinitionAnswer s) r token leaseMs call) : PassesInput s call := by
  cases call with
  | execute handler ctx =>
    obtain ⟨record, hrecord, htask⟩ := h.execute
    exact ⟨record, hrecord.symm, htask⟩
  | _ => trivial

theorem PartyCall.passesInput {party : Party} {call : Call}
    (h : PartyCall (DefinitionAnswer s) party call) : PassesInput s call := by
  cases call with
  | execute handler ctx =>
    cases party with
    | service member =>
      cases member with
      | submission request uuid => exact h.elim
      | engine role =>
        cases role with
        | dispatcher settings => exact h.elim
        | worker ex job => exact AttemptCall.passesInput (h.resolve_right id)
        | operator runId => rcases h with h | ⟨now, h⟩ <;> cases h
      | recovery => rcases h with h | ⟨now, h⟩ <;> cases h
    | marking runId => exact h.choose_spec.elim
    | attempt ex runId token leaseMs => exact AttemptCall.passesInput h
    | deletion runId => cases h
  | _ => trivial

/-- The definitions are those of the store in the beginning, and every handler was passed the input
of its task. -/
structure InputsPassed (s : MemoryStore) (w : World) : Prop where
  defs : w.store.defs = s.defs
  log : ∀ e ∈ w.log, PassesInput s e.call

theorem InputsPassed.answer {env : Env} {w : World} (h : InputsPassed s w) (call : Call) :
    DefinitionAnswer s call (env.answer w call).1 := by
  cases call with
  | store call =>
    cases call with
    | getWorkflow tenant name =>
      show w.store.getWorkflow tenant name = s.getWorkflow tenant name
      unfold MemoryStore.getWorkflow
      rw [h.defs]
    | _ => trivial
  | _ => trivial

theorem inputsPassed_of_partyWorlds (env : Env) (lib : JsonLibrary) (s : MemoryStore)
    (turns : List (Turn Party)) :
    ∀ reached ∈ partyWorlds env lib ⟨s, []⟩ turns, InputsPassed s reached := by
  have hserve (party : Party) (call : Call) (w : World) (hw : InputsPassed s w)
      (hcall : PartyCall (DefinitionAnswer s) party call) (_ : True) :
      DefinitionAnswer s call (serve env call w).1 ∧ InputsPassed s (serve env call w).2 := by
    refine ⟨hw.answer call, (defs_after env w call hcall.leavesDefs).trans hw.defs, ?_⟩
    intro e he
    rcases List.mem_append.mp he with hold | hnew
    · exact hw.log e hold
    · obtain rfl := List.mem_singleton.mp hnew
      exact hcall.passesInput
  exact System.inv_of_states (meets_party lib) hserve ⟨rfl, by simp⟩ (System.guarded_true ..)

end Literal

/-- Every handler that is invoked for a run of a definition whose inputs open no expression is
passed the interpolated input of its task, in every interleaving of all parties. -/
theorem inputs_interpolated (floatText : F64 → String) (metadata : NameMap String) (env : Env)
    (lib : JsonLibrary) {s : MemoryStore} {d : WorkflowDef}
    (hstored : s.getWorkflow d.tenant d.name = .ok ⟨d⟩)
    (hliteral : ∀ task ∈ d.tasks, isLiteral task.input = true) (turns : List (Turn Party)) :
    ∀ reached ∈ partyWorlds env lib ⟨s, []⟩ turns, ∀ e ∈ reached.log,
      Interpolated floatText metadata d e := by
  intro reached hreached e he handler ctx hcall htenant hname
  have hpassed := (inputsPassed_of_partyWorlds env lib s turns reached hreached).log e he
  rw [hcall] at hpassed
  obtain ⟨record, hrecord, task, htask, hhandler, htaskName, hinput⟩ := hpassed
  rw [htenant, hname, hstored] at hrecord
  obtain rfl := Except.ok.inj hrecord
  refine ⟨task, htask, htaskName.symm, hhandler.symm, ?_⟩
  rw [hinput]
  exact interpolateJson_of_isLiteral floatText _ task.input (hliteral task htask)

/-- A workflow of one task, whose input is the given text. -/
def greetingDef (text : String) : WorkflowDef where
  tenant := "acme"
  name := "greeting"
  tasks := [{ name := "greet", handler := ⟨"runvane.echo"⟩, input := .string text }]

def greetingStore (text : String) : MemoryStore :=
  (MemoryStore.new.putWorkflow (greetingDef text)).2

/-- A run is submitted for a user, dispatched and attempted. -/
def greetingTurns : List (Turn Party) :=
  .start (.service (.submission (.http "acme" "greeting"
      ⟨some (.object [("user", .string "ada")]), none⟩) (List.replicate 16 0))) ::
    List.replicate 5 (.call 0) ++
  .start (.marking (submittedId 0)) :: List.replicate 3 (.call 1) ++
  .start (.attempt plainExecutor (submittedId 0) none 60000) :: List.replicate 12 (.call 2)

def jsonText : Json → Option String
  | .string s => some s
  | _ => none

def PassesText (text : String) (e : Event) : Prop :=
  ∃ handler ctx, e.call = .execute handler ctx ∧ ctx.tenant = "acme" ∧ ctx.defName = "greeting" ∧
    ctx.runId = submittedId 0 ∧ jsonText ctx.input = some text

instance (text : String) (e : Event) : Decidable (PassesText text e) :=
  match hcall : e.call with
  | .execute handler ctx =>
    decidable_of_iff (ctx.tenant = "acme" ∧ ctx.defName = "greeting" ∧
      ctx.runId = submittedId 0 ∧ jsonText ctx.input = some text) (by simp [PassesText, hcall])
  | .store _ | .nowMs | .registryGet _ | .newToken | .submit _ =>
    .isFalse (by simp [PassesText, hcall])

theorem inputs_interpolated_sample :
    (∃ reached ∈ partyWorlds allUp plainJson ⟨greetingStore "hello", []⟩ greetingTurns,
      ∃ e ∈ reached.log, PassesText "hello" e) ∧
    ∀ reached ∈ partyWorlds allUp plainJson ⟨greetingStore "hello", []⟩ greetingTurns,
      ∀ e ∈ reached.log, Interpolated (fun _ ↦ "0") ∅ (greetingDef "hello") e := by
  have hstored : (greetingStore "hello").getWorkflow "acme" "greeting" =
      .ok ⟨greetingDef "hello"⟩ := rfl
  exact ⟨by decide +kernel, inputs_interpolated (fun _ ↦ "0") ∅ allUp plainJson hstored
    (by decide +kernel) greetingTurns⟩

/-- A text that refers to the user in the input of the run. -/
def userTemplate : String := "$\x7brun.input.user\x7d"

/-- The template stands for the name, and the handler is passed the template. -/
theorem input_passed_raw :
    validateDefinition (fun _ ↦ .error "") (greetingDef userTemplate) = .ok () ∧
    (greetingStore userTemplate).getWorkflow "acme" "greeting" = .ok ⟨greetingDef userTemplate⟩ ∧
    ∃ reached ∈ partyWorlds allUp plainJson ⟨greetingStore userTemplate, []⟩ greetingTurns,
      ∃ e ∈ reached.log, PassesText userTemplate e ∧
        (interpolateJson (fun _ ↦ "0") (exprContext ∅ e.store (submittedId 0))
          (.string userTemplate)).toOption.bind jsonText = some "ada" ∧
        ¬ Interpolated (fun _ ↦ "0") ∅ (greetingDef userTemplate) e := by
  refine ⟨by decide +kernel, rfl, ?_⟩
  have hevent : ∃ reached ∈ partyWorlds allUp plainJson ⟨greetingStore userTemplate, []⟩
      greetingTurns, ∃ e ∈ reached.log, PassesText userTemplate e ∧
        (interpolateJson (fun _ ↦ "0") (exprContext ∅ e.store (submittedId 0))
          (.string userTemplate)).toOption.bind jsonText = some "ada" := by
    decide +kernel
  obtain ⟨reached, hreached, e, he, hpasses, hvalue⟩ := hevent
  refine ⟨reached, hreached, e, he, hpasses, hvalue, fun hinterpolated ↦ ?_⟩
  obtain ⟨handler, ctx, hcall, htenant, hname, hrun, htext⟩ := hpasses
  obtain ⟨task, htask, -, -, hinput⟩ := hinterpolated handler ctx hcall htenant hname
  obtain rfl := List.mem_singleton.mp htask
  rw [hrun] at hinput
  rw [hinput] at hvalue
  exact absurd (htext.symm.trans hvalue) (by decide)

end Runvane.Scheduler
