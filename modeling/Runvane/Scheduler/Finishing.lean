import Runvane.Persistence.Retention
import Runvane.Scheduler.RunInvariant

/-!
# Finished runs

Retention takes every run that has a finishing time and never looks at the status. That is safe
because the two go together (`Stamped`): whoever writes a run writes a finishing time exactly with a
terminal status, provided the run it has read was so, and it may be a stale one. No order of writes
can break this, hence it holds in every interleaving of all parties, and the retention pass removes
what it is for in every state reached (`finishing_and_retention`).
-/

set_option autoImplicit false

namespace Runvane.Scheduler

open Library Domain Persistence Prog Api

/-- Every stored run has a finishing time exactly when its status is terminal. -/
def AllStamped (w : World) : Prop := ∀ id, ∀ run ∈ w.store.runs.get? id, Stamped run

/-- Whoever writes a run gives it a finishing time exactly with a terminal status. -/
theorem passedOn_stamped : PassedOn Stamped where
  submitted := by
    intros
    rfl
  dispatched := by
    intro run nowMs hrun hqueued
    have hopen : run.finishedAtMs.isSome = false := by
      rw [hrun, Run.isTerminal, hqueued]
      rfl
    exact hopen
  attempted := by
    intro run written hrun hrunning hwrite
    have hopen : run.finishedAtMs.isSome = false := by
      rw [hrun, Run.isTerminal, hrunning]
      rfl
    cases hwrite with
    | retried delayMs => exact hopen
    | succeeded | failed | timedOut => rfl
  cancelled := by
    intros
    rfl

/-- Whatever the parties do in whatever order, a stored run has a finishing time exactly when its
status is terminal, and the retention pass takes exactly the runs that have finished. -/
theorem finishing_and_retention (env : Env) (lib : JsonLibrary) (w : World) (hw : AllStamped w)
    (turns : List (Turn Party)) : ∀ reached ∈ partyWorlds env lib w turns,
      AllStamped reached ∧ ∀ order beforeMs,
        Reaped beforeMs reached.store (reached.store.reapFinishedRuns order beforeMs) := by
  have hall : ∀ reached ∈ partyWorlds env lib w turns, AllStamped reached :=
    allRuns_of_partyWorlds passedOn_stamped hw turns
  intro reached hreached
  exact ⟨hall reached hreached, fun order beforeMs ↦
    reaped_of_stamped (hall reached hreached) order beforeMs⟩

def plainJson : JsonLibrary where
  floatText _ := "0"
  parseValue _ := .ok .null
  parseStrings _ := .ok []

def sampleDefined : World := ⟨(MemoryStore.new.putWorkflow sampleDef).2, []⟩

/-- A submission of the definition over HTTP, with the uuid of one repeated byte. -/
def sampleSubmission (byte : UInt8) : Service :=
  .submission (.http "t" "flow" ⟨none, none⟩) (List.replicate 16 byte)

def submittedId (byte : UInt8) : RunId := ⟨generateId .run (List.replicate 16 byte)⟩

/-- Two runs are submitted, and an operator cancels the first. -/
def sampleFinishing : List (Turn Party) :=
  .start (.service (sampleSubmission 0)) :: List.replicate 5 (.call 0) ++
    .start (.service (sampleSubmission 1)) :: List.replicate 5 (.call 1) ++
    [.start (.service (.engine (.operator (submittedId 0)))), .call 2, .call 2]

theorem finishing_and_retention_sample :
    ((partyWorlds allUp plainJson sampleDefined sampleFinishing).getLast?.map fun w ↦
      (w.store.runs.values.length, (w.store.reapFinishedRuns ⟨id, fun _ ↦ .refl _⟩ 0).1)) =
        some (2, .ok 1) ∧
    ∀ reached ∈ partyWorlds allUp plainJson sampleDefined sampleFinishing,
      AllStamped reached ∧ ∀ order beforeMs,
        Reaped beforeMs reached.store (reached.store.reapFinishedRuns order beforeMs) := by
  have hempty : AllStamped sampleDefined := by
    intro id run hrun
    rw [show sampleDefined.store.runs = .empty from rfl, KeyedMap.get?_empty] at hrun
    cases hrun
  exact ⟨by decide,
    finishing_and_retention allUp plainJson sampleDefined hempty sampleFinishing⟩

end Runvane.Scheduler
