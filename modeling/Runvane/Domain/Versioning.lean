import Runvane.Domain.Dag

/-!
# Compatibility of definition versions

`CompatibilityReport::analyze` of `domain/versioning.rs` compares two versions of a definition:
tasks that were removed and tasks whose handler changed are breaking, added dependencies and a
shorter timeout are not. How Rust prints a list of names for debugging is a parameter.

A report without a breaking issue says that every task of the old version is there in the new one
with the same handler (`isBackwardCompatible_iff`). Stated so, backward compatibility is reflexive
and transitive (`backwardCompatible_preorder`).
-/

set_option autoImplicit false

namespace Runvane.Domain

open Std (ExtTreeMap ExtTreeSet)

/-- How severe an issue between two versions is. -/
inductive CompatibilitySeverity
  | info
  | warning
  | breaking
  deriving DecidableEq, Repr

structure CompatibilityIssue where
  severity : CompatibilitySeverity
  taskName : Option String
  message : String
  deriving DecidableEq, Repr

namespace CompatibilityIssue

def breaking (taskName : Option String) (message : String) : CompatibilityIssue :=
  ⟨.breaking, taskName, message⟩

def warning (taskName : Option String) (message : String) : CompatibilityIssue :=
  ⟨.warning, taskName, message⟩

end CompatibilityIssue

structure CompatibilityReport where
  isBackwardCompatible : Bool
  issues : List CompatibilityIssue
  deriving DecidableEq, Repr

/-- The tasks of a definition by name; of several with one name the last is kept. -/
def tasksByName (d : WorkflowDef) : NameMap TaskSpec :=
  d.tasks.foldl (fun tasks task ↦ tasks.insert task.name task) ∅

/-- The dependencies of the new task that the old one does not have, sorted. -/
def addedDeps (oldSpec newSpec : TaskSpec) : List String :=
  (ExtTreeSet.ofList newSpec.dependsOn compare).toList.filter
    fun dep ↦ !(ExtTreeSet.ofList oldSpec.dependsOn compare).contains dep

namespace CompatibilityReport

section Analyze

variable (debugNames : List String → String) (oldDef newDef : WorkflowDef)

def removals : List CompatibilityIssue :=
  ((tasksByName oldDef).keys.filter fun oldName ↦ !(tasksByName newDef).contains oldName).map
    fun oldName ↦ .breaking (some oldName)
      s!"Task '{oldName}' was removed in version {newDef.version}"

def taskIssues (newName : String) (oldSpec newSpec : TaskSpec) : List CompatibilityIssue :=
  (if oldSpec.handler ≠ newSpec.handler then
    [.breaking (some newName) (s!"Task '{newName}' changed handler " ++
      s!"from '{oldSpec.handler.text}' to '{newSpec.handler.text}'")]
  else []) ++
  if (addedDeps oldSpec newSpec).isEmpty then []
  else [.warning (some newName)
    s!"Task '{newName}' added new dependencies: {debugNames (addedDeps oldSpec newSpec)}"]

def changes : List CompatibilityIssue :=
  (tasksByName newDef).toList.flatMap fun entry ↦
    match (tasksByName oldDef)[entry.1]? with
    | some oldSpec => taskIssues debugNames entry.1 oldSpec entry.2
    | none => []

def timeoutIssues : List CompatibilityIssue :=
  if newDef.timeoutMs < oldDef.timeoutMs then
    [.warning none ("Overall workflow timeout decreased " ++
      s!"from {oldDef.timeoutMs}ms to {newDef.timeoutMs}ms")]
  else []

def analyze : CompatibilityReport :=
  let issues := removals oldDef newDef ++ changes debugNames oldDef newDef ++
    timeoutIssues oldDef newDef
  ⟨!issues.any (·.severity = .breaking), issues⟩

end Analyze

variable {debugNames : List String → String} {oldDef newDef : WorkflowDef}

theorem mem_iff_exists {tasks : NameMap TaskSpec} {name : String} :
    name ∈ tasks ↔ ∃ task, tasks[name]? = some task := by
  rw [ExtTreeMap.mem_iff_isSome_getElem?, Option.isSome_iff_exists]

theorem no_breaking_removals :
    (∀ issue ∈ removals oldDef newDef, issue.severity ≠ .breaking) ↔
      ∀ name ∈ tasksByName oldDef, name ∈ tasksByName newDef := by
  rw [removals, List.forall_mem_map, ← not_iff_not]
  simp [CompatibilityIssue.breaking, ← ExtTreeMap.contains_iff_mem]

theorem no_breaking_taskIssues {newName : String} {oldSpec newSpec : TaskSpec} :
    (∀ issue ∈ taskIssues debugNames newName oldSpec newSpec, issue.severity ≠ .breaking) ↔
      oldSpec.handler = newSpec.handler := by
  unfold taskIssues
  split_ifs <;> simp_all [CompatibilityIssue.breaking, CompatibilityIssue.warning]

theorem mem_changes {issue : CompatibilityIssue} :
    issue ∈ changes debugNames oldDef newDef ↔
      ∃ (name : String) (oldSpec newSpec : TaskSpec), (tasksByName oldDef)[name]? = some oldSpec ∧
        (tasksByName newDef)[name]? = some newSpec ∧
        issue ∈ taskIssues debugNames name oldSpec newSpec := by
  simp only [changes, List.mem_flatMap, Prod.exists, ExtTreeMap.mem_toList_iff_getElem?_eq_some]
  constructor
  · rintro ⟨name, newSpec, hnew, hissue⟩
    cases hold : (tasksByName oldDef)[name]? with
    | none => simp [hold] at hissue
    | some oldSpec => exact ⟨name, oldSpec, newSpec, hold, hnew, by simpa [hold] using hissue⟩
  · rintro ⟨name, oldSpec, newSpec, hold, hnew, hissue⟩
    exact ⟨name, newSpec, hnew, by simpa [hold] using hissue⟩

/-- A report is compatible if every task of the old version is there in the new one with the same
handler. -/
theorem isBackwardCompatible_iff :
    (analyze debugNames oldDef newDef).isBackwardCompatible = true ↔
      ∀ (name : String) (oldSpec : TaskSpec), (tasksByName oldDef)[name]? = some oldSpec →
        ∃ newSpec : TaskSpec, (tasksByName newDef)[name]? = some newSpec ∧
          oldSpec.handler = newSpec.handler := by
  have htimeout : ∀ issue ∈ timeoutIssues oldDef newDef, issue.severity ≠ .breaking := by
    unfold timeoutIssues
    split_ifs <;> simp [CompatibilityIssue.warning]
  have hany : (analyze debugNames oldDef newDef).isBackwardCompatible = true ↔
      (∀ name ∈ tasksByName oldDef, name ∈ tasksByName newDef) ∧
      ∀ issue ∈ changes debugNames oldDef newDef, issue.severity ≠ .breaking := by
    simp only [analyze, Bool.not_eq_true', List.any_eq_false, decide_eq_true_eq,
      List.forall_mem_append, ← no_breaking_removals]
    exact and_iff_left htimeout
  rw [hany]
  constructor
  · rintro ⟨hkept, hchanges⟩ name oldSpec hold
    obtain ⟨newSpec, hnew⟩ := mem_iff_exists.mp (hkept name (mem_iff_exists.mpr ⟨oldSpec, hold⟩))
    have hnone : ∀ issue ∈ taskIssues debugNames name oldSpec newSpec,
        issue.severity ≠ .breaking := fun issue hissue ↦
      hchanges issue (mem_changes.mpr ⟨name, oldSpec, newSpec, hold, hnew, hissue⟩)
    exact ⟨newSpec, hnew, no_breaking_taskIssues.mp hnone⟩
  · intro hkept
    refine ⟨fun name hname ↦ ?_, fun issue hissue ↦ ?_⟩
    · obtain ⟨oldSpec, hold⟩ := mem_iff_exists.mp hname
      obtain ⟨newSpec, hnew, -⟩ := hkept name oldSpec hold
      exact mem_iff_exists.mpr ⟨newSpec, hnew⟩
    · obtain ⟨name, oldSpec, newSpec, hold, hnew, hissue⟩ := mem_changes.mp hissue
      obtain ⟨newSpec', hsome, hhandler⟩ := hkept name oldSpec hold
      obtain rfl := Option.some.inj (hnew.symm.trans hsome)
      exact no_breaking_taskIssues.mpr hhandler issue hissue

theorem addedDeps_self (task : TaskSpec) : addedDeps task task = [] := by
  simp [addedDeps]

/-- Nothing is reported between a definition and itself. -/
theorem issues_analyze_self (d : WorkflowDef) : (analyze debugNames d d).issues = [] := by
  have hremovals : removals d d = [] := by
    simp [removals]
  have hchanges : changes debugNames d d = [] := by
    rw [List.eq_nil_iff_forall_not_mem]
    intro issue hissue
    obtain ⟨name, oldSpec, newSpec, hold, hnew, hissue⟩ := mem_changes.mp hissue
    obtain rfl := Option.some.inj (hold.symm.trans hnew)
    simp [taskIssues, addedDeps_self] at hissue
  simp [analyze, hremovals, hchanges, timeoutIssues]

/-- Backward compatibility is reflexive, without any issue, and transitive. -/
theorem backwardCompatible_preorder (debugNames : List String → String) (a b c : WorkflowDef) :
    (analyze debugNames a a).issues = [] ∧
    (analyze debugNames a a).isBackwardCompatible = true ∧
    ((analyze debugNames a b).isBackwardCompatible = true →
      (analyze debugNames b c).isBackwardCompatible = true →
      (analyze debugNames a c).isBackwardCompatible = true) := by
  refine ⟨issues_analyze_self a, ?_, ?_⟩
  · exact isBackwardCompatible_iff.mpr fun name spec hspec ↦ ⟨spec, hspec, rfl⟩
  · intro hab hbc
    rw [isBackwardCompatible_iff] at hab hbc ⊢
    intro name specA hA
    obtain ⟨specB, hB, hAB⟩ := hab name specA hA
    obtain ⟨specC, hC, hBC⟩ := hbc name specB hB
    exact ⟨specC, hC, hAB.trans hBC⟩

end CompatibilityReport

end Runvane.Domain
