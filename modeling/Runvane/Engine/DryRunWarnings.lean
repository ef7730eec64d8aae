import Runvane.Engine.DryRun
import Runvane.Library.GraphSearch

/-!
# The warnings of a dry run

`engine/dry_run.rs` warns of a reference to the output of a task that does not come before. It
searches the dependencies of the task with a stack and a set of names seen
(`is_transitive_dependency`). The search ends on every map of tasks, cyclic or not, and within a
number of turns that the map gives (`searchWithin_eq`); it finds the tasks that can be reached along
one dependency or more. A task and a placeholder in its input give rise to the warning exactly when
the placeholder names another task that cannot be reached (`simulateWorkflow_warnings`).
-/

set_option autoImplicit false

namespace Runvane.Engine

open Domain Library
open Relation (TransGen)
open Std (ExtTreeMap ExtTreeSet)

/-! ### The search -/

section Search

variable {target start : String} {byName : NameMap TaskSpec}

/-- The edges the search follows. -/
def Lists (byName : NameMap TaskSpec) (name dep : String) : Prop :=
  ∃ task, byName[name]? = some task ∧ dep ∈ task.dependsOn

/-- The names the search may see. -/
def listedNames (byName : NameMap TaskSpec) : List String :=
  byName.toList.flatMap fun entry ↦ entry.2.dependsOn

theorem mem_listedNames {name dep : String} (h : Lists byName name dep) :
    dep ∈ listedNames byName := by
  obtain ⟨task, htask, hdep⟩ := h
  refine List.mem_flatMap.mpr ⟨(name, task), ?_, hdep⟩
  exact ExtTreeMap.mem_toList_iff_getElem?_eq_some.mpr htask

/-- The loop of `isTransitiveDependency`, which has no answer when it is still running after the
given number of turns. -/
def searchWithin (target : String) (byName : NameMap TaskSpec) :
    ℕ → NameSet → List String → Option Bool
  | _, _, [] => some false
  | 0, _, _ :: _ => none
  | turns + 1, visited, current :: stack =>
    match byName[current]? with
    | none => searchWithin target byName turns visited stack
    | some task =>
      match searchDeps target task.dependsOn visited stack with
      | (true, _, _) => some true
      | (false, visited', stack') => searchWithin target byName turns visited' stack'

/-- An answer of the loop is the answer of the search. -/
theorem searchLoop_of_searchWithin {turns : ℕ} {visited : NameSet} {stack : List String}
    {result : Bool} (h : searchWithin target byName turns visited stack = some result) :
    searchLoop target byName (turns + 1) visited stack = result := by
  fun_induction searchWithin target byName turns visited stack with
  | case1 => simpa [searchLoop] using h
  | case2 => cases h
  | case3 turns visited current stack hnone ih =>
    unfold searchLoop
    rw [hnone]
    exact ih h
  | case4 turns visited current stack task htask visited' stack' hdeps =>
    unfold searchLoop
    rw [htask]
    simpa [hdeps] using h
  | case5 turns visited current stack task htask visited' stack' hdeps ih =>
    unfold searchLoop
    rw [htask]
    simpa [hdeps] using ih h

/-- The dependencies of a task that has the target among them. -/
theorem searchDeps_of_mem {deps : List String} (h : target ∈ deps) (visited : NameSet)
    (stack : List String) :
    ∃ visited' stack', searchDeps target deps visited stack = (true, visited', stack') := by
  induction deps generalizing visited stack with
  | nil => cases h
  | cons dep deps ih =>
    unfold searchDeps
    split_ifs with hdep hseen
    · exact ⟨visited, stack, rfl⟩
    · exact ih ((List.mem_cons.mp h).resolve_left (Ne.symm hdep)) visited stack
    · exact ih ((List.mem_cons.mp h).resolve_left (Ne.symm hdep)) _ _

/-- The dependencies of a task that has not: all are seen, and those are pushed that were not. -/
theorem searchDeps_of_not_mem {deps : List String} (h : target ∉ deps) (visited : NameSet)
    (stack : List String) :
    ∃ visited' pushed, searchDeps target deps visited stack = (false, visited', pushed ++ stack) ∧
      (∀ y, y ∈ visited' ↔ y ∈ visited ∨ y ∈ deps) ∧ (∀ y ∈ pushed, y ∈ deps) ∧
      (∀ y ∈ visited', y ∈ visited ∨ y ∈ pushed) ∧
      ∀ candidates : List String, (∀ y ∈ deps, y ∈ candidates) →
        candidates.countP (fun y ↦ !visited'.contains y) + pushed.length ≤
          candidates.countP fun y ↦ !visited.contains y := by
  induction deps generalizing visited stack with
  | nil => exact ⟨visited, [], rfl, by simp, by simp, fun y hy ↦ .inl hy, by simp⟩
  | cons dep deps ih =>
    rw [List.mem_cons, not_or] at h
    unfold searchDeps
    rw [if_neg (Ne.symm h.1)]
    by_cases hseen : visited.contains dep
    · rw [if_pos hseen]
      obtain ⟨visited', pushed, heq, hvisited, hpushed, hnew, hcount⟩ := ih h.2 visited stack
      refine ⟨visited', pushed, heq, fun y ↦ ?_, fun y hy ↦ List.mem_cons_of_mem _ (hpushed y hy),
        hnew, fun candidates hdeps ↦ hcount candidates fun y hy ↦ hdeps y (.tail _ hy)⟩
      rw [hvisited, List.mem_cons]
      constructor
      · exact Or.imp_right .inr
      · rintro (hy | rfl | hy)
        · exact .inl hy
        · exact .inl (ExtTreeSet.contains_iff_mem.mp hseen)
        · exact .inr hy
    · rw [if_neg hseen]
      obtain ⟨visited', pushed, heq, hvisited, hpushed, hnew, hcount⟩ :=
        ih h.2 (visited.insert dep) (dep :: stack)
      refine ⟨visited', pushed ++ [dep], by simp [heq], fun y ↦ ?_, fun y hy ↦ ?_, fun y hy ↦ ?_,
        fun candidates hdeps ↦ ?_⟩
      · rw [hvisited, List.mem_cons, ExtTreeSet.mem_insert, Std.compare_eq_iff_eq]
        tauto
      · rcases List.mem_append.mp hy with hy | hy
        · exact List.mem_cons_of_mem _ (hpushed y hy)
        · exact List.mem_cons.mpr (.inl (List.mem_singleton.mp hy))
      · rcases hnew y hy with hy | hy
        · rw [ExtTreeSet.mem_insert, Std.compare_eq_iff_eq] at hy
          rcases hy with rfl | hy
          · exact .inr (by simp)
          · exact .inl hy
        · exact .inr (List.mem_append_left _ hy)
      · have hrest := hcount candidates fun y hy ↦ hdeps y (.tail _ hy)
        have hlt := unseen_insert_lt candidates visited.contains (visited.insert dep).contains
          (hdeps dep List.mem_cons_self) (Bool.eq_false_of_not_eq_true hseen) (by simp)
          fun y hy ↦ by simp_all
        rw [List.length_append, List.length_singleton]
        omega

/-- A search that is given a turn for every name it has on the stack or may still see ends, with the
right answer. -/
theorem searchWithin_of_searching {turns : ℕ} {visited : NameSet} {stack : List String}
    (h : Searching (Lists byName) start target {y | y ∈ visited} stack)
    (hturns : (listedNames byName).countP (fun y ↦ !visited.contains y) + stack.length ≤ turns) :
    ∃ result, searchWithin target byName turns visited stack = some result ∧
      (result = true ↔ TransGen (Lists byName) start target) := by
  induction turns generalizing visited stack with
  | zero =>
    obtain rfl : stack = [] := List.length_eq_zero_iff.mp (by omega)
    exact ⟨false, rfl, by simpa using h.exhausted⟩
  | succ turns ih =>
    cases stack with
    | nil => exact ⟨false, rfl, by simpa using h.exhausted⟩
    | cons current stack =>
      rw [List.length_cons] at hturns
      unfold searchWithin
      cases htask : byName[current]? with
      | none =>
        have hedges : ∀ y, ¬ Lists byName current y := by
          rintro y ⟨task, hsome, -⟩
          rw [htask] at hsome
          cases hsome
        have hnext : Searching (Lists byName) start target {y | y ∈ visited} ([] ++ stack) :=
          h.expand (fun y ↦ by simp [hedges y]) (hedges _) (by simp) fun y hy ↦ .inl hy
        exact ih hnext (by omega)
      | some task =>
        have hedges : ∀ y, Lists byName current y ↔ y ∈ task.dependsOn := by
          intro y
          constructor
          · rintro ⟨other, hother, hy⟩
            obtain rfl := Option.some.inj (htask.symm.trans hother)
            exact hy
          · exact fun hy ↦ ⟨task, htask, hy⟩
        by_cases htarget : target ∈ task.dependsOn
        · obtain ⟨visited', stack', heq⟩ := searchDeps_of_mem htarget visited stack
          simp only [heq]
          exact ⟨true, rfl, by simpa using h.found List.mem_cons_self ((hedges _).mpr htarget)⟩
        · obtain ⟨visited', pushed, heq, hvisited, hpushed, hnew, hcount⟩ :=
            searchDeps_of_not_mem htarget visited stack
          have hle := hcount (listedNames byName) fun y hy ↦
            mem_listedNames ((hedges y).mpr hy)
          simp only [heq]
          refine ih (h.expand (fun y ↦ ?_) (fun hy ↦ htarget ((hedges _).mp hy))
            (fun y hy ↦ (hedges y).mpr (hpushed y hy)) hnew) ?_
          · rw [hedges]
            exact hvisited y
          · rw [List.length_append]
            omega

/-- The search ends on every map of tasks, and says whether the target can be reached. -/
theorem searchWithin_eq (target start : String) (byName : NameMap TaskSpec) :
    ∃ result, (result = true ↔ TransGen (Lists byName) start target) ∧
      ∀ turns, (listedNames byName).length + 1 ≤ turns →
        searchWithin target byName turns ∅ [start] = some result := by
  have hend : ∀ turns, (listedNames byName).length + 1 ≤ turns →
      ∃ result, searchWithin target byName turns ∅ [start] = some result ∧
        (result = true ↔ TransGen (Lists byName) start target) := by
    intro turns hturns
    refine searchWithin_of_searching ?_ ?_
    · simpa using Searching.init
    · have hle := List.countP_le_length (p := fun y ↦ !(∅ : NameSet).contains y)
        (l := listedNames byName)
      rw [List.length_singleton]
      omega
  obtain ⟨result, -, hresult⟩ := hend _ le_rfl
  refine ⟨result, hresult, fun turns hturns ↦ ?_⟩
  obtain ⟨other, hother, hiff⟩ := hend turns hturns
  rw [hother, Bool.eq_iff_iff.mpr (hiff.trans hresult.symm)]

end Search

/-! ### The search in a task list -/

section TaskList

variable {tasks : List TaskSpec}

/-- The task of a name, when no two tasks have one name. -/
theorem getElem?_taskMap (hnodup : (tasks.map TaskSpec.name).Nodup) {name : String}
    {task : TaskSpec} : (taskMap tasks)[name]? = some task ↔ task ∈ tasks ∧ task.name = name := by
  induction tasks using List.reverseRecOn with
  | nil => simp [taskMap]
  | append_singleton tasks last ih =>
    rw [List.map_append, List.nodup_append] at hnodup
    obtain ⟨hnodup, -, hnew⟩ := hnodup
    specialize ih hnodup
    unfold taskMap at ih ⊢
    rw [List.foldl_append, List.foldl_cons, List.foldl_nil, ExtTreeMap.getElem?_insert,
      List.mem_append, List.mem_singleton]
    simp only [Std.compare_eq_iff_eq]
    by_cases hlast : last.name = name
    · rw [if_pos hlast, Option.some.injEq]
      constructor
      · rintro rfl
        exact ⟨.inr rfl, hlast⟩
      · rintro ⟨hmem | rfl, hname⟩
        · exact absurd (hname.trans hlast.symm)
            (hnew _ (List.mem_map_of_mem hmem) _ (by simp))
        · rfl
    · rw [if_neg hlast, ih]
      constructor
      · exact fun h ↦ ⟨.inl h.1, h.2⟩
      · rintro ⟨hmem | rfl, hname⟩
        · exact ⟨hmem, hname⟩
        · exact absurd hname hlast

/-- The map lists the dependencies of the tasks, each as often as the tasks do. -/
theorem length_listedNames (hnodup : (tasks.map TaskSpec.name).Nodup) :
    (listedNames (taskMap tasks)).length = (tasks.flatMap TaskSpec.dependsOn).length := by
  have hentry : ∀ entry ∈ (taskMap tasks).toList, entry.2 ∈ tasks ∧ entry.2.name = entry.1 :=
    fun entry hentry ↦ (getElem?_taskMap hnodup).mp
      (ExtTreeMap.mem_toList_iff_getElem?_eq_some.mp hentry)
  have hkeys : ((taskMap tasks).toList.map Prod.fst).Nodup := by
    rw [ExtTreeMap.map_fst_toList_eq_keys]
    exact ExtTreeMap.nodup_keys
  have hvalues : ((taskMap tasks).toList.map Prod.snd).Nodup := by
    refine List.Nodup.of_map TaskSpec.name ?_
    have hnames : ((taskMap tasks).toList.map Prod.snd).map TaskSpec.name =
        (taskMap tasks).toList.map Prod.fst := by
      rw [List.map_map]
      exact List.map_congr_left fun entry hmem ↦ (hentry entry hmem).2
    rwa [hnames]
  have hperm : ((taskMap tasks).toList.map Prod.snd).Perm tasks := by
    refine (List.perm_ext_iff_of_nodup hvalues (List.Nodup.of_map _ hnodup)).mpr fun task ↦ ?_
    constructor
    · intro hmem
      obtain ⟨entry, hfound, rfl⟩ := List.mem_map.mp hmem
      exact (hentry entry hfound).1
    · intro hmem
      refine List.mem_map.mpr ⟨(task.name, task), ?_, rfl⟩
      exact ExtTreeMap.mem_toList_iff_getElem?_eq_some.mpr
        ((getElem?_taskMap hnodup).mpr ⟨hmem, rfl⟩)
  rw [← (hperm.flatMap_right _).length_eq, List.flatMap_map]
  rfl

/-- The search says whether a task is a dependency of another, direct or through others. -/
theorem isTransitiveDependency_iff {d : WorkflowDef} (hnodup : d.names.Nodup)
    {target start : String} :
    isTransitiveDependency target start d.tasks = true ↔ TransGen d.DependsOn start target := by
  have hedges : Lists (taskMap d.tasks) = d.DependsOn := by
    funext name dep
    unfold Lists WorkflowDef.DependsOn
    simp only [getElem?_taskMap hnodup, and_assoc]
  obtain ⟨result, hresult, hend⟩ := searchWithin_eq target start (taskMap d.tasks)
  have hanswer := searchLoop_of_searchWithin (hend _ le_rfl)
  rw [length_listedNames hnodup] at hanswer
  unfold isTransitiveDependency
  rw [hanswer, hresult, hedges]

end TaskList

/-! ### The warnings -/

section Warnings

variable {d : WorkflowDef} {order : List String}

def chainWarning (name reference refTask : String) : String :=
  s!"task '{name}' references '$\x7b{reference}\x7d' but '{refTask}' is not " ++
    "in its dependency chain"

theorem chainWarning_inj {name reference refTask other : String}
    (h : chainWarning name reference refTask = chainWarning name reference other) :
    refTask = other := by
  have hlist := congrArg String.toList h
  simp only [chainWarning, String.toList_append, List.append_assoc,
    List.append_cancel_left_eq] at hlist
  exact String.toList_injective (List.append_cancel_right hlist)

/-- The warning of a reference to the own output is another text. -/
theorem chainWarning_ne_own (name reference refTask : String) :
    s!"task '{name}' references its own output via '$\x7b{reference}\x7d'" ≠
      chainWarning name reference refTask := by
  intro h
  have hlist := congrArg String.toList h
  simp [chainWarning, toString] at hlist

/-- A reference gives rise to the warning exactly when it is to another task that cannot be
reached. -/
theorem referenceWarning_eq_chain (hnodup : d.names.Nodup) (task : TaskSpec)
    (reference refTask : String) :
    referenceWarning d.tasks task reference = some (chainWarning task.name reference refTask) ↔
      reference.startsWith "tasks." = true ∧ (reference.splitOn ".")[1]? = some refTask ∧
        refTask ≠ task.name ∧ ¬ TransGen d.DependsOn task.name refTask := by
  unfold referenceWarning
  by_cases htasks : reference.startsWith "tasks." = true
  · rw [if_pos htasks]
    simp only [htasks, true_and]
    match reference.splitOn "." with
    | [] => simp
    | [_] => simp
    | _ :: found :: _ =>
      simp only [List.getElem?_cons_succ, List.getElem?_cons_zero, Option.some.injEq]
      by_cases hown : found = task.name
      · rw [if_pos hown, Option.some.injEq]
        constructor
        · exact fun h ↦ absurd h (chainWarning_ne_own _ _ _)
        · rintro ⟨rfl, hother, -⟩
          exact absurd hown hother
      · rw [if_neg hown]
        by_cases hreach : isTransitiveDependency found task.name d.tasks = true
        · rw [if_pos hreach]
          constructor
          · exact fun h ↦ absurd h (by simp)
          · rintro ⟨rfl, -, hunreachable⟩
            exact absurd ((isTransitiveDependency_iff hnodup).mp hreach) hunreachable
        · rw [if_neg hreach, Option.some.injEq]
          constructor
          · intro h
            obtain rfl := chainWarning_inj h
            exact ⟨rfl, hown, fun hpath ↦ hreach ((isTransitiveDependency_iff hnodup).mpr hpath)⟩
          · rintro ⟨rfl, -, -⟩
            rfl
  · rw [if_neg htasks]
    simp [htasks]

/-- The warnings of a dry run, task by task and placeholder by placeholder: the one of a reference
out of the dependency chain stands there exactly when the placeholder names another task that cannot
be reached along the dependencies. The search for it ends on every map of tasks. -/
theorem simulateWorkflow_warnings (hnodup : d.names.Nodup)
    (horder : topoOrder d.tasks = .ok order) :
    (∃ report, simulateWorkflow d = .ok report ∧
      report.warnings = d.tasks.flatMap (fun task ↦
        (extractPlaceholders task.input).filterMap (referenceWarning d.tasks task)) ∧
      ∀ task ∈ d.tasks, ∀ reference ∈ extractPlaceholders task.input, ∀ refTask,
        referenceWarning d.tasks task reference =
            some (chainWarning task.name reference refTask) ↔
          reference.startsWith "tasks." = true ∧ (reference.splitOn ".")[1]? = some refTask ∧
            refTask ≠ task.name ∧ ¬ TransGen d.DependsOn task.name refTask) ∧
    ∀ (target start : String) (byName : NameMap TaskSpec), ∃ result,
      (result = true ↔ TransGen (Lists byName) start target) ∧
      ∀ turns, (listedNames byName).length + 1 ≤ turns →
        searchWithin target byName turns ∅ [start] = some result := by
  refine ⟨?_, searchWithin_eq⟩
  unfold simulateWorkflow
  rw [horder]
  refine ⟨_, rfl, ?_, fun task _ reference _ ↦ referenceWarning_eq_chain hnodup task reference⟩
  simp only [List.filterMap_flatMap, List.filterMap_map, Function.comp_def]

/-- A workflow whose second task refers to the first without depending on it. -/
def strayDef : WorkflowDef where
  tenant := "acme"
  name := "nightly"
  tasks := [
    { name := "load", handler := ⟨"h"⟩ },
    { name := "report", handler := ⟨"h"⟩, input := .string "rows: $\x7btasks.load.output\x7d" }]

theorem simulateWorkflow_strayDef : strayDef.names.Nodup ∧
    topoOrder strayDef.tasks = .ok ["load", "report"] ∧
    ∃ report, simulateWorkflow strayDef = .ok report ∧
      report.warnings = strayDef.tasks.flatMap fun task ↦
        (extractPlaceholders task.input).filterMap (referenceWarning strayDef.tasks task) := by
  have hnodup : strayDef.names.Nodup := by decide
  have horder : topoOrder strayDef.tasks = .ok ["load", "report"] := by decide
  obtain ⟨⟨report, hreport, hwarnings, -⟩, -⟩ := simulateWorkflow_warnings hnodup horder
  exact ⟨hnodup, horder, report, hreport, hwarnings⟩

end Warnings

end Runvane.Engine
