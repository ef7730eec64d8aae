import Runvane.Domain.Validation
import Runvane.Engine.Expr
import Runvane.Library.Layers

/-!
# The dry run of a workflow

`engine/dry_run.rs`: the stages in which a workflow would be dispatched, its critical path, and what
its task inputs refer to, all from the definition alone (`simulateWorkflow`).

The stages come from a countdown of dependencies that are still open, with repeated entries of
`dependsOn` counted as often as they stand there. They are the layers of the dependency relation
(`stages_layers`): a count reaches zero in the stage after the last of the dependencies, and it
reaches it once.
-/

set_option autoImplicit false

namespace Runvane.Engine

open Domain Library
open Std (ExtTreeMap ExtTreeSet)

/-- A parallel execution tier of the simulated run. -/
structure DryRunStage where
  stageIndex : ℕ
  tasks : List String
  deriving DecidableEq, Repr

structure DryRunReport where
  tenant : String
  workflowName : String
  version : ℕ
  totalTasks : ℕ
  maxParallelism : ℕ
  stages : List DryRunStage
  criticalPath : List String
  variableReferences : List String
  warnings : List String
  deriving DecidableEq, Repr

/-! ### Stages -/

/-- The number of dependencies of every task, repeated entries included. -/
def inDegree (tasks : List TaskSpec) : NameMap ℕ :=
  tasks.foldl (fun degrees task ↦ degrees.insert task.name task.dependsOn.length) ∅

/-- Records `name` among the dependents of `dep`. -/
def pushDependent (name : String) (dependents : NameMap (List String)) (dep : String) :
    NameMap (List String) :=
  dependents.insert dep (dependents[dep]?.getD [] ++ [name])

/-- The tasks that list a name among their dependencies, as often as they list it. -/
def dependentsOf (tasks : List TaskSpec) : NameMap (List String) :=
  tasks.foldl (fun dependents task ↦
    task.dependsOn.foldl (pushDependent task.name) (dependents.insertIfNew task.name [])) ∅

/-- Counts one open dependency of `child` as met; the child is released when that was the last. -/
def countDown (acc : NameMap ℕ × List String) (child : String) : NameMap ℕ × List String :=
  match acc.1[child]? with
  | none => acc
  | some degree =>
    (acc.1.insert child (degree - 1), if degree - 1 = 0 then acc.2 ++ [child] else acc.2)

/-- The open counts after a stage, and the tasks it releases. -/
def finishStage (dependents : NameMap (List String)) (remaining : NameMap ℕ)
    (ready : List String) : NameMap ℕ × List String :=
  ready.foldl (fun acc name ↦ (dependents[name]?.getD []).foldl countDown acc) (remaining, [])

def stageLoop (dependents : NameMap (List String)) :
    ℕ → ℕ → NameMap ℕ → List String → List DryRunStage
  | 0, _, _, _ => []
  | fuel + 1, index, remaining, ready =>
    if ready.isEmpty then []
    else
      let (remaining', released) := finishStage dependents remaining ready
      ⟨index, ready⟩ ::
        stageLoop dependents fuel (index + 1) remaining' (released.insertionSort (· ≤ ·))

/-- The stages of a task list. Every stage but the last releases a task, so there are no more of
them than tasks. -/
def stagesOf (tasks : List TaskSpec) : List DryRunStage :=
  let degrees := inDegree tasks
  let ready := ((degrees.toList.filter (·.2 = 0)).map Prod.fst).insertionSort (· ≤ ·)
  stageLoop (dependentsOf tasks) (tasks.length + 1) 0 degrees ready

/-! ### Critical path -/

/-- The longest distances found so far, and the predecessors on the paths that realise them. -/
structure Paths where
  dist : NameMap ℕ
  prev : NameMap (Option String)

/-- Offers `name` as the predecessor of `child`. The code unwraps the distance of the child, which
every task has. -/
def Paths.relax (name : String) (current : ℕ) (paths : Paths) (child : String) : Paths :=
  match paths.dist[child]? with
  | none => paths
  | some dist =>
    if dist < current + 1 then
      ⟨paths.dist.insert child (current + 1), paths.prev.insert child (some name)⟩
    else paths

/-- Offers a task of a stage to all its dependents. -/
def Paths.visit (dependents : NameMap (List String)) (paths : Paths) (name : String) : Paths :=
  (dependents[name]?.getD []).foldl (Paths.relax name (paths.dist[name]?.getD 1)) paths

/-- The distances along the stages. -/
def longestPaths (tasks : List TaskSpec) (stages : List DryRunStage) : Paths :=
  let start : Paths := tasks.foldl
    (fun paths task ↦ ⟨paths.dist.insert task.name 1, paths.prev.insert task.name none⟩) ⟨∅, ∅⟩
  (stages.flatMap DryRunStage.tasks).foldl (Paths.visit (dependentsOf tasks)) start

def endTask (tasks : List TaskSpec) (dist : NameMap ℕ) : String :=
  (dist.toList.foldl (fun best entry ↦ if best.1 < entry.2 then (entry.2, entry.1) else best)
    (0, (tasks.head?.map TaskSpec.name).getD "")).2

/-- The path back from a task along its predecessors. -/
def walkBack (prev : NameMap (Option String)) : ℕ → String → List String
  | 0, _ => []
  | fuel + 1, node =>
    node :: match prev[node]?.getD none with
      | none => []
      | some before => walkBack prev fuel before

/-- The longest path through the graph, first task first. -/
def criticalPathOf (tasks : List TaskSpec) (stages : List DryRunStage) : List String :=
  let paths := longestPaths tasks stages
  (walkBack paths.prev (tasks.length + 1) (endTask tasks paths.dist)).reverse

/-! ### References -/

/-- The trimmed texts between an opening and the next closing bracket, outside (`none`) or within
the text of a placeholder that was opened. One that is not closed ends the scan. -/
def scanPlaceholders : Option (List Char) → List Char → List String
  | none, '$' :: '{' :: rest => scanPlaceholders (some []) rest
  | none, _ :: rest => scanPlaceholders none rest
  | some text, '}' :: rest =>
    let placeholder := trim text.reverse
    if placeholder.isEmpty then scanPlaceholders none rest
    else String.ofList placeholder :: scanPlaceholders none rest
  | some text, c :: rest => scanPlaceholders (some (c :: text)) rest
  | _, [] => []

mutual

def extractPlaceholders : Json → List String
  | .string s => scanPlaceholders none s.toList
  | .array items => extractFromItems items
  | .object fields => extractFromFields fields
  | _ => []

/-- The placeholders in the items of an array. -/
def extractFromItems : List Json → List String
  | [] => []
  | item :: items => extractPlaceholders item ++ extractFromItems items

/-- The placeholders in the values of an object. -/
def extractFromFields : List (String × Json) → List String
  | [] => []
  | (_, value) :: fields => extractPlaceholders value ++ extractFromFields fields

end

/-- The task of every name; of tasks of one name the last. -/
def taskMap (tasks : List TaskSpec) : NameMap TaskSpec :=
  tasks.foldl (fun m task ↦ m.insert task.name task) ∅

/-- What the dependencies of one task add to a search: whether the target is among them, the names
seen, and the stack. -/
def searchDeps (target : String) :
    List String → NameSet → List String → Bool × NameSet × List String
  | [], visited, stack => (false, visited, stack)
  | dep :: deps, visited, stack =>
    if dep = target then (true, visited, stack)
    else if visited.contains dep then searchDeps target deps visited stack
    else searchDeps target deps (visited.insert dep) (dep :: stack)

/-- The search loop, on a stack of names whose dependencies are still to be looked at. -/
def searchLoop (target : String) (byName : NameMap TaskSpec) :
    ℕ → NameSet → List String → Bool
  | 0, _, _ => false
  | _ + 1, _, [] => false
  | fuel + 1, visited, current :: stack =>
    match byName[current]? with
    | none => searchLoop target byName fuel visited stack
    | some task =>
      match searchDeps target task.dependsOn visited stack with
      | (true, _, _) => true
      | (false, visited', stack') => searchLoop target byName fuel visited' stack'

/-- Whether `target` is a dependency of the task, direct or through others. Every name is put on the
stack once, beside the first one, which bounds the search by their number. -/
def isTransitiveDependency (target fromTask : String) (tasks : List TaskSpec) : Bool :=
  searchLoop target (taskMap tasks) ((tasks.flatMap TaskSpec.dependsOn).length + 2) ∅ [fromTask]

def referenceWarning (tasks : List TaskSpec) (task : TaskSpec) (reference : String) :
    Option String :=
  if reference.startsWith "tasks." then
    match reference.splitOn "." with
    | _ :: refTask :: _ =>
      if refTask = task.name then
        some s!"task '{task.name}' references its own output via '$\x7b{reference}\x7d'"
      else if isTransitiveDependency refTask task.name tasks then none
      else some (s!"task '{task.name}' references '$\x7b{reference}\x7d' but '{refTask}' is not " ++
        "in its dependency chain")
    | _ => none
  else none

def simulateWorkflow (d : WorkflowDef) : Except DomainError DryRunReport := do
  let _ ← topoOrder d.tasks
  let stages := stagesOf d.tasks
  let references := d.tasks.flatMap fun task ↦
    (extractPlaceholders task.input).map fun reference ↦ (task, reference)
  pure {
    tenant := d.tenant
    workflowName := d.name
    version := d.version
    totalTasks := d.tasks.length
    maxParallelism := ((stages.map (·.tasks.length)).max?).getD 0
    stages := stages
    criticalPath := criticalPathOf d.tasks stages
    variableReferences := ((references.map Prod.snd).foldl ExtTreeSet.insert ∅ : NameSet).toList
    warnings := references.filterMap fun entry ↦ referenceWarning d.tasks entry.1 entry.2 }

/-! ### The maps the stages start from -/

section Maps

variable {tasks : List TaskSpec} {name : String}

/-- The dependencies of the tasks of a name, as often as they are listed. -/
def entriesOf (tasks : List TaskSpec) (name : String) : List String :=
  (tasks.filter (·.name = name)).flatMap TaskSpec.dependsOn

theorem mem_entriesOf {dep : String} :
    dep ∈ entriesOf tasks name ↔ ∃ task ∈ tasks, task.name = name ∧ dep ∈ task.dependsOn := by
  simp [entriesOf, and_assoc]

theorem entriesOf_of_not_mem (h : name ∉ tasks.map TaskSpec.name) : entriesOf tasks name = [] := by
  unfold entriesOf
  rw [List.filter_eq_nil_iff.mpr, List.flatMap_nil]
  intro task htask
  have hne : task.name ≠ name := fun heq ↦ h (heq ▸ List.mem_map_of_mem htask)
  simpa using hne

/-- The degrees, read off the entries. -/
theorem getElem?_inDegree (hnodup : (tasks.map TaskSpec.name).Nodup) (name : String) :
    (inDegree tasks)[name]? =
      if name ∈ tasks.map TaskSpec.name then some (entriesOf tasks name).length else none := by
  -- the tasks are read off from the last, which is the one that counts
  induction tasks using List.reverseRecOn with
  | nil => simp [inDegree]
  | append_singleton tasks task ih =>
    rw [List.map_append, List.nodup_append] at hnodup
    obtain ⟨hnodup, -, hnew⟩ := hnodup
    have hfresh : task.name ∉ tasks.map TaskSpec.name := fun hmem ↦
      hnew _ hmem _ (by simp) rfl
    specialize ih hnodup
    unfold inDegree at ih ⊢
    rw [List.foldl_append, List.foldl_cons, List.foldl_nil, ExtTreeMap.getElem?_insert, ih]
    simp only [Std.compare_eq_iff_eq, List.map_append, List.mem_append, List.map_cons,
      List.map_nil, List.mem_singleton]
    by_cases hname : task.name = name
    · subst hname
      have hnone := entriesOf_of_not_mem hfresh
      unfold entriesOf at hnone ⊢
      simp [List.filter_append, hnone]
    · have hsame : entriesOf (tasks ++ [task]) name = entriesOf tasks name := by
        simp [entriesOf, List.filter_append, hname]
      simp [hname, Ne.symm hname, hsame]

theorem count_foldl_pushDependent (deps : List String) (m : NameMap (List String))
    (dep child : String) :
    ((deps.foldl (pushDependent name) m)[dep]?.getD []).count child =
      (m[dep]?.getD []).count child + if name = child then deps.count dep else 0 := by
  induction deps generalizing m with
  | nil => simp
  | cons other deps ih =>
    rw [List.foldl_cons, ih]
    unfold pushDependent
    rw [ExtTreeMap.getElem?_insert]
    by_cases hdep : other = dep
    · subst hdep
      by_cases hchild : name = child
      · simp [hchild, List.count_append]
        omega
      · simp [hchild, List.count_append]
    · simp [hdep]

/-- The dependents of a name hold a task as often as it lists that name. -/
theorem count_dependentsOf (tasks : List TaskSpec) (dep child : String) :
    ((dependentsOf tasks)[dep]?.getD []).count child = (entriesOf tasks child).count dep := by
  induction tasks using List.reverseRecOn with
  | nil => simp [dependentsOf, entriesOf]
  | append_singleton tasks task ih =>
    have hkeep : ∀ m : NameMap (List String),
        (m.insertIfNew task.name [])[dep]?.getD [] = m[dep]?.getD [] := by
      intro m
      rw [ExtTreeMap.getElem?_insertIfNew]
      split_ifs with hnew
      · have hnone : m[dep]? = none := by
          rw [← (Std.compare_eq_iff_eq.mp hnew.1)]
          exact ExtTreeMap.getElem?_eq_none hnew.2
        simp [hnone]
      · rfl
    unfold dependentsOf at ih ⊢
    rw [List.foldl_append, List.foldl_cons, List.foldl_nil, count_foldl_pushDependent, hkeep, ih]
    unfold entriesOf
    rw [List.filter_append, List.flatMap_append, List.count_append]
    by_cases hname : task.name = child <;> simp [hname]

end Maps

/-! ### The countdown -/

section Countdown

/-- Counting down a list of children: each count falls by the number of times its task is in the
list, and a task is released once, when its count gets to zero. -/
theorem foldl_countDown (children : List String) (remaining : NameMap ℕ) (released : List String)
    (hle : ∀ name degree, remaining[name]? = some degree → children.count name ≤ degree)
    (name : String) :
    (children.foldl countDown (remaining, released)).1[name]? =
        remaining[name]?.map (· - children.count name) ∧
      (children.foldl countDown (remaining, released)).2.count name = released.count name +
        if children.count name ≠ 0 ∧ remaining[name]? = some (children.count name) then 1
        else 0 := by
  induction children generalizing remaining released with
  | nil => simp
  | cons child children ih =>
    rw [List.foldl_cons]
    cases hchild : remaining[child]? with
    | none =>
      have hskip : countDown (remaining, released) child = (remaining, released) := by
        simp [countDown, hchild]
      have hle' : ∀ name degree, remaining[name]? = some degree → children.count name ≤ degree :=
        fun name degree hdegree ↦ (List.count_le_count_cons ..).trans (hle name degree hdegree)
      rw [hskip, (ih remaining released hle').1, (ih remaining released hle').2]
      by_cases hname : child = name
      · subst hname
        simp [hchild]
      · simp [hname]
    | some degree =>
      have hpos : 1 ≤ degree := by
        have hcount := hle child degree hchild
        rw [List.count_cons_self] at hcount
        omega
      have hstep : countDown (remaining, released) child = (remaining.insert child (degree - 1),
          if degree - 1 = 0 then released ++ [child] else released) := by
        simp [countDown, hchild]
      have hle' : ∀ name degree', (remaining.insert child (degree - 1))[name]? = some degree' →
          children.count name ≤ degree' := by
        intro name degree' hdegree'
        rw [ExtTreeMap.getElem?_insert] at hdegree'
        by_cases hname : child = name
        · subst hname
          have hcount := hle child degree hchild
          rw [List.count_cons_self] at hcount
          simp only [Std.compare_eq_iff_eq, if_true, Option.some.injEq] at hdegree'
          omega
        · have hcount := hle name degree' (by simpa [hname] using hdegree')
          rwa [List.count_cons_of_ne hname] at hcount
      rw [hstep, (ih _ _ hle').1, (ih _ _ hle').2, ExtTreeMap.getElem?_insert]
      by_cases hname : child = name
      · subst hname
        have hcount := hle child degree hchild
        rw [List.count_cons_self] at hcount
        simp only [Std.compare_eq_iff_eq, if_true, hchild, Option.map_some, List.count_cons_self,
          Option.some.injEq]
        refine ⟨by omega, ?_⟩
        by_cases hlast : degree = 1
        · have hzero : children.count child = 0 := by omega
          simp [hlast, hzero, List.count_append]
        · have hmore : degree - 1 ≠ 0 := by omega
          simp only [if_neg hmore]
          congr 1
          split_ifs <;> omega
      · have hsame : (if degree - 1 = 0 then released ++ [child] else released).count name =
            released.count name := by
          split_ifs <;> simp [List.count_append, hname]
        simp [hname, hsame]

/-- A list without repetitions covers a part of the entries of another. -/
theorem countP_mem_eq (entries names : List String) (hnodup : names.Nodup) :
    (names.map fun name ↦ entries.count name).sum = entries.countP (· ∈ names) := by
  induction names with
  | nil => simp
  | cons name names ih =>
    obtain ⟨hname, hnodup⟩ := List.nodup_cons.mp hnodup
    rw [List.map_cons, List.sum_cons, ih hnodup]
    clear ih
    induction entries with
    | nil => simp
    | cons entry entries ih =>
      rw [List.countP_cons, List.countP_cons, List.count_cons, ← ih]
      by_cases heq : entry = name
      · simp only [heq, hname, List.mem_cons, true_or, beq_self_eq_true, decide_true,
          decide_false, if_true, Bool.false_eq_true, if_false]
        omega
      · simp only [heq, List.mem_cons, false_or, beq_iff_eq, if_false]
        omega

end Countdown

/-! ### The stages are layers -/

section Stages

variable {tasks : List TaskSpec} {done ready : List String} {remaining : NameMap ℕ}

/-- The children a stage counts down, as often as they list a task of the stage. -/
theorem count_children (hnodup : ready.Nodup) (name : String) :
    (ready.flatMap fun task ↦ (dependentsOf tasks)[task]?.getD []).count name =
      (entriesOf tasks name).countP (· ∈ ready) := by
  rw [List.count_flatMap, ← countP_mem_eq _ _ hnodup]
  simp only [Function.comp_def, count_dependentsOf]

/-- An entry that is not done is in the next stage or later. -/
theorem countP_not_mem_split (entries : List String) (hdisjoint : ∀ x ∈ ready, x ∉ done) :
    entries.countP (· ∉ done) =
      entries.countP (· ∈ ready) + entries.countP (· ∉ done ++ ready) := by
  induction entries with
  | nil => simp
  | cons entry entries ih =>
    simp only [List.countP_cons, ih, List.mem_append, not_or]
    by_cases hready : entry ∈ ready
    · simp [hready, hdisjoint entry hready]
      omega
    · simp [hready]
      omega

/-- The state of the loop when the tasks in `done` are in the stages before: `ready` is the next
layer, and the counts are those of the entries that are not done. -/
structure Planned (tasks : List TaskSpec) (done ready : List String) (remaining : NameMap ℕ) :
    Prop where
  layer : IsLayer (· ∈ tasks.map TaskSpec.name) (fun x y ↦ y ∈ entriesOf tasks x) done ready
  closed : ∀ x ∈ done, ∀ y ∈ entriesOf tasks x, y ∈ done
  counts : ∀ x : String, remaining[x]? =
    if x ∈ tasks.map TaskSpec.name then some ((entriesOf tasks x).countP (· ∉ done)) else none

theorem planned_start (hnodup : (tasks.map TaskSpec.name).Nodup) :
    Planned tasks []
      ((((inDegree tasks).toList.filter (·.2 = 0)).map Prod.fst).insertionSort (· ≤ ·))
      (inDegree tasks) := by
  refine ⟨⟨List.pairwise_insertionSort _ _, ?_, fun x ↦ ?_⟩, by simp, fun x ↦ ?_⟩
  · refine (List.perm_insertionSort _ _).nodup_iff.mpr ?_
    refine List.Nodup.sublist (List.filter_sublist.map Prod.fst) ?_
    rw [ExtTreeMap.map_fst_toList_eq_keys]
    exact ExtTreeMap.nodup_keys
  · simp only [List.mem_insertionSort, List.mem_map, List.mem_filter, decide_eq_true_eq,
      ExtTreeMap.mem_toList_iff_getElem?_eq_some, Prod.exists, exists_and_right, exists_eq_right,
      getElem?_inDegree hnodup]
    split_ifs with hx
    · simp [hx, List.eq_nil_iff_forall_not_mem]
    · simp [hx]
  · rw [getElem?_inDegree hnodup]
    simp

/-- A task with all entries in the stages so far is in none of them exactly when one of its entries
is in the last. -/
theorem Planned.exists_ready_iff (h : Planned tasks done ready remaining) {x : String}
    (hx : x ∈ tasks.map TaskSpec.name) (hmet : ∀ y ∈ entriesOf tasks x, y ∈ done ++ ready) :
    (∃ y ∈ entriesOf tasks x, y ∈ ready) ↔ x ∉ done ++ ready := by
  constructor
  · rintro ⟨y, hy, hready⟩ hmem
    have hnot : y ∉ done := ((h.layer.mem_iff y).mp hready).2.1
    rcases List.mem_append.mp hmem with hdone | hlast
    · exact hnot (h.closed x hdone y hy)
    · exact hnot (((h.layer.mem_iff x).mp hlast).2.2 y hy)
  · intro hout
    rw [List.mem_append, not_or] at hout
    by_contra hnone
    refine hout.2 ((h.layer.mem_iff x).mpr ⟨hx, hout.1, fun y hy ↦ ?_⟩)
    exact (List.mem_append.mp (hmet y hy)).resolve_right fun hready ↦ hnone ⟨y, hy, hready⟩

/-- One turn of the loop. -/
theorem Planned.finishStage (h : Planned tasks done ready remaining) :
    Planned tasks (done ++ ready)
      ((finishStage (dependentsOf tasks) remaining ready).2.insertionSort (· ≤ ·))
      (finishStage (dependentsOf tasks) remaining ready).1 := by
  have hdisjoint : ∀ x ∈ ready, x ∉ done := fun x hx ↦ ((h.layer.mem_iff x).mp hx).2.1
  have hsplit := fun x ↦ countP_not_mem_split (entriesOf tasks x) hdisjoint
  set children := ready.flatMap fun task ↦ (dependentsOf tasks)[task]?.getD [] with hchildren
  have hcount : ∀ x, children.count x = (entriesOf tasks x).countP (· ∈ ready) :=
    count_children h.layer.nodup
  have hfold : Engine.finishStage (dependentsOf tasks) remaining ready =
      children.foldl countDown (remaining, []) := by
    rw [hchildren, List.foldl_flatMap]
    rfl
  have hdown := foldl_countDown children remaining [] fun x degree hdegree ↦ by
    rw [h.counts] at hdegree
    split_ifs at hdegree with hx
    rw [hcount, ← Option.some.inj hdegree, hsplit]
    omega
  have hreleased : ∀ x, x ∈ (children.foldl countDown (remaining, [])).2 ↔
      children.count x ≠ 0 ∧ remaining[x]? = some (children.count x) := by
    intro x
    rw [← List.count_pos_iff, (hdown x).2]
    split_ifs with hboth <;> simp [hboth]
  rw [hfold]
  refine ⟨⟨List.pairwise_insertionSort _ _, ?_, fun x ↦ ?_⟩, ?_, fun x ↦ ?_⟩
  · refine (List.perm_insertionSort _ _).nodup_iff.mpr (List.nodup_iff_count_le_one.mpr fun x ↦ ?_)
    rw [(hdown x).2]
    split_ifs <;> simp
  · rw [List.mem_insertionSort, hreleased, hcount, h.counts, hsplit]
    by_cases hx : x ∈ tasks.map TaskSpec.name
    · -- released: one entry was in this stage, and none is left
      have hsome : (entriesOf tasks x).countP (· ∈ ready) ≠ 0 ↔
          ∃ y ∈ entriesOf tasks x, y ∈ ready := by
        rw [← Nat.pos_iff_ne_zero, List.countP_pos_iff]
        simp
      have hnone : (entriesOf tasks x).countP (· ∉ done ++ ready) = 0 ↔
          ∀ y ∈ entriesOf tasks x, y ∈ done ++ ready := by
        rw [List.countP_eq_zero]
        simp only [decide_eq_true_eq, not_not]
      rw [if_pos hx, Option.some.injEq, Nat.add_eq_left, hsome, hnone]
      simp only [hx, true_and]
      exact and_congr_left fun hmet ↦ h.exists_ready_iff hx hmet
    · simp [hx]
  · intro x hx y hy
    refine List.mem_append_left _ ?_
    rcases List.mem_append.mp hx with hx | hx
    · exact h.closed x hx y hy
    · exact ((h.layer.mem_iff x).mp hx).2.2 y hy
  · rw [(hdown x).1, h.counts, hcount]
    split_ifs with hx
    · rw [Option.map_some, hsplit]
      congr 1
      omega
    · rfl

/-- The loop lists the layers, given as many turns as there are tasks left and one more. -/
theorem Planned.layers (fuel index : ℕ) (h : Planned tasks done ready remaining)
    (hfuel : ((tasks.map TaskSpec.name).filter (· ∉ done)).length < fuel) :
    Layers (· ∈ tasks.map TaskSpec.name) (fun x y ↦ y ∈ entriesOf tasks x) done
      ((stageLoop (dependentsOf tasks) fuel index remaining ready).map DryRunStage.tasks) := by
  induction fuel generalizing index done ready remaining with
  | zero => exact absurd hfuel (Nat.not_lt_zero _)
  | succ fuel ih =>
    unfold stageLoop
    split_ifs with hempty
    · rw [List.isEmpty_iff.mp hempty] at h
      exact .done h.layer
    · rw [List.map_cons]
      refine .layer h.layer (by simpa using hempty) (ih (index + 1) h.finishStage ?_)
      -- the first task of the stage is no longer left
      obtain ⟨x, hx⟩ := List.exists_mem_of_ne_nil ready (by simpa using hempty)
      obtain ⟨hname, hout, -⟩ := (h.layer.mem_iff x).mp hx
      have hsplit : (tasks.map TaskSpec.name).filter (· ∉ done ++ ready) =
          ((tasks.map TaskSpec.name).filter (· ∉ done)).filter (· ∉ ready) := by
        rw [List.filter_filter]
        refine List.filter_congr fun y _ ↦ ?_
        simp [Bool.and_comm]
      have hleft : x ∈ (tasks.map TaskSpec.name).filter (· ∉ done) :=
        List.mem_filter.mpr ⟨hname, by simpa using hout⟩
      have hlt : (((tasks.map TaskSpec.name).filter (· ∉ done)).filter (· ∉ ready)).length <
          ((tasks.map TaskSpec.name).filter (· ∉ done)).length :=
        List.length_filter_lt_length_iff_exists.mpr ⟨x, hleft, by simpa using hx⟩
      rw [hsplit]
      omega

/-- The stages of a dry run are the layers of the dependency relation. -/
theorem stages_layers {d : WorkflowDef} (hnodup : d.names.Nodup) :
    Layers (· ∈ d.names) d.DependsOn [] ((stagesOf d.tasks).map DryRunStage.tasks) := by
  have hneeds : d.DependsOn = fun x y ↦ y ∈ entriesOf d.tasks x := by
    funext x y
    exact propext mem_entriesOf.symm
  rw [hneeds]
  refine Planned.layers _ 0 (planned_start hnodup) ?_
  calc ((d.tasks.map TaskSpec.name).filter (· ∉ [])).length
      ≤ (d.tasks.map TaskSpec.name).length := List.length_filter_le _ _
    _ < d.tasks.length + 1 := by simp

/-- The dry run of a definition whose tasks can be ordered returns, with these stages. -/
theorem simulateWorkflow_ok {d : WorkflowDef} {order : List String}
    (horder : topoOrder d.tasks = .ok order) :
    ∃ report, simulateWorkflow d = .ok report ∧ report.stages = stagesOf d.tasks ∧
      report.criticalPath = criticalPathOf d.tasks (stagesOf d.tasks) := by
  unfold simulateWorkflow
  rw [horder]
  exact ⟨_, rfl, rfl, rfl⟩

end Stages

end Runvane.Engine
