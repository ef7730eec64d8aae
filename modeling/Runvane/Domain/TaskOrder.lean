import Runvane.Domain.Dag

/-!
# The order of the tasks

What `topo_order` of `domain/dag.rs` is for. Tasks of one name count as one node, which needs what
any of them depends on. The loop of `Dag` emits the least name of its frontier, and its invariant
says that the frontier holds the ready names, so the order it leaves is greedy
(`Kahn.greedy_drain`). When the loop stops, no name is ready; if one is left all the same, the graph
has a cycle. Together this makes the result the least topological order whenever there is one
(`topoOrder_least`).
-/

set_option autoImplicit false

namespace Runvane.Domain

open Library
open Std (ExtTreeMap ExtTreeSet)

/-! ### The graph of a task list -/

/-- The names of the tasks, each once. -/
def taskNames (tasks : List TaskSpec) : List String := (tasks.map TaskSpec.name).dedup

def DependsOn (tasks : List TaskSpec) (name dep : String) : Prop :=
  ∃ task ∈ tasks, task.name = name ∧ dep ∈ task.dependsOn

def DependenciesKnown (tasks : List TaskSpec) : Prop :=
  ∀ name dep, DependsOn tasks name dep → dep ∈ taskNames tasks

variable {tasks : List TaskSpec} {name : String} {k : Kahn}

theorem mem_taskNames : name ∈ taskNames tasks ↔ name ∈ dependencyMap tasks := by
  rw [mem_dependencyMap, taskNames, List.mem_dedup, List.mem_map]

theorem DependsOn.mem_taskNames {dep : String} (h : DependsOn tasks name dep) :
    name ∈ taskNames tasks := by
  obtain ⟨task, htask, rfl, -⟩ := h
  exact List.mem_dedup.mpr (List.mem_map_of_mem htask)

theorem exists_dependencies (h : name ∈ taskNames tasks) :
    ∃ d, (dependencyMap tasks)[name]? = some d :=
  Option.isSome_iff_exists.mp (ExtTreeMap.mem_iff_isSome_getElem?.mp (mem_taskNames.mp h))

theorem mem_iff_dependsOn {d : NameSet} (h : (dependencyMap tasks)[name]? = some d) (dep : String) :
    dep ∈ d ↔ DependsOn tasks name dep := by
  have hmem : dep ∈ (dependencyMap tasks)[name]?.getD ∅ ↔ DependsOn tasks name dep :=
    mem_getD_dependencyMap
  rwa [h, Option.getD_some] at hmem

/-- The dependency map knows the names and what they depend on, and nothing of the list besides. -/
theorem dependencyMap_congr {other : List TaskSpec}
    (hnames : ∀ name, name ∈ taskNames tasks ↔ name ∈ taskNames other)
    (hdeps : ∀ name dep, DependsOn tasks name dep ↔ DependsOn other name dep) :
    dependencyMap tasks = dependencyMap other := by
  refine ExtTreeMap.ext_getElem? fun {name} ↦ ?_
  cases hd : (dependencyMap tasks)[name]? with
  | none =>
    have hout : name ∉ taskNames other := by
      rw [← hnames, mem_taskNames, ExtTreeMap.mem_iff_isSome_getElem?, hd]
      exact Bool.false_ne_true
    cases hd' : (dependencyMap other)[name]? with
    | none => rfl
    | some d' =>
      exact absurd (mem_taskNames.mpr (ExtTreeMap.mem_iff_isSome_getElem?.mpr (by simp [hd']))) hout
  | some d =>
    have hin : name ∈ taskNames tasks :=
      mem_taskNames.mpr (ExtTreeMap.mem_iff_isSome_getElem?.mpr (by simp [hd]))
    obtain ⟨d', hd'⟩ := exists_dependencies ((hnames name).mp hin)
    obtain rfl : d = d' := ExtTreeSet.ext_mem fun dep ↦ by
      rw [mem_iff_dependsOn hd, mem_iff_dependsOn hd', hdeps]
    exact hd'.symm

/-! ### Unknown dependencies -/

/-- The dependency that is reported is one of the task named with it, and no task. -/
theorem unknown_of_findUnknownDependency {dep : String}
    (h : findUnknownDependency (dependencyMap tasks) = some (dep, name)) :
    DependsOn tasks name dep ∧ dep ∉ taskNames tasks := by
  unfold findUnknownDependency at h
  obtain ⟨entry, hentry, hfound⟩ := List.exists_of_findSome?_eq_some h
  obtain ⟨found, hfind, heq⟩ := Option.map_eq_some_iff.mp hfound
  obtain ⟨rfl, rfl⟩ := Prod.mk.inj heq
  have hd := ExtTreeMap.mem_toList_iff_getElem?_eq_some.mp hentry
  have hdep : found ∈ entry.2 := ExtTreeSet.mem_toList.mp (List.mem_of_find?_eq_some hfind)
  refine ⟨(mem_iff_dependsOn hd found).mp hdep, fun hknown ↦ ?_⟩
  have hout := List.find?_some hfind
  rw [mem_taskNames, ← ExtTreeMap.contains_iff_mem] at hknown
  simp [hknown] at hout

theorem findUnknownDependency_eq_none_iff :
    findUnknownDependency (dependencyMap tasks) = none ↔ DependenciesKnown tasks := by
  constructor
  · intro h name dep hdep
    obtain ⟨d, hd⟩ := exists_dependencies hdep.mem_taskNames
    exact mem_taskNames.mpr
      (known_of_findUnknownDependency h hd ((mem_iff_dependsOn hd dep).mpr hdep))
  · intro h
    cases hfound : findUnknownDependency (dependencyMap tasks) with
    | none => rfl
    | some unknown =>
      obtain ⟨hdep, hout⟩ := unknown_of_findUnknownDependency hfound
      exact absurd (h _ _ hdep) hout

/-! ### The loop takes the least ready name -/

namespace Kahn

theorem Inv.ready_iff_ready (h : Inv (dependencyMap tasks) k) (name : String) :
    name ∈ k.ready ↔ Ready (taskNames tasks) (DependsOn tasks) k.order name := by
  rw [h.ready_iff]
  constructor
  · rintro ⟨hout, d, hd, hin⟩
    refine ⟨?_, hout, fun dep hdep ↦ hin dep ((mem_iff_dependsOn hd dep).mpr hdep)⟩
    exact mem_taskNames.mpr (ExtTreeMap.mem_iff_isSome_getElem?.mpr (by simp [hd]))
  · rintro ⟨hname, hout, hin⟩
    obtain ⟨d, hd⟩ := exists_dependencies hname
    exact ⟨hout, d, hd, fun dep hdep ↦ hin dep ((mem_iff_dependsOn hd dep).mp hdep)⟩

/-- The first name of the frontier is the least. -/
theorem head_le {ready : NameSet} {next : String} (hhead : ready.toList.head? = some next)
    (hname : name ∈ ready) : next ≤ name := by
  obtain ⟨rest, hlist⟩ := List.head?_eq_some_iff.mp hhead
  have hordered : (next :: rest).Pairwise fun a b ↦ compare a b = .lt :=
    hlist ▸ ExtTreeSet.ordered_toList
  rcases List.mem_cons.mp (hlist ▸ ExtTreeSet.mem_toList.mpr hname) with rfl | hrest
  · exact le_rfl
  · exact le_of_lt (compare_lt_iff_lt.mp ((List.pairwise_cons.mp hordered).1 name hrest))

/-- The loop takes the least ready name each time. -/
theorem greedy_drain (fuel : ℕ) (h : Inv (dependencyMap tasks) k)
    (hgreedy : Greedy (taskNames tasks) (DependsOn tasks) k.order) :
    Greedy (taskNames tasks) (DependsOn tasks) (drain fuel k).order := by
  induction fuel generalizing k with
  | zero => exact hgreedy
  | succ fuel ih =>
    unfold Kahn.drain
    split
    · exact hgreedy
    · next next hhead =>
      have hnext : next ∈ k.ready := ExtTreeSet.mem_toList.mp (List.mem_of_mem_head? hhead)
      refine ih (h.emit hnext) (forall_split_snoc hgreedy fun name hready ↦ ?_)
      exact head_le hhead ((h.ready_iff_ready name).mpr hready)

/-- The names in the order are those of tasks. -/
theorem Inv.order_subset (h : Inv (dependencyMap tasks) k) (hname : name ∈ k.order) :
    name ∈ taskNames tasks :=
  mem_taskNames.mpr (ExtTreeMap.mem_keys.mp (h.order_sub hname))

/-- An order with all names is topological. -/
theorem Inv.isTopological (h : Inv (dependencyMap tasks) k)
    (hall : ∀ name ∈ taskNames tasks, name ∈ k.order) :
    IsTopological (taskNames tasks) (DependsOn tasks) k.order where
  perm := (List.perm_ext_iff_of_nodup h.nodup (List.nodup_dedup _)).mpr fun name ↦
    ⟨h.order_subset, hall name⟩
  first front name back heq dep hdep := by
    obtain ⟨d, hd, hin⟩ := h.first front name back heq
    exact hin dep ((mem_iff_dependsOn hd dep).mpr hdep)

/-- The order is complete exactly if it has as many names as there are. -/
theorem Inv.length_eq_iff (h : Inv (dependencyMap tasks) k) :
    k.order.length = k.remaining.size ↔ ∀ name ∈ taskNames tasks, name ∈ k.order := by
  rw [h.remaining_size]
  constructor
  · intro hlength name hname
    exact h.mem_order_of_size_le hlength.ge (mem_taskNames.mp hname)
  · intro hall
    have hperm : k.order.Perm (dependencyMap tasks).keys :=
      (List.perm_ext_iff_of_nodup h.nodup ExtTreeMap.nodup_keys).mpr fun name ↦
        ⟨h.order_sub, fun hname ↦ hall name (mem_taskNames.mpr (ExtTreeMap.mem_keys.mp hname))⟩
    simpa using hperm.length_eq

end Kahn

/-! ### The order -/

/-- The state in which the loop leaves its variables. -/
def drained (tasks : List TaskSpec) : Kahn :=
  Kahn.drain (dependencyMap tasks).size (Kahn.start (dependencyMap tasks))

theorem inv_drained (tasks : List TaskSpec) : Kahn.Inv (dependencyMap tasks) (drained tasks) :=
  (Kahn.inv_start _).drain _

theorem greedy_drained (tasks : List TaskSpec) :
    Greedy (taskNames tasks) (DependsOn tasks) (drained tasks).order :=
  Kahn.greedy_drain _ (Kahn.inv_start _) fun front a back h ↦ by simp [Kahn.start] at h

/-- The loop gets to every name, unless there is a cycle. -/
theorem mem_order_of_acyclic (hknown : DependenciesKnown tasks)
    (hacyclic : Acyclic (DependsOn tasks)) (hname : name ∈ taskNames tasks) :
    name ∈ (drained tasks).order := by
  by_contra hout
  obtain ⟨left, hready⟩ := exists_ready hacyclic (fun _ dep _ hdep ↦ hknown _ dep hdep)
    ⟨name, hname, hout⟩
  exact Kahn.drain_ready _ (Kahn.inv_start _) (by simp [Kahn.start]) left
    (((inv_drained tasks).ready_iff_ready left).mpr hready)

theorem topoOrder_of_unknown (h : ¬ DependenciesKnown tasks) :
    ∃ dep name, topoOrder tasks = .error (.unknownDependency dep name) ∧
      DependsOn tasks name dep ∧ dep ∉ taskNames tasks := by
  cases hfound : findUnknownDependency (dependencyMap tasks) with
  | none => exact absurd (findUnknownDependency_eq_none_iff.mp hfound) h
  | some unknown =>
    refine ⟨unknown.1, unknown.2, ?_, unknown_of_findUnknownDependency hfound⟩
    simp only [topoOrder, hfound]

theorem topoOrder_of_known (h : DependenciesKnown tasks) :
    topoOrder tasks =
      if (drained tasks).order.length ≠ (drained tasks).remaining.size then .error .cycleDetected
      else .ok (drained tasks).order := by
  simp only [topoOrder, findUnknownDependency_eq_none_iff.mpr h]
  rfl

theorem topoOrder_of_cycle (hknown : DependenciesKnown tasks)
    (hcycle : ¬ Acyclic (DependsOn tasks)) : topoOrder tasks = .error .cycleDetected := by
  rw [topoOrder_of_known hknown, if_pos]
  intro hlength
  have hall := (inv_drained tasks).length_eq_iff.mp hlength
  exact hcycle (((inv_drained tasks).isTopological hall).acyclic (List.nodup_dedup _)
    fun _ _ hdep ↦ hdep.mem_taskNames)

theorem topoOrder_of_acyclic (hknown : DependenciesKnown tasks)
    (hacyclic : Acyclic (DependsOn tasks)) : topoOrder tasks = .ok (drained tasks).order := by
  have hall : ∀ name ∈ taskNames tasks, name ∈ (drained tasks).order := fun _ ↦
    mem_order_of_acyclic hknown hacyclic
  rw [topoOrder_of_known hknown, if_neg]
  exact not_not.mpr ((inv_drained tasks).length_eq_iff.mpr hall)

/-- An order is returned exactly if all dependencies are tasks and there is no cycle. It is then the
least topological order of the names, and it is the same for every list of tasks with these names
and dependencies. Otherwise an unknown dependency is reported if there is one, and a cycle if there
is none. -/
theorem topoOrder_least (tasks : List TaskSpec) :
    ((∃ order, topoOrder tasks = .ok order) ↔
      DependenciesKnown tasks ∧ Acyclic (DependsOn tasks)) ∧
    (∀ order, topoOrder tasks = .ok order →
      IsTopological (taskNames tasks) (DependsOn tasks) order ∧
      ∀ other, IsTopological (taskNames tasks) (DependsOn tasks) other → order ≤ other) ∧
    (∀ shuffled : List TaskSpec,
      (∀ name, name ∈ taskNames shuffled ↔ name ∈ taskNames tasks) →
      (∀ name dep, DependsOn shuffled name dep ↔ DependsOn tasks name dep) →
      topoOrder shuffled = topoOrder tasks) ∧
    (¬ DependenciesKnown tasks → ∃ dep name,
      topoOrder tasks = .error (.unknownDependency dep name) ∧
      DependsOn tasks name dep ∧ dep ∉ taskNames tasks) ∧
    (DependenciesKnown tasks → ¬ Acyclic (DependsOn tasks) →
      topoOrder tasks = .error .cycleDetected) := by
  have hiff : (∃ order, topoOrder tasks = .ok order) ↔
      DependenciesKnown tasks ∧ Acyclic (DependsOn tasks) := by
    constructor
    · rintro ⟨order, horder⟩
      by_contra hnot
      by_cases hknown : DependenciesKnown tasks
      · rw [topoOrder_of_cycle hknown fun hacyclic ↦ hnot ⟨hknown, hacyclic⟩] at horder
        cases horder
      · obtain ⟨dep, name, herror, -⟩ := topoOrder_of_unknown hknown
        rw [herror] at horder
        cases horder
    · rintro ⟨hknown, hacyclic⟩
      exact ⟨_, topoOrder_of_acyclic hknown hacyclic⟩
  refine ⟨hiff, fun order horder ↦ ?_, fun shuffled hnames hdeps ↦ ?_, topoOrder_of_unknown,
    topoOrder_of_cycle⟩
  · obtain ⟨hknown, hacyclic⟩ := hiff.mp ⟨order, horder⟩
    obtain rfl : (drained tasks).order = order :=
      Except.ok.inj ((topoOrder_of_acyclic hknown hacyclic).symm.trans horder)
    have htopological := (inv_drained tasks).isTopological fun _ ↦
      mem_order_of_acyclic hknown hacyclic
    refine ⟨htopological, fun other hother ↦ ?_⟩
    exact (greedy_drained tasks).le htopological hother (List.nodup_dedup _)
  · unfold topoOrder
    rw [dependencyMap_congr hnames hdeps]

end Runvane.Domain
