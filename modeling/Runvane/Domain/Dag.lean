import Runvane.Domain.Workflow
import Runvane.Library.TopologicalOrder

/-!
# The task graph

`domain/dag.rs`: the execution order of a task list, by Kahn's algorithm with a frontier that is
kept in lexicographic order. `topoOrder` fails on a dependency that is no task, and on a cycle.

The loop is bounded here by the number of names. Every turn emits one of them for good, so the
bound does not cut it short: when the loop stops, the frontier is empty (`Kahn.drain_ready`). An
order that is returned lists every task once, each after its dependencies (`topoOrder_ok`), which
makes the position in the order a rank that falls along every dependency.
-/

set_option autoImplicit false

namespace Runvane.Domain

open Std (ExtTreeMap ExtTreeSet)

/-- A set of names, iterated in lexicographic order. -/
abbrev NameSet := ExtTreeSet String

/-- A map keyed by names, iterated in lexicographic order. -/
abbrev NameMap (V : Type) := ExtTreeMap String V

/-- What a definition can be rejected for beyond its name, counts and policies; the code carries
the text. -/
inductive DefinitionProblem
  | taskNameTooLong (name : String) (limit : ℕ)
  | webhookUrlNotParseable (cause : String)
  | webhookUrlScheme (scheme : String)
  | webhookUrlNoHost
  deriving DecidableEq, Repr

/-- Errors produced by the validation of definitions and run inputs. -/
inductive DomainError
  | invalidDefinition (problem : DefinitionProblem)
  | unknownDependency (dep name : String)
  | cycleDetected
  | duplicateTaskName (name : String)
  | invalidName (name : String)
  | emptyTasks
  | tooManyTasks
  | inputTooLarge (size cap : ℕ)
  | inputTooDeep (depth limit : ℕ)
  | invalidPolicy (cause : PolicyError)
  | zeroTimeout
  | descriptionTooLong
  deriving DecidableEq

/-! ### Kahn's algorithm -/

/-- The dependencies of every task name; those of tasks of one name are merged. -/
def dependencyMap (tasks : List TaskSpec) : NameMap NameSet :=
  tasks.foldl (fun deps task ↦
    deps.insert task.name (task.dependsOn.foldl ExtTreeSet.insert (deps[task.name]?.getD ∅))) ∅

/-- The first dependency, in the order of names, that is no task, with the task that has it. -/
def findUnknownDependency (deps : NameMap NameSet) : Option (String × String) :=
  deps.toList.findSome? fun entry ↦
    (entry.2.toList.find? (fun dep ↦ !deps.contains dep)).map fun dep ↦ (dep, entry.1)

/-- The variables of the loop: the frontier, the dependencies not yet emitted, the names emitted,
and the order so far. -/
structure Kahn where
  ready : NameSet
  remaining : NameMap NameSet
  emitted : NameSet
  order : List String

namespace Kahn

/-- The state in which the loop starts. -/
def start (deps : NameMap NameSet) : Kahn where
  ready := ((deps.toList.filter (·.2.isEmpty)).map Prod.fst).foldl ExtTreeSet.insert ∅
  remaining := deps
  emitted := ∅
  order := []

/-- The turn of the loop that emits `next`. -/
def emit (k : Kahn) (next : String) : Kahn :=
  let emitted := k.emitted.insert next
  let draining := (k.remaining.toList.filter fun entry ↦
    entry.2.contains next && (entry.2.erase next).isEmpty).map Prod.fst
  { ready := (draining.filter (!emitted.contains ·)).foldl ExtTreeSet.insert (k.ready.erase next)
    remaining := k.remaining.map fun _ d ↦ d.erase next
    emitted := emitted
    order := k.order ++ [next] }

/-- The loop: the first name of the frontier is emitted until there is none. -/
def drain : ℕ → Kahn → Kahn
  | 0, k => k
  | fuel + 1, k =>
    match k.ready.toList.head? with
    | none => k
    | some next => drain fuel (k.emit next)

end Kahn

/-- Topological order of the task names, ties broken lexicographically. -/
def topoOrder (tasks : List TaskSpec) : Except DomainError (List String) :=
  let deps := dependencyMap tasks
  match findUnknownDependency deps with
  | some (dep, name) => .error (.unknownDependency dep name)
  | none =>
    let k := Kahn.drain deps.size (Kahn.start deps)
    if k.order.length ≠ k.remaining.size then .error .cycleDetected else .ok k.order

/-- Validates that dependencies name known tasks and never form a cycle. -/
def validateEdges (tasks : List TaskSpec) : Except DomainError Unit :=
  (topoOrder tasks).map fun _ ↦ ()

/-! ### The dependency map -/

theorem mem_foldl_insert (names : List String) (s : NameSet) (x : String) :
    x ∈ names.foldl ExtTreeSet.insert s ↔ x ∈ names ∨ x ∈ s := by
  induction names generalizing s with
  | nil => simp
  | cons name names ih =>
    rw [List.foldl_cons, ih]
    simp only [ExtTreeSet.mem_insert, compare_eq_iff_eq, List.mem_cons]
    tauto

/-- The dependencies recorded under a name are those of the tasks of that name, and a name is
recorded when a task has it. -/
theorem getElem?_dependencyMap_foldl (tasks : List TaskSpec) (deps : NameMap NameSet)
    (name : String) :
    (name ∈ tasks.foldl (fun deps task ↦ deps.insert task.name
        (task.dependsOn.foldl ExtTreeSet.insert (deps[task.name]?.getD ∅))) deps ↔
      name ∈ tasks.map TaskSpec.name ∨ name ∈ deps) ∧
    ∀ x, x ∈ ((tasks.foldl (fun deps task ↦ deps.insert task.name
        (task.dependsOn.foldl ExtTreeSet.insert (deps[task.name]?.getD ∅))) deps)[name]?.getD ∅) ↔
      (∃ task ∈ tasks, task.name = name ∧ x ∈ task.dependsOn) ∨ x ∈ deps[name]?.getD ∅ := by
  induction tasks generalizing deps with
  | nil => simp
  | cons task tasks ih =>
    rw [List.foldl_cons]
    refine ⟨?_, fun x ↦ ?_⟩
    · rw [(ih _).1]
      simp only [ExtTreeMap.mem_insert, compare_eq_iff_eq, List.map_cons, List.mem_cons]
      tauto
    · rw [(ih _).2 x, ExtTreeMap.getElem?_insert]
      by_cases h : task.name = name
      · subst h
        simp only [compare_eq_iff_eq, if_true, Option.getD_some, mem_foldl_insert, List.mem_cons]
        grind
      · simp only [compare_eq_iff_eq, h, if_false, List.mem_cons]
        grind

variable {tasks : List TaskSpec} {name : String} {deps : NameMap NameSet} {next : String} {k : Kahn}

theorem mem_dependencyMap : name ∈ dependencyMap tasks ↔ ∃ task ∈ tasks, task.name = name := by
  have h := (getElem?_dependencyMap_foldl tasks ∅ name).1
  simpa [dependencyMap] using h

theorem mem_getD_dependencyMap {x : String} :
    x ∈ (dependencyMap tasks)[name]?.getD ∅ ↔
      ∃ task ∈ tasks, task.name = name ∧ x ∈ task.dependsOn := by
  have h := (getElem?_dependencyMap_foldl tasks ∅ name).2 x
  simpa [dependencyMap] using h

theorem known_of_findUnknownDependency (h : findUnknownDependency deps = none) {dep : String}
    {d : NameSet} (hname : deps[name]? = some d) (hdep : dep ∈ d) : dep ∈ deps := by
  unfold findUnknownDependency at h
  rw [List.findSome?_eq_none_iff] at h
  have hentry := h (name, d) (ExtTreeMap.mem_toList_iff_getElem?_eq_some.mpr hname)
  simp only [Option.map_eq_none_iff, List.find?_eq_none] at hentry
  simpa using hentry dep (ExtTreeSet.mem_toList.mpr hdep)

/-! ### The loop -/

/-- Every name of the order is a key of `deps` and stands after its dependencies. -/
def DependencyFirst (deps : NameMap NameSet) (order : List String) : Prop :=
  ∀ front name back, order = front ++ name :: back →
    ∃ d, deps[name]? = some d ∧ ∀ x ∈ d, x ∈ front

theorem DependencyFirst.snoc {order : List String} {d : NameSet} (h : DependencyFirst deps order)
    (hnext : deps[next]? = some d) (hd : ∀ x ∈ d, x ∈ order) :
    DependencyFirst deps (order ++ [next]) :=
  Library.forall_split_snoc h ⟨d, hnext, hd⟩

namespace Kahn

/-- What holds at the head of the loop: `remaining` holds the dependencies that are not emitted,
and the frontier the names that are not emitted and whose dependencies all are. -/
structure Inv (deps : NameMap NameSet) (k : Kahn) : Prop where
  remaining_iff : ∀ {name : String} {d : NameSet}, deps[name]? = some d →
    ∃ r, k.remaining[name]? = some r ∧ ∀ x, x ∈ r ↔ x ∈ d ∧ x ∉ k.order
  remaining_sub : ∀ {name : String}, name ∈ k.remaining → name ∈ deps
  remaining_size : k.remaining.size = deps.size
  emitted_iff : ∀ x, x ∈ k.emitted ↔ x ∈ k.order
  ready_iff : ∀ name, name ∈ k.ready ↔
    name ∉ k.order ∧ ∃ d, deps[name]? = some d ∧ ∀ x ∈ d, x ∈ k.order
  nodup : k.order.Nodup
  first : DependencyFirst deps k.order

theorem isEmpty_iff_forall {s : NameSet} : s.isEmpty = true ↔ ∀ x, x ∉ s := by
  rw [ExtTreeSet.isEmpty_iff, ExtTreeSet.eq_empty_iff_forall_not_mem]

theorem inv_start (deps : NameMap NameSet) : Inv deps (start deps) where
  remaining_iff h := ⟨_, h, fun x ↦ by simp [start]⟩
  remaining_sub h := h
  remaining_size := rfl
  emitted_iff x := by simp [start]
  ready_iff name := by
    simp only [start, mem_foldl_insert, List.mem_map, List.mem_filter,
      ExtTreeMap.mem_toList_iff_getElem?_eq_some, Prod.exists, exists_and_right, exists_eq_right,
      isEmpty_iff_forall, ExtTreeSet.not_mem_empty, List.not_mem_nil, or_false, not_false_eq_true,
      true_and, imp_false]
  nodup := List.nodup_nil
  first front name back h := by simp [start] at h

theorem mem_draining :
    name ∈ (k.remaining.toList.filter fun entry ↦
        entry.2.contains next && (entry.2.erase next).isEmpty).map Prod.fst ↔
      ∃ r, k.remaining[name]? = some r ∧ next ∈ r ∧ ∀ x ∈ r, x = next := by
  simp only [List.mem_map, List.mem_filter, ExtTreeMap.mem_toList_iff_getElem?_eq_some,
    Bool.and_eq_true, ExtTreeSet.contains_iff_mem, isEmpty_iff_forall, ExtTreeSet.mem_erase,
    Prod.exists, exists_and_right, exists_eq_right]
  refine exists_congr fun r ↦ and_congr_right fun _ ↦ and_congr_right fun _ ↦
    forall_congr' fun x ↦ ?_
  simp only [ne_eq, Std.compare_eq_iff_eq]
  tauto

theorem Inv.mem_emit_ready (h : Inv deps k) (hnext : next ∈ k.ready) (name : String) :
    name ∈ (k.emit next).ready ↔
      name ∉ k.order ++ [next] ∧ ∃ d, deps[name]? = some d ∧ ∀ x ∈ d, x ∈ k.order ++ [next] := by
  have hfresh : next ∉ k.order := ((h.ready_iff next).mp hnext).1
  simp only [emit, mem_foldl_insert, List.mem_filter, mem_draining, ExtTreeSet.mem_erase,
    h.ready_iff, ne_eq, Std.compare_eq_iff_eq, List.mem_append, List.mem_singleton,
    Bool.not_eq_true', ← Bool.not_eq_true, ExtTreeSet.contains_iff_mem, ExtTreeSet.mem_insert,
    h.emitted_iff]
  constructor
  · rintro (⟨⟨r, hr, hmem, hall⟩, hne⟩ | ⟨hne, hout, d, hd, hin⟩)
    · have hkey : name ∈ deps :=
        h.remaining_sub (ExtTreeMap.mem_iff_isSome_getElem?.mpr (by simp [hr]))
      obtain ⟨d, hd⟩ := Option.isSome_iff_exists.mp (ExtTreeMap.mem_iff_isSome_getElem?.mp hkey)
      obtain ⟨r', hr', hrd⟩ := h.remaining_iff hd
      obtain rfl : r = r' := Option.some.inj (hr.symm.trans hr')
      refine ⟨by tauto, d, hd, fun x hx ↦ ?_⟩
      by_cases hxo : x ∈ k.order
      · exact .inl hxo
      · exact .inr (hall x ((hrd x).mpr ⟨hx, hxo⟩))
    · exact ⟨by tauto, d, hd, fun x hx ↦ .inl (hin x hx)⟩
  · rintro ⟨hout, d, hd, hin⟩
    by_cases hdep : next ∈ d
    · obtain ⟨r, hr, hrd⟩ := h.remaining_iff hd
      refine .inl ⟨⟨r, hr, (hrd next).mpr ⟨hdep, hfresh⟩, fun x hx ↦ ?_⟩, by tauto⟩
      obtain ⟨hxd, hxo⟩ := (hrd x).mp hx
      exact (hin x hxd).resolve_left hxo
    · refine .inr ⟨by tauto, by tauto, d, hd, fun x hx ↦ (hin x hx).resolve_right ?_⟩
      rintro rfl
      exact hdep hx

theorem Inv.emit (h : Inv deps k) (hnext : next ∈ k.ready) : Inv deps (k.emit next) where
  remaining_iff hd := by
    obtain ⟨r, hr, hrd⟩ := h.remaining_iff hd
    refine ⟨r.erase next, by simp [Kahn.emit, hr], fun x ↦ ?_⟩
    simp only [Kahn.emit, ExtTreeSet.mem_erase, hrd, ne_eq, Std.compare_eq_iff_eq,
      List.mem_append, List.mem_singleton]
    tauto
  remaining_sub hname := h.remaining_sub (ExtTreeMap.mem_map.mp hname)
  remaining_size := by simp [Kahn.emit, h.remaining_size]
  emitted_iff x := by
    simp only [Kahn.emit, ExtTreeSet.mem_insert, Std.compare_eq_iff_eq, h.emitted_iff,
      List.mem_append, List.mem_singleton]
    tauto
  ready_iff := h.mem_emit_ready hnext
  nodup := by
    have hfresh := ((h.ready_iff next).mp hnext).1
    simp only [Kahn.emit, List.nodup_append, h.nodup, List.nodup_singleton, true_and]
    rintro x hx y hy rfl
    obtain rfl := List.mem_singleton.mp hy
    exact hfresh hx
  first := by
    obtain ⟨-, d, hd, hin⟩ := (h.ready_iff next).mp hnext
    exact h.first.snoc hd hin

theorem Inv.drain (fuel : ℕ) (h : Inv deps k) : Inv deps (drain fuel k) := by
  induction fuel generalizing k with
  | zero => exact h
  | succ fuel ih =>
    unfold Kahn.drain
    split
    · exact h
    · next next hhead =>
      exact ih (h.emit (ExtTreeSet.mem_toList.mp (List.mem_of_mem_head? hhead)))

theorem Inv.order_sub (h : Inv deps k) (hname : name ∈ k.order) : name ∈ deps.keys := by
  obtain ⟨front, back, heq⟩ := List.append_of_mem hname
  obtain ⟨d, hd, -⟩ := h.first front name back heq
  exact ExtTreeMap.mem_keys.mpr (ExtTreeMap.mem_iff_isSome_getElem?.mpr (by simp [hd]))

theorem Inv.mem_order_of_size_le (h : Inv deps k) (hsize : deps.size ≤ k.order.length)
    (hname : name ∈ deps) : name ∈ k.order := by
  have hperm : k.order.Perm deps.keys :=
    (h.nodup.subperm fun _ ↦ h.order_sub).perm_of_length_le (by simpa using hsize)
  exact hperm.mem_iff.mpr (ExtTreeMap.mem_keys.mpr hname)

/-- The bound on the turns does not cut the loop short. -/
theorem drain_ready (fuel : ℕ) (h : Inv deps k) (hfuel : deps.size ≤ fuel + k.order.length)
    (name : String) : name ∉ (drain fuel k).ready := by
  induction fuel generalizing k with
  | zero =>
    intro hready
    obtain ⟨hout, d, hd, -⟩ := (h.ready_iff name).mp hready
    exact hout (h.mem_order_of_size_le (by omega)
      (ExtTreeMap.mem_iff_isSome_getElem?.mpr (by simp [hd])))
  | succ fuel ih =>
    unfold Kahn.drain
    split
    · next hhead =>
      have hnil : k.ready.toList = [] := List.head?_eq_none_iff.mp hhead
      intro hready
      simpa [hnil] using ExtTreeSet.mem_toList.mpr hready
    · next next hhead =>
      refine ih (h.emit (ExtTreeSet.mem_toList.mp (List.mem_of_mem_head? hhead))) ?_
      simp only [Kahn.emit, List.length_append, List.length_singleton]
      omega

end Kahn

/-- An order that `topoOrder` returns lists the task names, each once and each after its
dependencies. -/
theorem topoOrder_ok {order : List String} (h : topoOrder tasks = .ok order) :
    order.Nodup ∧ (∀ task ∈ tasks, task.name ∈ order) ∧
      ∀ task ∈ tasks, ∀ dep ∈ task.dependsOn,
        (∃ other ∈ tasks, other.name = dep) ∧ order.idxOf dep < order.idxOf task.name := by
  unfold topoOrder at h
  simp only at h
  split at h
  · cases h
  · next hknown =>
    split_ifs at h with hlen
    simp only [ne_eq, not_not] at hlen
    have hinv := (Kahn.inv_start (dependencyMap tasks)).drain (dependencyMap tasks).size
    generalize Kahn.drain (dependencyMap tasks).size (Kahn.start (dependencyMap tasks)) = k at *
    obtain rfl : k.order = order := Except.ok.inj h
    have hmem : ∀ task ∈ tasks, task.name ∈ k.order := fun task htask ↦
      hinv.mem_order_of_size_le (by rw [hlen, hinv.remaining_size])
        (mem_dependencyMap.mpr ⟨task, htask, rfl⟩)
    refine ⟨hinv.nodup, hmem, fun task htask dep hdep ↦ ?_⟩
    obtain ⟨front, back, heq⟩ := List.append_of_mem (hmem task htask)
    obtain ⟨d, hd, hfront⟩ := hinv.first front task.name back heq
    have hdd : dep ∈ d := by
      have := mem_getD_dependencyMap.mpr ⟨task, htask, rfl, hdep⟩
      simpa [hd] using this
    refine ⟨mem_dependencyMap.mp (known_of_findUnknownDependency hknown hd hdd), ?_⟩
    have hlt : List.idxOf dep front < front.length := List.idxOf_lt_length_of_mem (hfront dep hdd)
    have hout : task.name ∉ front := by
      intro hin
      have := heq ▸ hinv.nodup
      exact (List.nodup_append.mp this).2.2 _ hin _ (List.mem_cons_self ..) rfl
    rw [heq, List.idxOf_append_of_mem (hfront dep hdd), List.idxOf_append_of_notMem hout]
    simp only [List.idxOf_cons_self, add_zero]
    exact hlt

end Runvane.Domain
