import Runvane.Domain.Dag

/-!
# Ready-set selection

`scheduler/pick.rs`: which tasks may be dispatched in the current statuses, and which tasks can no
longer be. Both are pure functions of the definition and the status map.

`readyTasks` is described by its members (`mem_readyTasks`). `pendingToSkip` repeats a pass over
the tasks until nothing changes. A pending dependency blocks a task just as a failed one does, so
the first pass finds all there is to skip, the second finds nothing (`Skips.skipPass_eq`), and the
bound on the passes does not matter. `skips_pendingToSkip` says what comes out: the pending tasks
with a dependency that did not succeed are skipped, and all else is as it was. From this follow the
properties of a fixpoint (`skipFixpoint_of_nodup`).
-/

set_option autoImplicit false

namespace Runvane.Scheduler

open Domain
open Std (ExtTreeMap)

abbrev StatusMap := NameMap TaskStatus

/-- The status of a task, pending when the map does not have it. -/
def StatusMap.statusOf (states : StatusMap) (name : String) : TaskStatus :=
  states[name]?.getD .pending

def depsSucceeded (states : StatusMap) (task : TaskSpec) : Bool :=
  task.dependsOn.all fun dep ↦ states[dep]? = some .succeeded

def isPicked (states : StatusMap) (task : TaskSpec) : Bool :=
  match states.statusOf task.name with
  | .failed => true
  | .pending => depsSucceeded states task
  | _ => false

def readyTasks (d : WorkflowDef) (states : StatusMap) : List String :=
  ((d.tasks.filter (isPicked states)).map TaskSpec.name).insertionSort (· ≤ ·)

/-- What one task contributes to a pass: it is skipped when it is pending and blocked. -/
def skipTask (acc : StatusMap × Bool) (task : TaskSpec) : StatusMap × Bool :=
  if acc.1.statusOf task.name = .pending ∧ ¬ depsSucceeded acc.1 task then
    (acc.1.insert task.name .skipped, true)
  else acc

/-- One pass over the tasks, with a flag that tells whether something changed. -/
def skipPass (d : WorkflowDef) (states : StatusMap) : StatusMap × Bool :=
  d.tasks.foldl skipTask (states, false)

/-- Passes until nothing changes. -/
def skipPasses (d : WorkflowDef) : ℕ → StatusMap → StatusMap
  | 0, states => states
  | fuel + 1, states =>
    if (skipPass d states).2 then skipPasses d fuel (skipPass d states).1
    else (skipPass d states).1

/-- Marks the tasks whose dispatch can never proceed. -/
def pendingToSkip (d : WorkflowDef) (states : StatusMap) : StatusMap :=
  skipPasses d (d.tasks.length + 1) states

/-! ### The ready set -/

variable {name : String} {task : TaskSpec}

theorem mem_readyTasks {d : WorkflowDef} {states : StatusMap} :
    name ∈ readyTasks d states ↔ ∃ task ∈ d.tasks, isPicked states task ∧ task.name = name := by
  simp only [readyTasks, List.mem_insertionSort, List.mem_map, List.mem_filter, and_assoc]

theorem nodup_readyTasks {d : WorkflowDef} (hnodup : d.names.Nodup) (states : StatusMap) :
    (readyTasks d states).Nodup := by
  refine (List.perm_insertionSort _ _).nodup_iff.mpr ?_
  exact hnodup.sublist (List.filter_sublist.map TaskSpec.name)

theorem pairwise_readyTasks (d : WorkflowDef) (states : StatusMap) :
    (readyTasks d states).Pairwise (· ≤ ·) :=
  List.pairwise_insertionSort _ _

theorem depsSucceeded_iff {states : StatusMap} :
    depsSucceeded states task ↔ ∀ dep ∈ task.dependsOn, states[dep]? = some .succeeded := by
  simp [depsSucceeded]

/-! ### The skipped tasks -/

/-- Whether a task of that name among `tasks` is pending and can no longer be dispatched. -/
def Blocked (tasks : List TaskSpec) (states : StatusMap) (name : String) : Prop :=
  states.statusOf name = .pending ∧
    ∃ task ∈ tasks, task.name = name ∧ depsSucceeded states task = false

instance (tasks : List TaskSpec) (states : StatusMap) (name : String) :
    Decidable (Blocked tasks states name) :=
  inferInstanceAs (Decidable (_ ∧ _))

/-- The map with the blocked tasks skipped, and all else as it was. -/
def Skips (tasks : List TaskSpec) (states next : StatusMap) : Prop :=
  ∀ name : String, next[name]? = if Blocked tasks states name then some .skipped else states[name]?

section Skips

variable {tasks : List TaskSpec} {states next : StatusMap}

theorem Skips.statusOf_eq (h : Skips tasks states next) (name : String) :
    next.statusOf name = if Blocked tasks states name then .skipped else states.statusOf name := by
  unfold StatusMap.statusOf
  rw [h name]
  split_ifs <;> rfl

/-- Skipping neither adds a success nor takes one away. -/
theorem Skips.depsSucceeded_eq (h : Skips tasks states next) (task : TaskSpec) :
    depsSucceeded next task = depsSucceeded states task := by
  rw [Bool.eq_iff_iff, depsSucceeded_iff, depsSucceeded_iff]
  refine forall₂_congr fun dep _ ↦ ?_
  rw [h dep]
  split_ifs with hblocked
  · have hpending := hblocked.1
    unfold StatusMap.statusOf at hpending
    constructor <;> intro hsucceeded
    · simp at hsucceeded
    · simp [hsucceeded] at hpending
  · rfl

theorem blocked_append :
    Blocked (tasks ++ [task]) states name ↔ Blocked tasks states name ∨
      (task.name = name ∧ states.statusOf name = .pending ∧ depsSucceeded states task = false) := by
  simp only [Blocked, List.mem_append, List.mem_singleton, or_and_right, exists_or, exists_eq_left,
    and_or_left]
  exact or_congr_right and_left_comm

theorem Skips.skipTask {acc : StatusMap × Bool} (h : Skips tasks states acc.1) (task : TaskSpec) :
    Skips (tasks ++ [task]) states (skipTask acc task).1 := by
  intro name
  unfold Scheduler.skipTask
  rw [h.statusOf_eq, h.depsSucceeded_eq]
  by_cases hskip : Blocked tasks states task.name
  · -- the task was skipped under another task of its name
    have hsame : Blocked (tasks ++ [task]) states name ↔ Blocked tasks states name := by
      rw [blocked_append]
      refine or_iff_left_of_imp ?_
      rintro ⟨rfl, -⟩
      exact hskip
    simp only [hskip, if_true, reduceCtorEq, false_and, if_false, h name, hsame]
  · rw [if_neg hskip]
    by_cases hblocked : states.statusOf task.name = .pending ∧ ¬ depsSucceeded states task
    · simp only [if_pos hblocked, ExtTreeMap.getElem?_insert, Std.compare_eq_iff_eq,
        blocked_append]
      by_cases hname : task.name = name
      · subst hname
        simp [hblocked]
      · simp [hname, h name]
    · have hsame : Blocked (tasks ++ [task]) states name ↔ Blocked tasks states name := by
        rw [blocked_append]
        refine or_iff_left_of_imp ?_
        rintro ⟨rfl, hpending, hdeps⟩
        exact absurd ⟨hpending, by simp [hdeps]⟩ hblocked
      simp only [if_neg hblocked, h name, hsame]

theorem Skips.foldl (rest : List TaskSpec) (acc : StatusMap × Bool)
    (h : Skips tasks states acc.1) :
    Skips (tasks ++ rest) states (rest.foldl Scheduler.skipTask acc).1 := by
  induction rest generalizing tasks acc with
  | nil => simpa using h
  | cons task rest ih =>
    rw [List.append_cons]
    exact ih _ (h.skipTask task)

theorem skips_skipPass (d : WorkflowDef) (states : StatusMap) :
    Skips d.tasks states (skipPass d states).1 := by
  have hnone : Skips [] states states := fun name ↦ by simp [Blocked]
  exact Skips.foldl d.tasks (states, false) hnone

/-- A second pass finds nothing to do. -/
theorem Skips.skipPass_eq {d : WorkflowDef} (h : Skips d.tasks states next) :
    skipPass d next = (next, false) := by
  have hkeep : ∀ task ∈ d.tasks, Scheduler.skipTask (next, false) task = (next, false) := by
    intro task htask
    unfold Scheduler.skipTask
    rw [h.statusOf_eq, h.depsSucceeded_eq]
    refine if_neg ?_
    rintro ⟨hpending, hblocked⟩
    split_ifs at hpending with hskip
    exact hskip ⟨hpending, task, htask, rfl, by simpa using hblocked⟩
  unfold skipPass
  generalize d.tasks = tasks at hkeep
  induction tasks with
  | nil => rfl
  | cons task tasks ih =>
    rw [List.foldl_cons, hkeep task (List.mem_cons_self ..)]
    exact ih fun other hother ↦ hkeep other (List.mem_cons_of_mem _ hother)

end Skips

/-- The passes stop after the first one that changes something, whatever their bound. -/
theorem pendingToSkip_eq (d : WorkflowDef) (states : StatusMap) :
    pendingToSkip d states = (skipPass d states).1 := by
  unfold pendingToSkip skipPasses
  split_ifs
  · cases d.tasks.length with
    | zero => rfl
    | succ fuel => simp [skipPasses, (skips_skipPass d states).skipPass_eq]
  · rfl

/-- The blocked tasks are skipped, and nothing else changes. -/
theorem skips_pendingToSkip (d : WorkflowDef) (states : StatusMap) :
    Skips d.tasks states (pendingToSkip d states) := by
  rw [pendingToSkip_eq]
  exact skips_skipPass d states

/-! ### The fixpoint -/

/-- A run of the loop of `pending_to_skip`, which has no bound: passes up to the first one that
changes nothing. -/
inductive SkipLoop (d : WorkflowDef) : StatusMap → StatusMap → Prop
  | stop {states : StatusMap} (h : (skipPass d states).2 = false) :
      SkipLoop d states (skipPass d states).1
  | again {states next : StatusMap} (h : (skipPass d states).2 = true)
      (hloop : SkipLoop d (skipPass d states).1 next) : SkipLoop d states next

def NoneReadyPending (d : WorkflowDef) (states : StatusMap) : Prop :=
  ∀ name ∈ readyTasks d states, states.statusOf name ≠ .pending

/-- What the skip pass is for: its loop ends, in any order of the tasks at the same map; it skips
the pending tasks with a dependency that did not succeed, and nothing is left for a second time. If
no pending task may be dispatched, before or after, then no task is left pending. -/
structure SkipFixpoint (d : WorkflowDef) (states next : StatusMap) : Prop where
  ends : SkipLoop d states next
  unordered : ∀ d' : WorkflowDef, d'.tasks.Perm d.tasks → pendingToSkip d' states = next
  changed : ∀ name : String, next[name]? ≠ states[name]? →
    name ∈ d.names ∧ states.statusOf name = .pending ∧ next[name]? = some .skipped
  skipped_iff : ∀ task ∈ d.tasks, states.statusOf task.name = .pending →
    (next.statusOf task.name = .skipped ↔ ∃ dep ∈ task.dependsOn, states[dep]? ≠ some .succeeded)
  idempotent : pendingToSkip d next = next
  settled : NoneReadyPending d states ∨ NoneReadyPending d next → ∀ task ∈ d.tasks,
    next.statusOf task.name ∈ [TaskStatus.running, .succeeded, .failed, .skipped]

section Fixpoint

variable {d : WorkflowDef} {states next : StatusMap}

theorem skipLoop_pendingToSkip (d : WorkflowDef) (states : StatusMap) :
    SkipLoop d states (pendingToSkip d states) := by
  rw [pendingToSkip_eq]
  cases hchanged : (skipPass d states).2 with
  | false => exact .stop hchanged
  | true =>
    have hsecond := (skips_skipPass d states).skipPass_eq
    have hstop := SkipLoop.stop (congrArg Prod.snd hsecond)
    rw [hsecond] at hstop
    exact .again hchanged hstop

/-- The map that is left is determined by the tasks that are blocked. -/
theorem Skips.unique {tasks tasks' : List TaskSpec} {next' : StatusMap}
    (h : Skips tasks states next) (h' : Skips tasks' states next') (hperm : tasks'.Perm tasks) :
    next' = next := by
  refine ExtTreeMap.ext_getElem? fun name ↦ ?_
  have hblocked : Blocked tasks' states name ↔ Blocked tasks states name := by
    simp only [Blocked, hperm.mem_iff]
  rw [h name, h' name, if_congr hblocked rfl rfl]

theorem Skips.changed (h : Skips d.tasks states next) (hne : next[name]? ≠ states[name]?) :
    name ∈ d.names ∧ states.statusOf name = .pending ∧ next[name]? = some .skipped := by
  rw [h name] at hne ⊢
  split_ifs at hne ⊢ with hblocked
  · obtain ⟨hpending, task, htask, rfl, -⟩ := hblocked
    exact ⟨List.mem_map_of_mem htask, hpending, rfl⟩
  · exact absurd rfl hne

theorem blocked_iff_of_nodup (hnodup : d.names.Nodup) (htask : task ∈ d.tasks)
    (hpending : states.statusOf task.name = .pending) :
    Blocked d.tasks states task.name ↔ ∃ dep ∈ task.dependsOn, states[dep]? ≠ some .succeeded := by
  have hdeps : depsSucceeded states task = false ↔
      ∃ dep ∈ task.dependsOn, states[dep]? ≠ some .succeeded := by
    rw [← Bool.not_eq_true, depsSucceeded_iff]
    simp only [not_forall, exists_prop, ne_eq]
  rw [← hdeps]
  constructor
  · rintro ⟨-, other, hother, hname, hblocked⟩
    rwa [← List.inj_on_of_nodup_map hnodup hother htask hname]
  · exact fun hblocked ↦ ⟨hpending, task, htask, rfl, hblocked⟩

theorem Skips.statusOf_skipped_iff (h : Skips d.tasks states next)
    (hpending : states.statusOf name = .pending) :
    next.statusOf name = .skipped ↔ Blocked d.tasks states name := by
  rw [h.statusOf_eq, hpending]
  split_ifs with hblocked <;> simp [hblocked]

/-- A task that stays pending may be dispatched, before and after. -/
theorem Skips.ready_of_pending (h : Skips d.tasks states next) (htask : task ∈ d.tasks)
    (hpending : next.statusOf task.name = .pending) :
    ¬ NoneReadyPending d states ∧ ¬ NoneReadyPending d next := by
  have hbefore := h.statusOf_eq task.name
  rw [hpending] at hbefore
  split_ifs at hbefore with hblocked
  have hdeps : depsSucceeded states task = true := by
    by_contra hdeps
    exact hblocked ⟨hbefore.symm, task, htask, rfl, by simpa using hdeps⟩
  refine ⟨fun hnone ↦ hnone task.name ?_ hbefore.symm, fun hnone ↦ hnone task.name ?_ hpending⟩
  · exact mem_readyTasks.mpr ⟨task, htask, by simp [isPicked, ← hbefore, hdeps], rfl⟩
  · exact mem_readyTasks.mpr
      ⟨task, htask, by simp [isPicked, hpending, h.depsSucceeded_eq, hdeps], rfl⟩

/-- Skipping is a fixpoint that does not depend on the order of the tasks. -/
theorem skipFixpoint_of_nodup (d : WorkflowDef) (hnodup : d.names.Nodup) (states : StatusMap) :
    SkipFixpoint d states (pendingToSkip d states) where
  ends := skipLoop_pendingToSkip d states
  unordered d' hperm := (skips_pendingToSkip d states).unique (skips_pendingToSkip d' states) hperm
  changed _ := (skips_pendingToSkip d states).changed
  skipped_iff task htask hpending := by
    rw [(skips_pendingToSkip d states).statusOf_skipped_iff hpending,
      blocked_iff_of_nodup hnodup htask hpending]
  idempotent := by
    rw [pendingToSkip_eq d (pendingToSkip d states), (skips_pendingToSkip d states).skipPass_eq]
  settled hnone task htask := by
    cases hstatus : (pendingToSkip d states).statusOf task.name with
    | pending =>
      obtain ⟨hbefore, hafter⟩ := (skips_pendingToSkip d states).ready_of_pending htask hstatus
      exact absurd hnone (not_or.mpr ⟨hbefore, hafter⟩)
    | running | succeeded | failed | skipped => simp

/-- A chain of three tasks, from its end on. -/
def chainDef : WorkflowDef where
  tenant := "t"
  name := "chain"
  tasks := [{ name := "c", handler := ⟨"h"⟩, dependsOn := ["b"] },
    { name := "b", handler := ⟨"h"⟩, dependsOn := ["a"] }, { name := "a", handler := ⟨"h"⟩ }]

theorem skipFixpoint_of_nodup_chain : chainDef.names.Nodup ∧
    SkipFixpoint chainDef (ExtTreeMap.insert ∅ "a" .failed)
      (pendingToSkip chainDef (ExtTreeMap.insert ∅ "a" .failed)) :=
  ⟨by decide, skipFixpoint_of_nodup chainDef (by decide) _⟩

end Fixpoint

end Runvane.Scheduler
