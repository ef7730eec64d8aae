import Runvane.Engine.DryRun

/-!
# The critical path of a dry run

`engine/dry_run.rs` finds the critical path by offering every task, stage by stage, as the
predecessor of its dependents, and by following the predecessors back from a task at the greatest
distance. A task is visited after all its dependencies, so its distance is final by then: one more
than its height over the tasks without dependencies (`IsBest.dist_eq`). The predecessors then lead
down one stage at a time (`walkBack_chain`), and the path has a task in every stage. The stage of a
task is the number of edges of the longest chain of dependencies that ends in it, and no chain is
longer than the critical path (`simulateWorkflow_chains`).
-/

set_option autoImplicit false

namespace Runvane.Engine

open Domain Library
open Std (ExtTreeMap)

/-- A chain of dependencies: task names, each a dependency of the next. -/
structure DependencyChain (d : WorkflowDef) (chain : List String) : Prop where
  names : ∀ x ∈ chain, x ∈ d.names
  linked : chain.IsChain fun x y ↦ d.DependsOn y x

/-- A chain read from its end goes down along the dependencies. -/
theorem dependencyChain_reverse {d : WorkflowDef} {chain : List String} :
    DependencyChain d chain.reverse ↔ (∀ x ∈ chain, x ∈ d.names) ∧ chain.IsChain d.DependsOn := by
  constructor
  · rintro ⟨hnames, hlinked⟩
    exact ⟨fun x hx ↦ hnames x (List.mem_reverse.mpr hx), List.isChain_reverse.mp hlinked⟩
  · rintro ⟨hnames, hlinked⟩
    exact ⟨fun x hx ↦ hnames x (List.mem_reverse.mp hx), List.isChain_reverse.mpr hlinked⟩

/-! ### Stages as heights -/

variable {x : String} {stage : DryRunStage} {name : String} {before : Option String} {current : ℕ}
  {paths : Paths}

section Heights

variable {d : WorkflowDef} {order : List String}

def stageOf (d : WorkflowDef) (name : String) : ℕ :=
  layerOf ((stagesOf d.tasks).map DryRunStage.tasks) name

/-- The tasks in the order in which they are visited, stage by stage. -/
def visits (d : WorkflowDef) : List String := ((stagesOf d.tasks).map DryRunStage.tasks).flatten

/-- The loop numbers its stages one after the other. -/
theorem getElem?_stageLoop {dependents : NameMap (List String)} {fuel index i : ℕ}
    {remaining : NameMap ℕ} {ready : List String}
    (h : (stageLoop dependents fuel index remaining ready)[i]? = some stage) :
    stage.stageIndex = index + i := by
  induction fuel generalizing index i remaining ready with
  | zero => simp [stageLoop] at h
  | succ fuel ih =>
    unfold stageLoop at h
    split_ifs at h with hempty
    · simp at h
    · cases i with
      | zero =>
        obtain rfl := Option.some.inj h
        rfl
      | succ i =>
        have hrest := ih h
        omega

theorem stageIndex_eq {i : ℕ} (h : (stagesOf d.tasks)[i]? = some stage) : stage.stageIndex = i := by
  simpa using getElem?_stageLoop h

variable (hnodup : d.names.Nodup)
include hnodup

/-- The index of a stage is the height of its tasks. -/
theorem stageOf_eq (hstage : stage ∈ stagesOf d.tasks)
    (hx : x ∈ stage.tasks) : stageOf d x = stage.stageIndex := by
  obtain ⟨i, hi⟩ := List.mem_iff_getElem?.mp hstage
  rw [stageIndex_eq hi]
  refine layerOf_eq ((stages_layers hnodup).nodup_flatten List.nodup_nil) ?_ hx
  rw [List.getElem?_map, hi, Option.map_some]

variable (horder : topoOrder d.tasks = .ok order)
include horder

/-- Every task is in a stage. -/
theorem mem_visits (hx : x ∈ d.names) : x ∈ visits d := by
  obtain ⟨-, -, hdeps⟩ := topoOrder_ok horder
  have hmem := (stages_layers hnodup).mem_flatten order.idxOf ?_ hx
  · simpa [visits] using hmem
  · rintro _ dep - ⟨task, htask, rfl, hdep⟩
    obtain ⟨⟨other, hother, hname⟩, hlt⟩ := hdeps task htask dep hdep
    exact ⟨List.mem_map.mpr ⟨other, hother, hname⟩, hlt⟩

theorem isHeight_stageOf : IsHeight (· ∈ d.names) d.DependsOn (stageOf d) :=
  (stages_layers hnodup).isHeight fun _ hx ↦ mem_visits hnodup horder hx

/-- The stages hold every task once. -/
theorem visits_perm : (visits d).Perm d.names := by
  have hlayers := stages_layers hnodup
  refine (List.perm_ext_iff_of_nodup (hlayers.nodup_flatten List.nodup_nil) hnodup).mpr fun x ↦ ?_
  exact ⟨fun hx ↦ hlayers.node_of_mem hx, fun hx ↦ mem_visits hnodup horder hx⟩

theorem stageOf_lt (hx : x ∈ d.names) : stageOf d x < (stagesOf d.tasks).length := by
  obtain ⟨layer, hlayer, -⟩ := exists_layerOf (mem_visits hnodup horder hx)
  simpa [stageOf] using (List.getElem?_eq_some_iff.mp hlayer).1

theorem length_stagesOf_le : (stagesOf d.tasks).length ≤ d.tasks.length := by
  have hle : _ ≤ (visits d).length := (stages_layers hnodup).length_le
  rw [(visits_perm hnodup horder).length_eq] at hle
  simpa [WorkflowDef.names] using hle

end Heights

/-! ### Distances -/

section Distances

variable {d : WorkflowDef} {height : String → ℕ}

/-- The dependents of a task are the tasks that list it. -/
theorem mem_dependentsOf {child : String} :
    child ∈ (dependentsOf d.tasks)[name]?.getD [] ↔ d.DependsOn child name := by
  rw [← List.count_pos_iff, count_dependentsOf, List.count_pos_iff]
  exact mem_entriesOf

/-- What the entries of a task are once `visited` have been offered to their dependents: the highest
of its dependencies among them, if there is one. -/
inductive IsBest (d : WorkflowDef) (height : String → ℕ) (visited : List String) (x : String) :
    ℕ → Option String → Prop
  | first (hnone : ∀ y ∈ visited, ¬ d.DependsOn x y) : IsBest d height visited x 1 none
  | after {y : String} (hy : y ∈ visited) (hdep : d.DependsOn x y)
      (hmax : ∀ z ∈ visited, d.DependsOn x z → height z ≤ height y) :
      IsBest d height visited x (height y + 2) (some y)

/-- The entries of a task whose dependencies have all been visited are final. -/
theorem IsBest.dist_eq (hheight : IsHeight (· ∈ d.names) d.DependsOn height)
    {visited : List String} (hx : x ∈ d.names) (hall : ∀ y, d.DependsOn x y → y ∈ visited)
    {dist : ℕ} (h : IsBest d height visited x dist before) : dist = height x + 1 := by
  cases h with
  | first hnone =>
    cases hn : height x with
    | zero => rfl
    | succ n =>
      obtain ⟨y, hdep, -⟩ := hheight.exists_eq x n hx hn
      exact absurd hdep (hnone y (hall y hdep))
  | @after y hy hdep hmax =>
    have hlt := (hheight.lt x y hx hdep).2
    obtain ⟨n, hn⟩ := Nat.exists_eq_succ_of_ne_zero (Nat.ne_zero_of_lt hlt)
    obtain ⟨z, hz, hzn⟩ := hheight.exists_eq x n hx hn
    have hle := hmax z (hall z hz) hz
    omega

/-- The distance and the predecessor of a task. -/
def Paths.entry (paths : Paths) (x : String) : Option ℕ × Option (Option String) :=
  (paths.dist[x]?, paths.prev[x]?)

/-- The distances and predecessors once `visited` have been offered to their dependents. -/
structure Relaxed (d : WorkflowDef) (height : String → ℕ) (visited : List String)
    (paths : Paths) : Prop where
  unknown : ∀ x, x ∉ d.names → paths.dist[x]? = none
  best : ∀ x ∈ d.names, ∃ dist before, paths.entry x = (some dist, some before) ∧
    IsBest d height visited x dist before

/-- An offer changes the entry of one task, to the better. -/
theorem Paths.entry_relax {dist : ℕ} (hentry : paths.entry x = (some dist, some before))
    (child : String) :
    (paths.relax name current child).entry x =
      if child = x ∧ dist < current + 1 then (some (current + 1), some (some name))
      else (some dist, some before) := by
  obtain ⟨hdist, hprev⟩ := Prod.mk.inj hentry
  by_cases hchild : child = x
  · subst hchild
    unfold Paths.relax Paths.entry
    rw [hdist]
    by_cases hlt : dist < current + 1
    · simp [hlt]
    · simp [hlt, hdist, hprev]
  · rw [if_neg fun h ↦ hchild h.1, ← hentry]
    unfold Paths.relax
    split
    · rfl
    · split_ifs
      · simp [Paths.entry, ExtTreeMap.getElem?_insert, hchild]
      · rfl

/-- Offers to the tasks of a list, which may name a task more than once. -/
theorem Paths.entry_foldl_relax {dist : ℕ} (hentry : paths.entry x = (some dist, some before))
    (children : List String) :
    (children.foldl (Paths.relax name current) paths).entry x =
      if x ∈ children ∧ dist < current + 1 then (some (current + 1), some (some name))
      else (some dist, some before) := by
  induction children generalizing paths dist before with
  | nil => simpa using hentry
  | cons child children ih =>
    have hstep := @Paths.entry_relax x name before current paths dist hentry child
    rw [List.foldl_cons]
    by_cases hbetter : child = x ∧ dist < current + 1
    · rw [if_pos hbetter] at hstep
      rw [ih hstep, if_neg fun h ↦ Nat.lt_irrefl _ h.2,
        if_pos ⟨List.mem_cons.mpr (.inl hbetter.1.symm), hbetter.2⟩]
    · rw [if_neg hbetter] at hstep
      rw [ih hstep]
      refine if_congr ?_ rfl rfl
      rw [List.mem_cons]
      constructor
      · exact fun h ↦ ⟨.inr h.1, h.2⟩
      · rintro ⟨hx | hx, hlt⟩
        · exact absurd ⟨hx.symm, hlt⟩ hbetter
        · exact ⟨hx, hlt⟩

/-- Offers give no task a distance that had none. -/
theorem Paths.dist_foldl_relax (hnone : paths.dist[x]? = none) (children : List String) :
    (children.foldl (Paths.relax name current) paths).dist[x]? = none := by
  induction children generalizing paths with
  | nil => exact hnone
  | cons child children ih =>
    refine ih ?_
    unfold Paths.relax
    split
    · exact hnone
    · next dist hdist =>
      split_ifs
      · have hne : child ≠ x := by
          rintro rfl
          rw [hnone] at hdist
          cases hdist
        simpa [ExtTreeMap.getElem?_insert, hne] using hnone
      · exact hnone

/-- One visit, after those of all dependencies. -/
theorem Relaxed.visit (hheight : IsHeight (· ∈ d.names) d.DependsOn height)
    {visited : List String} (h : Relaxed d height visited paths) {t : String} (ht : t ∈ d.names)
    (hall : ∀ y, d.DependsOn t y → y ∈ visited) :
    Relaxed d height (visited ++ [t]) (paths.visit (dependentsOf d.tasks) t) := by
  have hcurrent : paths.dist[t]?.getD 1 = height t + 1 := by
    obtain ⟨dist, before, hentry, hbest⟩ := h.best t ht
    rw [(Prod.mk.inj hentry).1, Option.getD_some, hbest.dist_eq hheight ht hall]
  unfold Paths.visit
  rw [hcurrent]
  refine ⟨fun x hx ↦ Paths.dist_foldl_relax (h.unknown x hx) _, fun x hx ↦ ?_⟩
  obtain ⟨dist, before, hentry, hbest⟩ := h.best x hx
  rw [Paths.entry_foldl_relax hentry]
  by_cases hdep : d.DependsOn x t
  · by_cases hlt : dist < height t + 1 + 1
    · -- the visited task is higher than the dependencies before it
      refine ⟨_, _, if_pos ⟨mem_dependentsOf.mpr hdep, hlt⟩, .after (by simp) hdep ?_⟩
      intro z hz hzdep
      rcases List.mem_append.mp hz with hz | hz
      · cases hbest with
        | first hnone => exact absurd hzdep (hnone z hz)
        | after _ _ hmax =>
          have hle := hmax z hz hzdep
          omega
      · rw [List.mem_singleton.mp hz]
    · refine ⟨dist, before, if_neg fun hboth ↦ hlt hboth.2, ?_⟩
      cases hbest with
      | first hnone => omega
      | after hy hydep hmax =>
        refine .after (List.mem_append_left _ hy) hydep fun z hz hzdep ↦ ?_
        rcases List.mem_append.mp hz with hz | hz
        · exact hmax z hz hzdep
        · rw [List.mem_singleton.mp hz]
          omega
  · refine ⟨dist, before, if_neg fun hboth ↦ hdep (mem_dependentsOf.mp hboth.1), ?_⟩
    cases hbest with
    | first hnone =>
      refine .first fun y hy hydep ↦ ?_
      rcases List.mem_append.mp hy with hy | hy
      · exact hnone y hy hydep
      · exact hdep (List.mem_singleton.mp hy ▸ hydep)
    | after hy hydep hmax =>
      refine .after (List.mem_append_left _ hy) hydep fun z hz hzdep ↦ ?_
      rcases List.mem_append.mp hz with hz | hz
      · exact hmax z hz hzdep
      · exact absurd (List.mem_singleton.mp hz ▸ hzdep) hdep

/-- The paths before the first visit. -/
def startPaths (tasks : List TaskSpec) : Paths :=
  tasks.foldl (fun paths task ↦ ⟨paths.dist.insert task.name 1, paths.prev.insert task.name none⟩)
    ⟨∅, ∅⟩

/-- Before the first visit every task is at distance one. -/
theorem relaxed_start (d : WorkflowDef) (height : String → ℕ) :
    Relaxed d height [] (startPaths d.tasks) := by
  have hentry : ∀ (tasks : List TaskSpec) (x : String), (startPaths tasks).entry x =
      if x ∈ tasks.map TaskSpec.name then (some 1, some none) else (none, none) := by
    intro tasks x
    induction tasks using List.reverseRecOn with
    | nil => simp [Paths.entry, startPaths]
    | append_singleton tasks task ih =>
      rw [startPaths, List.foldl_append, List.foldl_cons, List.foldl_nil]
      by_cases hname : task.name = x
      · simp [Paths.entry, hname]
      · simp only [Paths.entry, ExtTreeMap.getElem?_insert, Std.compare_eq_iff_eq, hname,
          if_false, List.map_append, List.mem_append, List.map_cons, List.map_nil,
          List.mem_singleton, Ne.symm hname, or_false]
        exact ih
  refine ⟨fun x hx ↦ ?_, fun x hx ↦ ?_⟩
  · exact (Prod.mk.inj ((hentry d.tasks x).trans (if_neg hx))).1
  · exact ⟨1, none, (hentry d.tasks x).trans (if_pos hx), .first (by simp)⟩

/-- The visits of all stages. -/
theorem relaxed_longestPaths {order : List String} (hnodup : d.names.Nodup)
    (horder : topoOrder d.tasks = .ok order) :
    Relaxed d (stageOf d) (visits d) (longestPaths d.tasks (stagesOf d.tasks)) := by
  have hlayers := stages_layers hnodup
  -- every task is visited after its dependencies, which stand before it
  have hvisits : ∀ front back, visits d = front ++ back → Relaxed d (stageOf d) front
      (front.foldl (Paths.visit (dependentsOf d.tasks)) (startPaths d.tasks)) := by
    intro front
    induction front using List.reverseRecOn with
    | nil => exact fun _ _ ↦ relaxed_start d (stageOf d)
    | append_singleton front t ih =>
      intro back hsplit
      rw [List.append_assoc] at hsplit
      rw [List.foldl_append, List.foldl_cons, List.foldl_nil]
      refine (ih _ hsplit).visit (isHeight_stageOf hnodup horder) ?_ fun y hy ↦ ?_
      · exact hlayers.node_of_mem (show t ∈ visits d by simp [hsplit])
      · simpa using hlayers.needs_front hsplit hy
  have hall := hvisits _ [] (List.append_nil _).symm
  rwa [visits, ← List.flatMap_def] at hall ⊢

end Distances

/-! ### The path -/

section Path

variable {d : WorkflowDef} {height : String → ℕ}

/-- The path back goes down along the dependencies to a task that has none. -/
theorem walkBack_chain {prev : NameMap (Option String)}
    (hheight : IsHeight (· ∈ d.names) d.DependsOn height)
    (hprev : ∀ x ∈ d.names, (prev[x]? = some none ∧ height x = 0) ∨
      ∃ y, prev[x]? = some (some y) ∧ d.DependsOn x y ∧ height x = height y + 1) {fuel : ℕ}
    (hx : x ∈ d.names) (hfuel : height x < fuel) :
    ∃ rest, walkBack prev fuel x = x :: rest ∧ rest.length = height x ∧
      (∀ y ∈ rest, y ∈ d.names) ∧ (x :: rest).IsChain d.DependsOn := by
  induction fuel generalizing x with
  | zero => exact absurd hfuel (Nat.not_lt_zero _)
  | succ fuel ih =>
    unfold walkBack
    rcases hprev x hx with ⟨hnone, hzero⟩ | ⟨y, hsome, hdep, hstep⟩
    · refine ⟨[], by rw [hnone, Option.getD_some], hzero.symm, by simp, ?_⟩
      exact List.isChain_singleton x
    · have hy := (hheight.lt x y hx hdep).1
      obtain ⟨rest, hrest, hlength, hnames, hchain⟩ := ih hy (by omega)
      refine ⟨y :: rest, by simp [hsome, hrest], by simp [hlength, hstep], ?_, ?_⟩
      · exact List.forall_mem_cons.mpr ⟨hy, hnames⟩
      · exact List.isChain_cons_cons.mpr ⟨hdep, hchain⟩

/-- The choice of the first entry at the greatest distance, from a first choice on. -/
theorem foldl_farther (entries : List (String × ℕ)) (start : ℕ × String) :
    let best := entries.foldl
      (fun best entry ↦ if best.1 < entry.2 then (entry.2, entry.1) else best) start
    start.1 ≤ best.1 ∧ (∀ entry ∈ entries, entry.2 ≤ best.1) ∧
      (best = start ∨ (best.2, best.1) ∈ entries) := by
  induction entries generalizing start with
  | nil => exact ⟨Nat.le_refl _, by simp, .inl rfl⟩
  | cons entry entries ih =>
    obtain ⟨hstart, hle, hmem⟩ := ih (if start.1 < entry.2 then (entry.2, entry.1) else start)
    rw [List.foldl_cons]
    by_cases hlt : start.1 < entry.2
    · rw [if_pos hlt] at hstart hle hmem ⊢
      refine ⟨(Nat.le_of_lt hlt).trans hstart, List.forall_mem_cons.mpr ⟨hstart, hle⟩, .inr ?_⟩
      rcases hmem with hmem | hmem
      · rw [hmem]
        exact List.mem_cons_self
      · exact List.mem_cons_of_mem _ hmem
    · rw [if_neg hlt] at hstart hle hmem ⊢
      refine ⟨hstart, List.forall_mem_cons.mpr ⟨(Nat.le_of_not_lt hlt).trans hstart, hle⟩, ?_⟩
      exact hmem.imp_right (List.mem_cons_of_mem _)

/-- The end of the path is an entry at the greatest distance. -/
theorem endTask_max (tasks : List TaskSpec) {dist : NameMap ℕ} {n : ℕ} (hx : dist[x]? = some n)
    (hpos : 0 < n) :
    ∃ m, dist[endTask tasks dist]? = some m ∧
      ∀ (y : String) (k : ℕ), dist[y]? = some k → k ≤ m := by
  obtain ⟨-, hle, hmem⟩ :=
    foldl_farther dist.toList (0, (tasks.head?.map TaskSpec.name).getD "")
  have hbound : ∀ (y : String) (k : ℕ), dist[y]? = some k → k ≤ _ := fun y k hy ↦
    hle (y, k) (ExtTreeMap.mem_toList_iff_getElem?_eq_some.mpr hy)
  refine ⟨_, ?_, hbound⟩
  rcases hmem with hmem | hmem
  · have hn := hbound x n hx
    rw [hmem] at hn
    exact absurd hn (Nat.not_le_of_lt hpos)
  · exact ExtTreeMap.mem_toList_iff_getElem?_eq_some.mp hmem

/-- The critical path goes down from a task of the greatest height. -/
theorem criticalPathOf_chain {order : List String} (hne : d.tasks ≠ []) (hnodup : d.names.Nodup)
    (horder : topoOrder d.tasks = .ok order) :
    ∃ last ∈ d.names, (∀ x ∈ d.names, stageOf d x ≤ stageOf d last) ∧
      DependencyChain d (criticalPathOf d.tasks (stagesOf d.tasks)) ∧
      (criticalPathOf d.tasks (stagesOf d.tasks)).length = stageOf d last + 1 := by
  have hheight := isHeight_stageOf hnodup horder
  have hrelaxed := relaxed_longestPaths hnodup horder
  set paths := longestPaths d.tasks (stagesOf d.tasks) with hpaths
  have hvisited : ∀ x ∈ d.names, ∀ y, d.DependsOn x y → y ∈ visits d := fun x hx y hy ↦
    mem_visits hnodup horder (hheight.lt x y hx hy).1
  have hdist : ∀ x ∈ d.names, paths.dist[x]? = some (stageOf d x + 1) := by
    intro x hx
    obtain ⟨dist, before, hentry, hbest⟩ := hrelaxed.best x hx
    rw [(Prod.mk.inj hentry).1, hbest.dist_eq hheight hx (hvisited x hx)]
  have hprev : ∀ x ∈ d.names, (paths.prev[x]? = some none ∧ stageOf d x = 0) ∨
      ∃ y, paths.prev[x]? = some (some y) ∧ d.DependsOn x y ∧ stageOf d x = stageOf d y + 1 := by
    intro x hx
    obtain ⟨dist, before, hentry, hbest⟩ := hrelaxed.best x hx
    have heq := hbest.dist_eq hheight hx (hvisited x hx)
    cases hbest with
    | first => exact .inl ⟨(Prod.mk.inj hentry).2, by omega⟩
    | @after y _ hdep => exact .inr ⟨y, (Prod.mk.inj hentry).2, hdep, by omega⟩
  obtain ⟨task, htask⟩ := List.exists_mem_of_ne_nil d.tasks hne
  obtain ⟨m, hlast, hmax⟩ := endTask_max d.tasks
    (hdist task.name (List.mem_map_of_mem htask)) (Nat.succ_pos _)
  have hmem : endTask d.tasks paths.dist ∈ d.names := by
    by_contra hout
    rw [hrelaxed.unknown _ hout] at hlast
    cases hlast
  obtain rfl : stageOf d (endTask d.tasks paths.dist) + 1 = m :=
    Option.some.inj ((hdist _ hmem).symm.trans hlast)
  have hfuel : stageOf d (endTask d.tasks paths.dist) < d.tasks.length + 1 := by
    have hlt := stageOf_lt hnodup horder hmem
    have hle := length_stagesOf_le hnodup horder
    omega
  obtain ⟨rest, hwalk, hlength, hnames, hchain⟩ := walkBack_chain hheight hprev hmem hfuel
  have hpath : criticalPathOf d.tasks (stagesOf d.tasks) =
      (endTask d.tasks paths.dist :: rest).reverse := by
    unfold criticalPathOf
    rw [← hwalk, ← hpaths]
  refine ⟨_, hmem, fun x hx ↦ Nat.le_of_succ_le_succ (hmax x _ (hdist x hx)), ?_, ?_⟩
  · rw [hpath, dependencyChain_reverse]
    exact ⟨List.forall_mem_cons.mpr ⟨hmem, hnames⟩, hchain⟩
  · rw [hpath, List.length_reverse, List.length_cons, hlength]

end Path

/-! ### Chains of dependencies -/

section Chains

variable {d : WorkflowDef} {order : List String}

/-- A chain has at most one task more than the height of its last one. -/
theorem DependencyChain.length_le {height : String → ℕ}
    (hheight : IsHeight (· ∈ d.names) d.DependsOn height) {chain : List String}
    (h : DependencyChain d chain) (hlast : chain.getLast? = some x) :
    x ∈ d.names ∧ chain.length ≤ height x + 1 := by
  have hx : x ∈ d.names := h.names x (List.mem_of_getLast? hlast)
  obtain ⟨front, rfl⟩ := List.getLast?_eq_some_iff.mp hlast
  have hdown : (x :: front.reverse).IsChain d.DependsOn :=
    (dependencyChain_reverse.mp (by simpa using h)).2
  have hle := hheight.length_chain_le hx hdown
  rw [List.length_reverse] at hle
  refine ⟨hx, ?_⟩
  rw [List.length_append, List.length_singleton]
  omega

/-- Some chain that ends in a task has one task more than its height. -/
theorem exists_dependencyChain {height : String → ℕ}
    (hheight : IsHeight (· ∈ d.names) d.DependsOn height) (hx : x ∈ d.names) :
    ∃ chain, DependencyChain d chain ∧ chain.getLast? = some x ∧
      chain.length = height x + 1 := by
  obtain ⟨rest, hchain, hlength, hnames⟩ := hheight.exists_chain hx
  refine ⟨(x :: rest).reverse, dependencyChain_reverse.mpr ⟨?_, hchain⟩, by simp, by simp [hlength]⟩
  exact List.forall_mem_cons.mpr ⟨hx, hnames⟩

/-- There are as many stages as heights. -/
theorem length_stagesOf (hnodup : d.names.Nodup) (horder : topoOrder d.tasks = .ok order)
    {last : String} (hlast : last ∈ d.names) (hmax : ∀ x ∈ d.names, stageOf d x ≤ stageOf d last) :
    (stagesOf d.tasks).length = stageOf d last + 1 := by
  have hlayers := stages_layers hnodup
  have hlt := stageOf_lt hnodup horder hlast
  -- a task of the last stage is not higher
  have hend : (stagesOf d.tasks).length - 1 < (stagesOf d.tasks).length := by omega
  have hstage := List.getElem_mem hend
  obtain ⟨x, hx⟩ := List.exists_mem_of_ne_nil _ (hlayers.ne_nil (List.mem_map_of_mem hstage))
  have hname : x ∈ d.names :=
    hlayers.node_of_mem (List.mem_flatten.mpr ⟨_, List.mem_map_of_mem hstage, hx⟩)
  have hle := hmax x hname
  rw [stageOf_eq hnodup hstage hx, stageIndex_eq (List.getElem?_eq_getElem hend)] at hle
  omega

/-- The stages of a dry run partition the tasks by the longest chains that end in them, and its
critical path is a longest chain of all. -/
theorem simulateWorkflow_chains (hne : d.tasks ≠ []) (hnodup : d.names.Nodup)
    (horder : topoOrder d.tasks = .ok order) :
    ∃ report, simulateWorkflow d = .ok report ∧
      (report.stages.map DryRunStage.tasks).flatten.Perm d.names ∧
      (∀ stage ∈ report.stages, stage.tasks ≠ []) ∧
      (∀ (i : ℕ) (stage : DryRunStage), report.stages[i]? = some stage → stage.stageIndex = i) ∧
      (∀ stage ∈ report.stages, ∀ x ∈ stage.tasks,
        IsGreatest {edges | ∃ chain, DependencyChain d chain ∧ chain.getLast? = some x ∧
          chain.length = edges + 1} stage.stageIndex) ∧
      DependencyChain d report.criticalPath ∧
      report.criticalPath.length = report.stages.length ∧
      IsGreatest {length | ∃ chain, DependencyChain d chain ∧ chain.length = length}
        report.criticalPath.length := by
  obtain ⟨report, hreport, hstages, hpath⟩ := simulateWorkflow_ok horder
  have hheight := isHeight_stageOf hnodup horder
  have hlayers := stages_layers hnodup
  obtain ⟨last, hlast, hmax, hchain, hlength⟩ := criticalPathOf_chain hne hnodup horder
  refine ⟨report, hreport, ?_⟩
  rw [hstages, hpath]
  refine ⟨visits_perm hnodup horder, ?_, fun _ _ hi ↦ stageIndex_eq hi, ?_, hchain, ?_,
    ⟨_, hchain, rfl⟩, ?_⟩
  · exact fun stage hstage ↦ hlayers.ne_nil (List.mem_map_of_mem hstage)
  · intro stage hstage x hx
    have hname : x ∈ d.names :=
      hlayers.node_of_mem (List.mem_flatten.mpr ⟨_, List.mem_map_of_mem hstage, hx⟩)
    rw [← stageOf_eq hnodup hstage hx]
    refine ⟨exists_dependencyChain hheight hname, ?_⟩
    rintro edges ⟨chain, hchain, hend, hedges⟩
    have hle := (hchain.length_le hheight hend).2
    omega
  · rw [hlength, length_stagesOf hnodup horder hlast hmax]
  · rintro length ⟨chain, hother, rfl⟩
    cases hend : chain.getLast? with
    | none => simp [List.getLast?_eq_none_iff.mp hend]
    | some x =>
      obtain ⟨hx, hle⟩ := hother.length_le hheight hend
      have hle' := hmax x hx
      omega

/-- A workflow of three tasks in a row, one of which lists its dependency twice. -/
def repeatedDef : WorkflowDef where
  tenant := "acme"
  name := "nightly"
  tasks := [
    { name := "report", handler := ⟨"h"⟩, dependsOn := ["check", "load"] },
    { name := "load", handler := ⟨"h"⟩ },
    { name := "check", handler := ⟨"h"⟩, dependsOn := ["load", "load"] }]

theorem topoOrder_repeatedDef : topoOrder repeatedDef.tasks = .ok ["load", "check", "report"] := by
  decide

theorem simulateWorkflow_repeatedDef : repeatedDef.tasks ≠ [] ∧ repeatedDef.names.Nodup ∧
    ∃ report, simulateWorkflow repeatedDef = .ok report ∧
      DependencyChain repeatedDef report.criticalPath ∧
      report.criticalPath.length = report.stages.length := by
  have hne : repeatedDef.tasks ≠ [] := List.cons_ne_nil _ _
  have hnodup : repeatedDef.names.Nodup := by decide
  obtain ⟨report, hreport, -, -, -, -, hchain, hlength, -⟩ :=
    simulateWorkflow_chains hne hnodup topoOrder_repeatedDef
  exact ⟨hne, hnodup, report, hreport, hchain, hlength⟩

end Chains

end Runvane.Engine
