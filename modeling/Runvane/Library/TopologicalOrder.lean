import Mathlib

/-!
# Topological orders, and the least of them

The nodes of a graph are a list without repetition, and `needs a b` says that `b` has to come before
`a`. An order that has every node once and after all that it needs is topological (`IsTopological`).
There is one only if the graph has no cycle (`IsTopological.acyclic`), and as long as there is no
cycle some node that is left is ready to be taken (`exists_ready`).

An order that takes the least of the ready nodes each time is the least topological order
(`Greedy.le`): where another order first departs from it, that order takes a ready node too.
-/

set_option autoImplicit false

namespace Runvane.Library

variable {α : Type*}

/-- An order of the nodes in which each stands after all that it needs. -/
structure IsTopological (nodes : List α) (needs : α → α → Prop) (order : List α) : Prop where
  perm : order.Perm nodes
  first : ∀ front a back, order = front ++ a :: back → ∀ b, needs a b → b ∈ front

/-- No node needs itself, not even through others. -/
def Acyclic (needs : α → α → Prop) : Prop := ∀ a, ¬ Relation.TransGen needs a a

/-- The node is still to be taken, and everything it needs has been taken. -/
def Ready (nodes : List α) (needs : α → α → Prop) (taken : List α) (a : α) : Prop :=
  a ∈ nodes ∧ a ∉ taken ∧ ∀ b, needs a b → b ∈ taken

/-- Every node of the order was the least of the ready ones. -/
def Greedy [LE α] (nodes : List α) (needs : α → α → Prop) (order : List α) : Prop :=
  ∀ front a back, order = front ++ a :: back → ∀ b, Ready nodes needs front b → a ≤ b

/-- A property of the elements and what stands before them, of a list that gets one more. -/
theorem forall_split_snoc {holds : List α → α → Prop} {order : List α} {next : α}
    (h : ∀ front a back, order = front ++ a :: back → holds front a) (hnext : holds order next)
    (front : List α) (a : α) (back : List α) (heq : order ++ [next] = front ++ a :: back) :
    holds front a := by
  rcases List.eq_nil_or_concat back with rfl | ⟨back', last, rfl⟩
  · obtain ⟨rfl, hlast⟩ := List.append_inj' heq rfl
    obtain rfl : next = a := by simpa using hlast
    exact hnext
  · have heq' : order ++ [next] = (front ++ a :: back') ++ [last] := by simpa using heq
    exact h front a back' (List.append_inj' heq' rfl).1

section Existence

variable {nodes : List α} {needs : α → α → Prop}

theorem IsTopological.idxOf_lt [DecidableEq α] {order : List α}
    (h : IsTopological nodes needs order) (hnodup : nodes.Nodup) {a b : α} (ha : a ∈ nodes)
    (hab : needs a b) : order.idxOf b < order.idxOf a := by
  obtain ⟨front, back, heq⟩ := List.append_of_mem (h.perm.mem_iff.mpr ha)
  have hb : b ∈ front := h.first front a back heq b hab
  have hout : a ∉ front := by
    intro hin
    have hdistinct : (front ++ a :: back).Nodup := heq ▸ h.perm.nodup_iff.mpr hnodup
    exact (List.nodup_append.mp hdistinct).2.2 a hin a (List.mem_cons_self ..) rfl
  rw [heq, List.idxOf_append_of_mem hb, List.idxOf_append_of_notMem hout]
  have hlt : front.idxOf b < front.length := List.idxOf_lt_length_of_mem hb
  omega

/-- A graph with a topological order has no cycle: positions fall along what is needed. -/
theorem IsTopological.acyclic {order : List α} (h : IsTopological nodes needs order)
    (hnodup : nodes.Nodup) (hnodes : ∀ a b, needs a b → a ∈ nodes) : Acyclic needs := by
  classical
  intro a hcycle
  have hfalls : ∀ {a b : α}, Relation.TransGen needs a b → order.idxOf b < order.idxOf a := by
    intro a b hab
    induction hab with
    | single hab => exact h.idxOf_lt hnodup (hnodes _ _ hab) hab
    | tail _ hbc ih => exact (h.idxOf_lt hnodup (hnodes _ _ hbc) hbc).trans ih
  exact lt_irrefl _ (hfalls hcycle)

/-- Without a cycle a node is ready as long as one is left. -/
theorem exists_ready (hacyclic : Acyclic needs)
    (hclosed : ∀ a b, a ∈ nodes → needs a b → b ∈ nodes) {taken : List α}
    (hleft : ∃ a ∈ nodes, a ∉ taken) : ∃ a, Ready nodes needs taken a := by
  have horder : IsStrictOrder α fun b a ↦ Relation.TransGen needs a b :=
    { irrefl := hacyclic
      trans := fun _ _ _ hab hbc ↦ hbc.trans hab }
  have hfinite : {a | a ∈ nodes ∧ a ∉ taken}.Finite :=
    (List.finite_toSet nodes).subset fun a ha ↦ ha.1
  have hfounded : {a | a ∈ nodes ∧ a ∉ taken}.WellFoundedOn
      fun b a ↦ Relation.TransGen needs a b := hfinite.wellFoundedOn
  obtain ⟨left, hnode, hout⟩ := hleft
  -- A node that is left and below which, along `needs`, none is left.
  obtain ⟨⟨a, ha, hout⟩, -, hleast⟩ :=
    hfounded.has_min Set.univ ⟨⟨left, hnode, hout⟩, trivial⟩
  refine ⟨a, ha, hout, fun b hab ↦ ?_⟩
  by_contra hb
  exact hleast ⟨b, hclosed a b ha hab, hb⟩ trivial (.single hab)

end Existence

section Least

variable [LinearOrder α] {nodes : List α} {needs : α → α → Prop}

/-- The comparison from the point up to which two orders agree. -/
theorem Greedy.le_append {order other : List α} (hgreedy : Greedy nodes needs order)
    (hother : IsTopological nodes needs other) (hnodup : nodes.Nodup) (rest rest' front : List α)
    (hlength : rest.length = rest'.length) (heq : order = front ++ rest)
    (heq' : other = front ++ rest') : rest ≤ rest' := by
  induction rest generalizing rest' front with
  | nil =>
    obtain rfl : rest' = [] := List.length_eq_zero_iff.mp hlength.symm
    exact le_rfl
  | cons a rest ih =>
    obtain ⟨b, rest', rfl⟩ : ∃ b tail, rest' = b :: tail :=
      List.exists_cons_of_length_eq_add_one hlength.symm
    -- The other order took `b` here, so `b` was ready when `a` was taken.
    have hready : Ready nodes needs front b := by
      have hdistinct : (front ++ b :: rest').Nodup := heq' ▸ hother.perm.nodup_iff.mpr hnodup
      refine ⟨hother.perm.mem_iff.mp (by simp [heq']), fun hin ↦ ?_, hother.first _ _ _ heq'⟩
      exact (List.nodup_append.mp hdistinct).2.2 b hin b (List.mem_cons_self ..) rfl
    rcases (hgreedy front a rest heq b hready).lt_or_eq with hlt | rfl
    · exact le_of_lt (List.Lex.rel hlt)
    · have hrest : rest ≤ rest' :=
        ih rest' (front ++ [a]) (by simpa using hlength) (by simp [heq]) (by simp [heq'])
      exact List.cons_le_cons a hrest

/-- An order that takes the least ready node each time is the least topological order. -/
theorem Greedy.le {order other : List α} (hgreedy : Greedy nodes needs order)
    (horder : IsTopological nodes needs order) (hother : IsTopological nodes needs other)
    (hnodup : nodes.Nodup) : order ≤ other :=
  hgreedy.le_append hother hnodup order other []
    ((horder.perm.trans hother.perm.symm).length_eq) rfl rfl

end Least

end Runvane.Library
