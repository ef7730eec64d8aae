import Mathlib

/-!
# Searching a graph with a stack

A search for a target, from a start along the edges of a graph, that keeps the nodes seen and a
stack of nodes still to be looked at. `Searching` is what such a search maintains, whatever the
order of its stack: a node on the stack is reachable, and a node that was seen and is no longer on
the stack has had all its edges looked at. When an edge leads to the target, the target is reachable
(`Searching.found`); when the stack is empty, it is not (`Searching.exhausted`). The graph may have
cycles. A search ends because a node is put on the stack only when it is first seen
(`unseen_insert_lt`).
-/

set_option autoImplicit false

namespace Runvane.Library

open Relation (TransGen ReflTransGen)

variable {α : Type} {edge : α → α → Prop} {start target : α}

/-- The state of a search that has not met the target. -/
structure Searching (edge : α → α → Prop) (start target : α) (seen : Set α) (stack : List α) :
    Prop where
  reachable : ∀ x ∈ stack, ReflTransGen edge start x
  expanded : ∀ x, x = start ∨ x ∈ seen → x ∈ stack ∨ ∀ y, edge x y → y ∈ seen ∧ y ≠ target

namespace Searching

variable {seen seen' : Set α} {stack pushed : List α} {x : α}

/-- A search starts with nothing seen. -/
theorem init : Searching edge start target ∅ [start] where
  reachable y hy := by rw [List.mem_singleton.mp hy]
  expanded y hy := .inl (by simpa using hy)

/-- A node is taken from the stack, and its edges are looked at. -/
theorem expand (h : Searching edge start target seen (x :: stack))
    (hseen : ∀ y, y ∈ seen' ↔ y ∈ seen ∨ edge x y) (htarget : ¬ edge x target)
    (hpushed : ∀ y ∈ pushed, edge x y) (hnew : ∀ y ∈ seen', y ∈ seen ∨ y ∈ pushed) :
    Searching edge start target seen' (pushed ++ stack) := by
  have hx : ∀ y, edge x y → y ∈ seen' ∧ y ≠ target := by
    intro y hy
    refine ⟨(hseen y).mpr (.inr hy), ?_⟩
    rintro rfl
    exact htarget hy
  have hold : ∀ y, y = start ∨ y ∈ seen →
      y ∈ pushed ++ stack ∨ ∀ z, edge y z → z ∈ seen' ∧ z ≠ target := by
    intro y hy
    rcases h.expanded y hy with hmem | hedges
    · rcases List.mem_cons.mp hmem with rfl | hmem
      · exact .inr hx
      · exact .inl (List.mem_append_right _ hmem)
    · exact .inr fun z hz ↦ ⟨(hseen z).mpr (.inl (hedges z hz).1), (hedges z hz).2⟩
  constructor
  · intro y hy
    rcases List.mem_append.mp hy with hy | hy
    · exact (h.reachable x List.mem_cons_self).tail (hpushed y hy)
    · exact h.reachable y (List.mem_cons_of_mem _ hy)
  · rintro y (hy | hy)
    · exact hold y (.inl hy)
    · rcases hnew y hy with hy | hy
      · exact hold y (.inr hy)
      · exact .inl (List.mem_append_left _ hy)

/-- An edge of a node on the stack leads to the target. -/
theorem found (h : Searching edge start target seen stack) (hx : x ∈ stack)
    (hedge : edge x target) : TransGen edge start target :=
  .tail' (h.reachable x hx) hedge

/-- Nothing is left to be looked at. -/
theorem exhausted (h : Searching edge start target seen []) : ¬ TransGen edge start target := by
  have hclosed : ∀ x, x = start ∨ x ∈ seen → ∀ y, edge x y → y ∈ seen ∧ y ≠ target :=
    fun x hx ↦ (h.expanded x hx).resolve_left List.not_mem_nil
  have hseen : ∀ y, TransGen edge start y → y ∈ seen ∧ y ≠ target := by
    intro y hy
    induction hy with
    | single hedge => exact hclosed start (.inl rfl) _ hedge
    | tail _ hedge ih => exact hclosed _ (.inr ih.1) _ hedge
  exact fun htarget ↦ (hseen target htarget).2 rfl

end Searching

/-- Seeing one more node leaves fewer of the candidates unseen. -/
theorem unseen_insert_lt (candidates : List α) (seen seen' : α → Bool) {x : α}
    (hx : x ∈ candidates) (hfresh : seen x = false) (hseen : seen' x = true)
    (hmono : ∀ y, seen y = true → seen' y = true) :
    candidates.countP (fun y ↦ !seen' y) < candidates.countP (fun y ↦ !seen y) := by
  have hsplit : candidates.countP (fun y ↦ !seen y) =
      (candidates.filter fun y ↦ !seen y).length := List.countP_eq_length_filter
  have hsub : candidates.countP (fun y ↦ !seen' y) =
      ((candidates.filter fun y ↦ !seen y).filter fun y ↦ !seen' y).length := by
    rw [List.countP_eq_length_filter, List.filter_filter]
    congr 1
    refine List.filter_congr fun y _ ↦ ?_
    cases hy : seen y with
    | false => simp
    | true => simp [hmono y hy]
  rw [hsplit, hsub]
  refine List.length_filter_lt_length_iff_exists.mpr ⟨x, ?_, by simp [hseen]⟩
  exact List.mem_filter.mpr ⟨hx, by simp [hfresh]⟩

end Runvane.Library
