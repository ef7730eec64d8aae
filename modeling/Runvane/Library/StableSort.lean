import Mathlib

/-!
# Stable sorting and pages

A list is sorted stably along a total preorder when it is a sorted permutation in which tied
elements keep their order. There is one such list, so it can be spoken of without the algorithm that
sorts (`StablySorted.unique`); insertion sort computes it. Reading a list page by page gives the
list.
-/

set_option autoImplicit false

namespace Runvane.Library

variable {α : Type*}

section StableSort

variable (r : α → α → Prop) [DecidableRel r]

/-- The second list is the first, sorted along the relation, with ties in their old order. -/
structure StablySorted (xs ys : List α) : Prop where
  perm : ys.Perm xs
  sorted : ys.Pairwise r
  stable : ∀ a, ys.filter (fun b ↦ r a b ∧ r b a) = xs.filter (fun b ↦ r a b ∧ r b a)

variable {r}

/-- Sorting moves no element past one that it is tied with. -/
theorem stablySorted_insertionSort [Std.Total r] [IsTrans α r] (xs : List α) :
    StablySorted r xs (xs.insertionSort r) where
  perm := List.perm_insertionSort r xs
  sorted := List.pairwise_insertionSort r xs
  stable a := by
    have hties : (xs.filter fun b ↦ r a b ∧ r b a).Pairwise r := by
      refine List.pairwise_of_forall_mem_list fun b hb c hc ↦ ?_
      have hb := of_decide_eq_true (List.mem_filter.mp hb).2
      have hc := of_decide_eq_true (List.mem_filter.mp hc).2
      exact IsTrans.trans b a c hb.2 hc.1
    -- the ties are a sorted sublist of the input, hence a sublist of the ties of the result
    have hsub : (xs.filter fun b ↦ r a b ∧ r b a).Sublist
        ((xs.insertionSort r).filter fun b ↦ r a b ∧ r b a) := by
      have h := (List.sublist_insertionSort hties List.filter_sublist).filter
        fun b ↦ decide (r a b ∧ r b a)
      simpa only [List.filter_filter, Bool.and_self] using h
    exact (hsub.eq_of_length
      ((List.perm_insertionSort r xs).filter _).length_eq.symm).symm

/-- A list is the only stable sorting of itself when it is sorted. -/
theorem StablySorted.eq_of_pairwise [Std.Refl r] {ys zs : List α} (h : StablySorted r zs ys)
    (hzs : zs.Pairwise r) : ys = zs := by
  induction ys generalizing zs with
  | nil => exact h.perm.nil_eq
  | cons y ys ih =>
    cases zs with
    | nil => exact absurd h.perm.length_eq (by simp)
    | cons z zs =>
      -- each head is at most the other, so that both lead the same class of ties
      have hyz : r y z := by
        rcases List.mem_cons.mp (h.perm.mem_iff.mpr List.mem_cons_self) with rfl | hmem
        · exact Std.Refl.refl _
        · exact (List.pairwise_cons.mp h.sorted).1 z hmem
      have hzy : r z y := by
        rcases List.mem_cons.mp (h.perm.mem_iff.mp List.mem_cons_self) with rfl | hmem
        · exact Std.Refl.refl _
        · exact (List.pairwise_cons.mp hzs).1 y hmem
      obtain rfl : y = z := by
        have hstable := h.stable y
        rw [List.filter_cons_of_pos (by simp [Std.Refl.refl (r := r)]),
          List.filter_cons_of_pos (by simp [hyz, hzy])] at hstable
        exact (List.cons.inj hstable).1
      have htail : StablySorted r zs ys :=
        { perm := h.perm.cons_inv
          sorted := (List.pairwise_cons.mp h.sorted).2
          stable := fun a ↦ by
            have hstable := h.stable a
            by_cases ha : r a y ∧ r y a
            · rw [List.filter_cons_of_pos (by simpa using ha),
                List.filter_cons_of_pos (by simpa using ha)] at hstable
              exact (List.cons.inj hstable).2
            · rwa [List.filter_cons_of_neg (by simpa using ha),
                List.filter_cons_of_neg (by simpa using ha)] at hstable }
      rw [ih htail (List.pairwise_cons.mp hzs).2]

/-- Two lists that sort the same list stably are equal. -/
theorem StablySorted.unique [Std.Refl r] {xs ys zs : List α} (hys : StablySorted r xs ys)
    (hzs : StablySorted r xs zs) : ys = zs := by
  have h : StablySorted r zs ys :=
    { perm := hys.perm.trans hzs.perm.symm
      sorted := hys.sorted
      stable := fun a ↦ (hys.stable a).trans (hzs.stable a).symm }
  exact h.eq_of_pairwise hzs.sorted

end StableSort

/-- The first pages of a list, one after the other, are the beginning of the list. -/
theorem flatMap_pages (xs : List α) (size n : ℕ) :
    (List.range n).flatMap (fun page ↦ (xs.drop (page * size)).take size) =
      xs.take (n * size) := by
  induction n with
  | zero => simp
  | succ n ih =>
    rw [List.range_succ, List.flatMap_append, ih, List.flatMap_singleton, Nat.succ_mul,
      List.take_add]

end Runvane.Library
