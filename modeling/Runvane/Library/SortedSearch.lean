import Mathlib

/-!
# Sorted lists without repetitions, and binary search

A list is sorted, its repetitions are dropped, and values are then looked up by halving the list.
The result of the first two steps is strictly increasing (`pairwise_lt_sortDedup`) and has the same
members (`mem_sortDedup`). The search keeps a window that holds the value if the list does: it
halves the window until one element is left, and compares that (`isSome_binarySearch`). It does not
stop early at an element that is equal.
-/

set_option autoImplicit false

namespace Runvane.Library

variable {α : Type} [LinearOrder α]

/-! ### Sorting and dropping repetitions -/

/-- The list in order, without elements that are equal to the one before. -/
def sortDedup (l : List α) : List α := (l.insertionSort (· ≤ ·)).destutter (· ≠ ·)

theorem mem_destutter'_ne {a x : α} {l : List α} :
    x ∈ l.destutter' (· ≠ ·) a ↔ x = a ∨ x ∈ l := by
  induction l generalizing a with
  | nil => simp
  | cons b l ih =>
    rw [List.destutter'_cons]
    by_cases hne : a ≠ b
    · rw [if_pos hne, List.mem_cons, ih, List.mem_cons]
    · rw [if_neg hne, ih, not_ne_iff.mp hne, List.mem_cons]
      tauto

theorem mem_sortDedup {x : α} {l : List α} : x ∈ sortDedup l ↔ x ∈ l := by
  have hsorted : x ∈ l.insertionSort (· ≤ ·) ↔ x ∈ l := List.mem_insertionSort (· ≤ ·)
  rw [← hsorted]
  unfold sortDedup
  cases l.insertionSort (· ≤ ·) with
  | nil => rfl
  | cons a rest => rw [List.destutter_cons', mem_destutter'_ne, List.mem_cons]

theorem pairwise_lt_sortDedup (l : List α) : (sortDedup l).Pairwise (· < ·) := by
  have hle : (sortDedup l).Pairwise (· ≤ ·) :=
    (List.pairwise_insertionSort (· ≤ ·) l).sublist (List.destutter_sublist _ _)
  have hne : (sortDedup l).IsChain (· ≠ ·) := List.isChain_destutter _ _
  refine List.isChain_iff_pairwise.mp (List.isChain_iff_getElem.mpr fun i hi ↦ ?_)
  exact lt_of_le_of_ne (List.isChain_iff_getElem.mp hle.isChain i hi)
    (List.isChain_iff_getElem.mp hne i hi)

/-! ### Binary search -/

/-- The start of the window of one element that is left when the window of `size` elements from
`base` has been halved. -/
def narrow (x : α) (l : List α) : ℕ → ℕ → ℕ → ℕ
  | 0, base, _ => base
  | fuel + 1, base, size =>
    if 1 < size then
      match l[base + size / 2]? with
      | some y => narrow x l fuel (if x < y then base else base + size / 2) (size - size / 2)
      | none => base
    else base

/-- The index of a value in a sorted list. -/
def binarySearch (l : List α) (x : α) : Option ℕ :=
  let base := narrow x l l.length 0 l.length
  if l[base]? = some x then some base else none

/-- The window shrinks to the value if it holds it. -/
theorem getElem?_narrow {x : α} {l : List α} (hsorted : l.Pairwise (· ≤ ·)) {fuel base size : ℕ}
    (hfuel : size ≤ fuel) (hwindow : base + size ≤ l.length)
    (hx : ∃ i, base ≤ i ∧ i < base + size ∧ l[i]? = some x) :
    l[narrow x l fuel base size]? = some x := by
  have hle : ∀ {i j : ℕ} {a b : α}, i ≤ j → l[i]? = some a → l[j]? = some b → a ≤ b := by
    intro i j a b hij hi hj
    obtain ⟨hilt, rfl⟩ := List.getElem?_eq_some_iff.mp hi
    obtain ⟨hjlt, rfl⟩ := List.getElem?_eq_some_iff.mp hj
    rcases Nat.eq_or_lt_of_le hij with rfl | hlt
    · exact le_rfl
    · exact List.pairwise_iff_getElem.mp hsorted i j hilt hjlt hlt
  induction fuel generalizing base size with
  | zero =>
    obtain ⟨i, hbase, hend, -⟩ := hx
    omega
  | succ fuel ih =>
    obtain ⟨i, hbase, hend, hi⟩ := hx
    unfold narrow
    split_ifs with hsize
    · obtain ⟨y, hy⟩ : ∃ y, l[base + size / 2]? = some y :=
        ⟨_, List.getElem?_eq_getElem (by omega)⟩
      rw [hy]
      by_cases hlt : x < y
      · -- the value is before the middle
        have hmid : i < base + size / 2 := by
          by_contra hafter
          exact absurd (hle (Nat.le_of_not_lt hafter) hy hi) (not_le_of_gt hlt)
        simp only [if_pos hlt]
        exact ih (by omega) (by omega) ⟨i, hbase, by omega, hi⟩
      · simp only [if_neg hlt]
        refine ih (by omega) (by omega) ?_
        rcases Nat.lt_or_ge i (base + size / 2) with hbefore | hafter
        · -- then the middle has the value too
          have heq : y = x := le_antisymm (le_of_not_gt hlt) (hle hbefore.le hi hy)
          exact ⟨base + size / 2, le_rfl, by omega, heq ▸ hy⟩
        · exact ⟨i, hafter, by omega, hi⟩
    · obtain rfl : i = base := by omega
      exact hi

/-- In a sorted list the search finds the members. -/
theorem isSome_binarySearch {l : List α} (hsorted : l.Pairwise (· ≤ ·)) (x : α) :
    (binarySearch l x).isSome = true ↔ x ∈ l := by
  unfold binarySearch
  by_cases hfound : l[narrow x l l.length 0 l.length]? = some x
  · simpa [hfound] using List.mem_of_getElem? hfound
  · simp only [if_neg hfound, Option.isSome_none, Bool.false_eq_true, false_iff]
    intro hx
    obtain ⟨i, hi⟩ := List.mem_iff_getElem?.mp hx
    have hlt := (List.getElem?_eq_some_iff.mp hi).1
    exact hfound (getElem?_narrow hsorted le_rfl (by omega) ⟨i, by omega, by omega, hi⟩)

end Runvane.Library
