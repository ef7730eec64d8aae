import Runvane.Library.StableSort
import Runvane.Persistence.Retention

/-!
# Pages of a listing

A listing is read page by page: each request names an offset and a limit. The loop that collects a
page checks its limit after it has pushed a run, so a limit of zero gives a page of one; for every
other limit it takes as many runs as it should (`applyOrder_eq_window`). The runs are sorted before
the window is cut, so the pages of one size, read one after the other, give the sorted list
(`pages_partition`).
-/

set_option autoImplicit false

namespace Runvane.Persistence

open Domain Library

namespace RunFilter

/-- The order of a listing: the newer run comes first. -/
abbrev Newer (a b : Run) : Prop := b.createdAtMs ≤ a.createdAtMs

instance : Std.Total Newer := ⟨fun a b ↦ le_total b.createdAtMs a.createdAtMs⟩

instance : IsTrans Run Newer := ⟨fun _ _ _ hab hbc ↦ hbc.trans hab⟩

instance : Std.Refl Newer := ⟨fun a ↦ le_refl a.createdAtMs⟩

/-- The elements from the offset up to the limit, or to the end when there is none. -/
def window (f : RunFilter) (sorted : List Run) : List Run :=
  match f.limit with
  | none => sorted.drop f.offset
  | some limit => (sorted.drop f.offset).take limit

def page (f : RunFilter) (size number : ℕ) : RunFilter :=
  { f with limit := some size, offset := number * size }

/-- The loop stops with the run that fills the page. -/
theorem collect_some {limit taken : ℕ} (h : taken < limit) (runs : List Run) :
    collect (some limit) taken runs = runs.take (limit - taken) := by
  induction runs generalizing taken with
  | nil => simp [collect]
  | cons run runs ih =>
    have hsucc : limit - taken = limit - (taken + 1) + 1 := by omega
    rw [collect, hsucc, List.take_succ_cons]
    by_cases hfull : limit ≤ taken + 1
    · have hzero : limit - (taken + 1) = 0 := by omega
      simp [hfull, hzero]
    · rw [if_neg (by simpa using hfull), ih (by omega)]

theorem collect_eq_window (f : RunFilter) (h : ∀ limit ∈ f.limit, 1 ≤ limit) (sorted : List Run) :
    collect f.limit 0 (sorted.drop f.offset) = f.window sorted := by
  unfold window
  cases hlimit : f.limit with
  | none => exact collect_none 0 _
  | some limit => exact collect_some (h limit hlimit) _

/-- A request returns a window of the list that is sorted stably. -/
theorem applyOrder_eq_window (f : RunFilter) (h : ∀ limit ∈ f.limit, 1 ≤ limit)
    {runs sorted : List Run} (hsorted : StablySorted Newer runs sorted) :
    f.applyOrder runs = f.window sorted := by
  rw [hsorted.unique (stablySorted_insertionSort runs)]
  exact collect_eq_window f h _

/-- The first pages of a size give the beginning of the sorted list. -/
theorem flatMap_page (f : RunFilter) {size : ℕ} (hsize : 1 ≤ size) (n : ℕ) {runs sorted : List Run}
    (hsorted : StablySorted Newer runs sorted) :
    (List.range n).flatMap (fun number ↦ (f.page size number).applyOrder runs) =
      sorted.take (n * size) := by
  rw [← flatMap_pages]
  congr 1
  funext number
  rw [applyOrder_eq_window (f.page size number) (by simpa [page] using hsize) hsorted]
  rfl

/-- A request returns the window it asks for of the one list that sorts the runs stably from the
newest on. The pages of a size of at least one run give that list, once they reach its end, and
each run stands in it as often as it was given. -/
theorem pages_partition (runs : List Run) :
    ∃ sorted, (∀ other, StablySorted Newer runs other ↔ other = sorted) ∧
      (∀ f : RunFilter, (∀ limit ∈ f.limit, 1 ≤ limit) → f.applyOrder runs = f.window sorted) ∧
      ∀ (f : RunFilter) (size n : ℕ), 1 ≤ size →
        (List.range n).flatMap (fun number ↦ (f.page size number).applyOrder runs) =
          sorted.take (n * size) ∧
        (sorted.length ≤ n * size →
          (List.range n).flatMap (fun number ↦ (f.page size number).applyOrder runs) = sorted ∧
          sorted.Perm runs) := by
  have hsorted := @stablySorted_insertionSort _ Newer _ _ _ runs
  refine ⟨runs.insertionSort Newer, fun other ↦ ?_, fun f h ↦ applyOrder_eq_window f h hsorted,
    fun f size n hsize ↦ ?_⟩
  · constructor
    · exact fun hother ↦ hother.unique hsorted
    · rintro rfl
      exact hsorted
  · have hpages := flatMap_page f hsize n hsorted
    refine ⟨hpages, fun hend ↦ ⟨?_, hsorted.perm⟩⟩
    rw [hpages, List.take_of_length_le hend]

end RunFilter

end Runvane.Persistence
