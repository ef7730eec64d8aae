import Mathlib.Data.List.AList

/-!
# A cache that forgets what was used least recently

The entries stand in the order of their last use, the latest first, and there are never more of them
than the capacity. A lookup and an insertion bring their entry to the front; an insertion into a
full cache drops the entry at the end.

What the cache holds under a key (`peek`) was put there: each operation either answers for its own
key or keeps or drops what was there (`peek_of_peek_get`, `peek_of_peek_put`, `peek_of_peek_pop`).
-/

set_option autoImplicit false

namespace Runvane.Library

variable {K V : Type} [DecidableEq K]

/-- The cache: at most `capacity` entries, one for a key. -/
structure LruCache (K V : Type) [DecidableEq K] where
  capacity : ℕ
  entries : AList fun _ : K ↦ V
  positive : 0 < capacity
  within : entries.entries.length ≤ capacity

namespace LruCache

/-- The cache without entries. -/
def new (capacity : ℕ) (h : 0 < capacity) : LruCache K V := ⟨capacity, ∅, h, Nat.zero_le _⟩

def peek (cache : LruCache K V) (key : K) : Option V := cache.entries.lookup key

def firstEntries (n : ℕ) (entries : AList fun _ : K ↦ V) : AList fun _ : K ↦ V :=
  ⟨entries.entries.take n, entries.nodupKeys.sublist (List.take_sublist _ _)⟩

/-- Puts an entry in front, in the place of an earlier one of its key. If there was none and the
cache was full, the last entry is dropped. -/
def put (cache : LruCache K V) (key : K) (value : V) : LruCache K V :=
  ⟨cache.capacity, firstEntries cache.capacity (cache.entries.insert key value), cache.positive,
    List.length_take_le _ _⟩

/-- Looks a key up, and brings its entry to the front. -/
def get (cache : LruCache K V) (key : K) : Option V × LruCache K V :=
  match cache.peek key with
  | some value => (some value, cache.put key value)
  | none => (none, cache)

def pop (cache : LruCache K V) (key : K) : LruCache K V :=
  ⟨cache.capacity, cache.entries.erase key, cache.positive,
    Nat.le_trans (List.kerase_sublist key cache.entries.entries).length_le cache.within⟩

variable {cache : LruCache K V} {key other : K} {value : V}

theorem lookup_of_lookup_firstEntries {n : ℕ} {entries : AList fun _ : K ↦ V}
    (h : (firstEntries n entries).lookup key = some value) : entries.lookup key = some value := by
  have hmem := AList.mem_lookup_iff.mp h
  exact AList.mem_lookup_iff.mpr (List.mem_of_mem_take hmem)

/-- What was put last is held: the capacity is not zero. -/
theorem peek_put_self (cache : LruCache K V) (key : K) (value : V) :
    (cache.put key value).peek key = some value := by
  refine AList.mem_lookup_iff.mpr ?_
  obtain ⟨n, hn⟩ := Nat.exists_eq_succ_of_ne_zero (Nat.ne_of_gt cache.positive)
  simp [put, firstEntries, hn]

theorem peek_of_peek_put (hne : other ≠ key) {found : V}
    (h : (cache.put key value).peek other = some found) : cache.peek other = some found := by
  have hinserted := lookup_of_lookup_firstEntries h
  rwa [AList.lookup_insert_ne hne] at hinserted

@[simp] theorem fst_get (cache : LruCache K V) (key : K) : (cache.get key).1 = cache.peek key := by
  unfold get
  cases cache.peek key <;> rfl

theorem peek_of_peek_get {found : V} (h : (cache.get key).2.peek other = some found) :
    cache.peek other = some found := by
  unfold get at h
  cases hkey : cache.peek key with
  | none =>
    rw [hkey] at h
    exact h
  | some value =>
    rw [hkey] at h
    by_cases hother : other = key
    · subst hother
      rwa [peek_put_self, ← hkey] at h
    · exact peek_of_peek_put hother h

@[simp] theorem peek_pop_self (cache : LruCache K V) (key : K) : (cache.pop key).peek key = none :=
  AList.lookup_erase key cache.entries

theorem peek_of_peek_pop {found : V} (h : (cache.pop key).peek other = some found) :
    cache.peek other = some found := by
  by_cases hother : other = key
  · subst hother
    rw [peek_pop_self] at h
    cases h
  · rwa [peek, pop, AList.lookup_erase_ne hother] at h

end LruCache

end Runvane.Library
