import Mathlib

/-!
# Maps of records that carry their own key

A map in which every record is stored under the key it carries, as in a table with a primary key
or a map that is only ever written under a record's own id. The invariant is a field
(`KeyedMap.keyed`), so every operation keeps it. The operations are described by what they do to
lookups (`get?_put`, `get?_erase`, `get?_update`), and two maps with the same lookups are equal
(`KeyedMap.ext_get?`).
-/

set_option autoImplicit false

namespace Runvane.Library

structure KeyedMap {κ V : Type} [Ord κ] [Std.TransOrd κ] (key : V → κ) where
  map : Std.ExtTreeMap κ V
  keyed : ∀ {k : κ} {v : V}, map[k]? = some v → key v = k

namespace KeyedMap

variable {κ V : Type} [Ord κ] [Std.TransOrd κ] {key : V → κ}

/-- The record stored under a key. -/
def get? (m : KeyedMap key) (k : κ) : Option V := m.map[k]?

/-- The map without records. -/
def empty : KeyedMap key where
  map := ∅
  keyed h := by simp at h

/-- Removes the record under a key. -/
def erase (m : KeyedMap key) (k : κ) : KeyedMap key where
  map := m.map.erase k
  keyed := by
    intro k' v h
    rw [Std.ExtTreeMap.getElem?_erase] at h
    split_ifs at h
    exact m.keyed h

/-- The records in the order of their keys. -/
def values (m : KeyedMap key) : List V := m.map.toList.map Prod.snd

variable {m : KeyedMap key} {v : V}

theorem key_of_get? {k : κ} (h : m.get? k = some v) : key v = k :=
  m.keyed h

@[simp] theorem get?_empty (k : κ) : (empty : KeyedMap key).get? k = none := by
  simp [get?, empty]

variable [Std.LawfulEqOrd κ]

/-- Inserts a record under its own key, or replaces the one that is there. -/
def put (m : KeyedMap key) (v : V) : KeyedMap key where
  map := m.map.insert (key v) v
  keyed := by
    intro k v' h
    rw [Std.ExtTreeMap.getElem?_insert] at h
    split_ifs at h with hk
    · obtain rfl := Option.some.inj h
      exact Std.compare_eq_iff_eq.mp hk
    · exact m.keyed h

/-- Rewrites every record by a function that leaves keys alone. -/
def update (m : KeyedMap key) (f : V → V) (hf : ∀ v, key (f v) = key v) : KeyedMap key where
  map := m.map.map fun _ v ↦ f v
  keyed := by
    intro k v h
    rw [Std.ExtTreeMap.getElem?_map, Option.map_eq_some_iff] at h
    obtain ⟨v', hv', rfl⟩ := h
    exact (hf v').trans (m.keyed hv')

@[simp] theorem get?_update (m : KeyedMap key) (f : V → V) (hf : ∀ v, key (f v) = key v) (k : κ) :
    (m.update f hf).get? k = (m.get? k).map f := by
  simp [get?, update, Std.ExtTreeMap.getElem?_map]

/-- Keeps the records that meet a condition. -/
def filter (m : KeyedMap key) (keep : V → Bool) : KeyedMap key where
  map := m.map.filter fun _ v ↦ keep v
  keyed := by
    intro k v h
    rw [Std.ExtTreeMap.getElem?_filter', Option.filter_eq_some_iff] at h
    exact m.keyed h.1

@[simp] theorem get?_filter (m : KeyedMap key) (keep : V → Bool) (k : κ) :
    (m.filter keep).get? k = (m.get? k).filter keep := by
  simp [get?, filter]

theorem values_filter (m : KeyedMap key) (keep : V → Bool) :
    (m.filter keep).values = m.values.filter keep := by
  simp [values, filter, Std.ExtTreeMap.toList_filter, List.filter_map, Function.comp_def]

theorem ext_get? {m' : KeyedMap key} (h : ∀ k, m.get? k = m'.get? k) : m = m' := by
  obtain ⟨map, keyed⟩ := m
  obtain ⟨map', keyed'⟩ := m'
  obtain rfl : map = map' := Std.ExtTreeMap.ext_getElem? fun {k} ↦ h k
  rfl

theorem mem_values : v ∈ m.values ↔ m.get? (key v) = some v := by
  simp only [values, List.mem_map, Prod.exists, exists_eq_right,
    Std.ExtTreeMap.mem_toList_iff_getElem?_eq_some]
  constructor
  · rintro ⟨k, hk⟩
    rw [m.keyed hk]
    exact hk
  · exact fun h ↦ ⟨key v, h⟩

/-- No two records have the same key. -/
theorem nodup_keys (m : KeyedMap key) : (m.values.map key).Nodup := by
  have hkeys : m.values.map key = m.map.toList.map Prod.fst := by
    rw [values, List.map_map]
    refine List.map_congr_left fun entry hentry ↦ ?_
    exact m.keyed (Std.ExtTreeMap.mem_toList_iff_getElem?_eq_some.mp hentry)
  rw [hkeys, List.Nodup, List.pairwise_map]
  refine Std.ExtTreeMap.distinct_keys_toList.imp fun {a b} hne heq ↦ hne ?_
  rw [heq]
  exact Std.ReflCmp.compare_self

theorem nodup_values (m : KeyedMap key) : m.values.Nodup := m.nodup_keys.of_map key

theorem filter_eq_self {keep : V → Bool} (h : ∀ v, keep v = true) : m.filter keep = m := by
  refine ext_get? fun k ↦ ?_
  rw [get?_filter]
  cases m.get? k with
  | none => rfl
  | some v => exact Option.filter_some_pos (h v)

theorem filter_filter (m : KeyedMap key) (first second : V → Bool) :
    (m.filter first).filter second = m.filter fun v ↦ first v && second v := by
  refine ext_get? fun k ↦ ?_
  simp only [get?_filter, Option.filter_filter]

variable [DecidableEq κ]

theorem get?_put (m : KeyedMap key) (v : V) (k : κ) :
    (m.put v).get? k = if key v = k then some v else m.get? k := by
  simp [get?, put, Std.ExtTreeMap.getElem?_insert]

theorem perm_values_put (m : KeyedMap key) (v : V) :
    (m.put v).values.Perm (v :: m.values.filter (key · ≠ key v)) := by
  refine (List.perm_ext_iff_of_nodup (m.put v).nodup_values ?_).mpr fun other ↦ ?_
  · exact List.nodup_cons.mpr ⟨by simp, m.nodup_values.filter _⟩
  · rw [mem_values, get?_put, List.mem_cons, List.mem_filter, mem_values]
    split_ifs with hkey
    · simp [hkey, eq_comm]
    · have hne : other ≠ v := fun heq ↦ hkey (heq ▸ rfl)
      simp [hne, Ne.symm hkey]

/-- A record that replaces another leaves the keys as they are. -/
theorem isSome_get?_put {old : V} (h : m.get? (key v) = some old) (k : κ) :
    ((m.put v).get? k).isSome = (m.get? k).isSome := by
  rw [get?_put]
  split_ifs with hk
  · rw [← hk, h]
    rfl
  · rfl

theorem put_eq_self (h : m.get? (key v) = some v) : m.put v = m := by
  refine ext_get? fun k ↦ ?_
  rw [get?_put]
  split_ifs with hk
  · rw [← hk, h]
  · rfl

/-- A new record is counted in addition. -/
theorem countP_put_of_none (h : m.get? (key v) = none) (p : V → Bool) :
    (m.put v).values.countP p = m.values.countP p + (if p v then 1 else 0) := by
  have hother : m.values.filter (key · ≠ key v) = m.values := by
    refine List.filter_eq_self.mpr fun other hmem ↦ decide_eq_true fun hkey ↦ ?_
    rw [mem_values, hkey, h] at hmem
    cases hmem
  rw [(m.perm_values_put v).countP_eq, hother, List.countP_cons]

/-- A record that replaces another is counted in its place. -/
theorem countP_put_of_some {old : V} (h : m.get? (key v) = some old) (p : V → Bool) :
    (m.put v).values.countP p + (if p old then 1 else 0) =
      m.values.countP p + (if p v then 1 else 0) := by
  have hkey : key old = key v := key_of_get? h
  have hold : m.put old = m := put_eq_self (hkey ▸ h)
  have hput := (m.perm_values_put v).countP_eq p
  have hbefore := (m.perm_values_put old).countP_eq p
  rw [hold, hkey] at hbefore
  rw [List.countP_cons] at hput hbefore
  omega

theorem get?_erase (m : KeyedMap key) (k k' : κ) :
    (m.erase k).get? k' = if k = k' then none else m.get? k' := by
  simp [get?, erase, Std.ExtTreeMap.getElem?_erase]

theorem erase_eq_filter (m : KeyedMap key) (k : κ) : m.erase k = m.filter (key · ≠ k) := by
  refine ext_get? fun k' ↦ ?_
  rw [get?_erase, get?_filter]
  cases hv : m.get? k' with
  | none => simp
  | some v =>
    obtain rfl := key_of_get? hv
    by_cases hk : k = key v
    · simp [Option.filter, hk]
    · simp [Option.filter, hk, Ne.symm hk]

end KeyedMap

end Runvane.Library
