import Runvane.Library.KeyedMap
import Runvane.Library.MachineInt

/-!
# Tables with a primary key, and SQL statements on them

A table is a map of rows by their primary key. A condition on a row has a third truth value, which
comparisons with `NULL` have; a statement acts on the rows for which its condition is true, and
answers with their number. `update`, `delete` and `upsert` are described row by row (`get?_update`,
`get?_delete`, `get?_upsert`), and a statement that acts on no row leaves the table as it was
(`update_eq_self`, `delete_eq_self`). A statement whose condition names a key is a change of the row
under this key (`update_of_key`, `delete_of_key`).
-/

set_option autoImplicit false

namespace Runvane.Library.Sql

/-- A truth value of SQL; `none` is unknown. -/
abbrev Truth := Option Bool

/-- Conjunction. -/
def and : Truth → Truth → Truth
  | some false, _ | _, some false => some false
  | some true, some true => some true
  | _, _ => none

/-- Disjunction. -/
def or : Truth → Truth → Truth
  | some true, _ | _, some true => some true
  | some false, some false => some false
  | _, _ => none

/-- The test for `NULL`, which is never unknown. -/
def isNull {α : Type} (x : Option α) : Truth := some x.isNone

/-- The test for a value. -/
def isNotNull {α : Type} (x : Option α) : Truth := some x.isSome

/-- A comparison of two columns or parameters. -/
def compares {α : Type} (holds : α → α → Bool) : Option α → Option α → Truth
  | some x, some y => some (holds x y)
  | _, _ => none

@[simp] theorem and_eq_true {p q : Truth} :
    and p q = some true ↔ p = some true ∧ q = some true := by
  rcases p with _ | _ | _ <;> rcases q with _ | _ | _ <;> simp [and]

@[simp] theorem or_eq_true {p q : Truth} :
    or p q = some true ↔ p = some true ∨ q = some true := by
  rcases p with _ | _ | _ <;> rcases q with _ | _ | _ <;> simp [or]

@[simp] theorem compares_eq_true {α : Type} {holds : α → α → Bool} {x y : Option α} :
    compares holds x y = some true ↔ ∃ a b, x = some a ∧ y = some b ∧ holds a b = true := by
  cases x <;> cases y <;> simp [compares]

/-- A number that a statement counts up. A sum beyond the range of 64-bit integers is a
floating-point number, and stays one. -/
inductive Count
  | integer (n : ℤ)
  | real
  deriving DecidableEq

/-- One more. -/
def Count.succ : Count → Count
  | integer n => if n < i64Max then integer (n + 1) else real
  | real => real

variable {κ V : Type} [Ord κ] [Std.TransOrd κ] [Std.LawfulEqOrd κ] {key : V → κ}

/-- The number of rows a condition selects. -/
def count (m : KeyedMap key) (cond : V → Truth) : ℕ :=
  (m.values.filter (cond · = some true)).length

/-- `UPDATE … SET … WHERE …`, on columns other than the key. -/
def update (m : KeyedMap key) (cond : V → Truth) (set : V → V) (hset : ∀ v, key (set v) = key v) :
    ℕ × KeyedMap key :=
  (count m cond, m.update (fun v ↦ if cond v = some true then set v else v) fun v ↦ by
    split_ifs
    · exact hset v
    · rfl)

/-- `DELETE … WHERE …`. -/
def delete (m : KeyedMap key) (cond : V → Truth) : ℕ × KeyedMap key :=
  (count m cond, m.filter fun v ↦ cond v ≠ some true)

/-- `SELECT … WHERE …`, in the order of the keys. -/
def select (m : KeyedMap key) (cond : V → Truth) : List V := m.values.filter (cond · = some true)

/-- `LIMIT …`; a negative number is no limit. -/
def limit {α : Type} (n : ℤ) (rows : List α) : List α := if n < 0 then rows else rows.take n.toNat

/-- `INSERT … ON CONFLICT DO UPDATE SET …`: a row that has the key already takes over columns of the
new one. -/
def upsert (m : KeyedMap key) (v : V) (set : V → V → V) : KeyedMap key :=
  match m.get? (key v) with
  | some old => m.put (set old v)
  | none => m.put v

/-- `INSERT`, which fails when a row has the key. -/
def insert (m : KeyedMap key) (v : V) : Option (KeyedMap key) :=
  match m.get? (key v) with
  | some _ => none
  | none => some (m.put v)

variable {m : KeyedMap key} {cond : V → Truth} {set : V → V} {hset : ∀ v, key (set v) = key v}

theorem get?_update (k : κ) : (update m cond set hset).2.get? k =
    (m.get? k).map fun v ↦ if cond v = some true then set v else v := by
  simp [update]

theorem get?_delete (k : κ) :
    (delete m cond).2.get? k = (m.get? k).filter fun v ↦ cond v ≠ some true :=
  KeyedMap.get?_filter ..

theorem mem_select {v : V} : v ∈ select m cond ↔ m.get? (key v) = some v ∧ cond v = some true := by
  simp [select, KeyedMap.mem_values]

theorem get?_upsert [DecidableEq κ] (v : V) {set : V → V → V}
    (hset : ∀ old new, key (set old new) = key old) (k : κ) :
    (upsert m v set).get? k =
      if key v = k then some (((m.get? k).map fun old ↦ set old v).getD v) else m.get? k := by
  unfold upsert
  cases hold : m.get? (key v) with
  | none =>
    rw [KeyedMap.get?_put]
    split_ifs with hk
    · rw [← hk, hold]
      rfl
    · rfl
  | some old =>
    have hkey : key (set old v) = key v := (hset old v).trans (KeyedMap.key_of_get? hold)
    rw [KeyedMap.get?_put, hkey]
    split_ifs with hk
    · rw [← hk, hold]
      rfl
    · rfl

theorem count_eq_zero :
    count m cond = 0 ↔ ∀ {k : κ} {v : V}, m.get? k = some v → cond v ≠ some true := by
  unfold count
  rw [List.length_eq_zero_iff, List.filter_eq_nil_iff]
  simp only [KeyedMap.mem_values, decide_eq_true_eq]
  constructor
  · intro h k v hv
    exact h v (by rwa [KeyedMap.key_of_get? hv])
  · exact fun h v hv ↦ h hv

theorem update_eq_self (h : count m cond = 0) : (update m cond set hset).2 = m := by
  refine KeyedMap.ext_get? fun k ↦ ?_
  rw [get?_update]
  cases hv : m.get? k with
  | none => rfl
  | some v => rw [Option.map_some, if_neg (count_eq_zero.mp h hv)]

theorem delete_eq_self (h : count m cond = 0) : (delete m cond).2 = m := by
  refine KeyedMap.ext_get? fun k ↦ ?_
  rw [get?_delete]
  cases hv : m.get? k with
  | none => rfl
  | some v => simp [count_eq_zero.mp h hv]

/-! ### Statements on the row of one key -/

section OneRow

variable {k : κ} (hcond : ∀ v, cond v = some true → key v = k)
include hcond

theorem count_eq_zero_of_key :
    count m cond = 0 ↔ ∀ v, m.get? k = some v → cond v ≠ some true := by
  rw [count_eq_zero]
  constructor
  · exact fun h v hv ↦ h hv
  · intro h k' v hv hselected
    obtain rfl : k' = k := (KeyedMap.key_of_get? hv).symm.trans (hcond v hselected)
    exact h v hv hselected

variable [DecidableEq κ]

theorem update_of_key {v : V} (hv : m.get? k = some v) (hselected : cond v = some true) :
    (update m cond set hset).2 = m.put (set v) := by
  refine KeyedMap.ext_get? fun k' ↦ ?_
  have hkey : key (set v) = k := (hset v).trans (KeyedMap.key_of_get? hv)
  rw [get?_update, KeyedMap.get?_put, hkey]
  split_ifs with hk
  · rw [← hk, hv, Option.map_some, if_pos hselected]
  · cases hother : m.get? k' with
    | none => rfl
    | some other =>
      rw [Option.map_some, if_neg]
      exact fun h ↦ hk ((hcond other h).symm.trans (KeyedMap.key_of_get? hother))

theorem delete_of_key (hselected : ∀ v, m.get? k = some v → cond v = some true) :
    (delete m cond).2 = m.erase k := by
  refine KeyedMap.ext_get? fun k' ↦ ?_
  rw [get?_delete, KeyedMap.get?_erase]
  split_ifs with hk
  · subst hk
    cases hv : m.get? k with
    | none => rfl
    | some v => simp [hselected v hv]
  · cases hother : m.get? k' with
    | none => rfl
    | some other =>
      have hne : cond other ≠ some true := fun h ↦
        hk ((hcond other h).symm.trans (KeyedMap.key_of_get? hother))
      simp [hne]

end OneRow

end Runvane.Library.Sql
