import Mathlib

/-!
# Round-robin queues

Items wait in one queue for each key, and the keys that have something waiting take turns: the key
whose turn it is gives its first item, and goes to the end of the line if it has more. `Rotation`
carries the invariant that the line holds each key with waiting items once, and no other.

Three facts describe whole runs. For every key, what waited before and what was pushed is what was
popped and what waits after, in this order (`Steps.conserves`). The number of waiting items goes up
by one with each push and down by one with each pop (`Steps.size`). And while a key waits in the
line without a turn, the keys that have turns are those ahead of it, in the order of the line
(`Steps.ahead`). So between two turns of a key all others that waited have a turn, and only one if
the key kept its place in the line (`Steps.served_between`).
-/

set_option autoImplicit false

namespace Runvane.Library

/-- The queues of all keys, and the line of the keys that have something waiting. -/
structure Rotation (κ α : Type) where
  waiting : κ → List α
  turns : List κ
  nodup : turns.Nodup
  mem_turns : ∀ k, k ∈ turns ↔ waiting k ≠ []

/-- What happens to a rotation: an item is pushed, an item is popped, or there is none to pop. -/
inductive RotationEvent (κ α : Type)
  | pushed (k : κ) (x : α)
  | popped (k : κ) (x : α)
  | idle

namespace RotationEvent

variable {κ α : Type} [DecidableEq κ]

/-- The item that is pushed for a key. -/
def pushedFor (k : κ) : RotationEvent κ α → Option α
  | pushed k' x => if k' = k then some x else none
  | _ => none

/-- The item that is popped for a key. -/
def poppedFor (k : κ) : RotationEvent κ α → Option α
  | popped k' x => if k' = k then some x else none
  | _ => none

/-- The key that has its turn. -/
def served : RotationEvent κ α → Option κ
  | popped k _ => some k
  | _ => none

def isPush : RotationEvent κ α → Bool
  | pushed _ _ => true
  | _ => false

end RotationEvent

namespace Rotation

variable {κ α : Type}

def empty : Rotation κ α where
  waiting _ := []
  turns := []
  nodup := List.nodup_nil
  mem_turns := by simp

theorem waiting_eq_nil_iff (r : Rotation κ α) (k : κ) : r.waiting k = [] ↔ k ∉ r.turns := by
  rw [r.mem_turns, not_not]

/-- The number of items that wait. -/
def size (r : Rotation κ α) : ℕ := (r.turns.map fun k ↦ (r.waiting k).length).sum

theorem size_eq_zero_iff (r : Rotation κ α) : r.size = 0 ↔ r.turns = [] := by
  constructor
  · intro hsize
    refine List.eq_nil_iff_forall_not_mem.mpr fun k hk ↦ (r.mem_turns k).mp hk ?_
    rw [size, List.sum_eq_zero_iff] at hsize
    exact List.eq_nil_of_length_eq_zero (hsize _ (List.mem_map_of_mem hk))
  · intro hturns
    rw [size, hturns]
    rfl

theorem notMem_of_turns_eq {r : Rotation κ α} {k : κ} {rest : List κ}
    (hfirst : r.turns = k :: rest) : k ∉ rest := by
  have hnodup := r.nodup
  rw [hfirst] at hnodup
  exact (List.nodup_cons.mp hnodup).1

variable [DecidableEq κ]

/-- A new item waits behind those of its key; a key that had none goes to the end of the line. -/
def push (r : Rotation κ α) (k : κ) (x : α) : Rotation κ α where
  waiting := Function.update r.waiting k (r.waiting k ++ [x])
  turns := if k ∈ r.turns then r.turns else r.turns ++ [k]
  nodup := by
    split_ifs with hk
    · exact r.nodup
    · exact List.nodup_append_comm.mp (List.nodup_cons.mpr ⟨hk, r.nodup⟩)
  mem_turns k' := by
    by_cases hk' : k' = k
    · subst hk'
      split_ifs with hk <;> simp [hk]
    · rw [Function.update_of_ne hk', ← r.mem_turns]
      split_ifs with hk
      · rfl
      · simp [hk']

/-- The key whose turn it is gives its first item, and lines up again if it has more. -/
def serve (r : Rotation κ α) {k : κ} {rest : List κ} {x : α} {xs : List α}
    (hfirst : r.turns = k :: rest) (hitems : r.waiting k = x :: xs) : Rotation κ α where
  waiting := Function.update r.waiting k xs
  turns := if xs = [] then rest else rest ++ [k]
  nodup := by
    have hnodup := r.nodup
    rw [hfirst, List.nodup_cons] at hnodup
    split_ifs
    · exact hnodup.2
    · exact List.nodup_append_comm.mp (List.nodup_cons.mpr hnodup)
  mem_turns k' := by
    have hnodup := r.nodup
    rw [hfirst, List.nodup_cons] at hnodup
    by_cases hk' : k' = k
    · subst hk'
      split_ifs with hxs <;> simp [hxs, hnodup.1]
    · have hmem : k' ∈ r.turns ↔ k' ∈ rest := by simp [hfirst, hk']
      rw [Function.update_of_ne hk', ← r.mem_turns, hmem]
      split_ifs <;> simp [hk']

section Fields

variable (r : Rotation κ α) (k : κ) (x : α)

@[simp] theorem waiting_push :
    (r.push k x).waiting = Function.update r.waiting k (r.waiting k ++ [x]) := rfl

@[simp] theorem turns_push :
    (r.push k x).turns = if k ∈ r.turns then r.turns else r.turns ++ [k] := rfl

variable {r k x} {rest : List κ} {xs : List α} (hfirst : r.turns = k :: rest)
  (hitems : r.waiting k = x :: xs)

@[simp] theorem waiting_serve :
    (r.serve hfirst hitems).waiting = Function.update r.waiting k xs := rfl

@[simp] theorem turns_serve :
    (r.serve hfirst hitems).turns = if xs = [] then rest else rest ++ [k] := rfl

end Fields

/-! ### Steps -/

/-- One step of a rotation. -/
inductive Step (r : Rotation κ α) : RotationEvent κ α → Rotation κ α → Prop
  | push (k : κ) (x : α) : Step r (.pushed k x) (r.push k x)
  | pop {k : κ} {rest : List κ} {x : α} {xs : List α} (hfirst : r.turns = k :: rest)
      (hitems : r.waiting k = x :: xs) : Step r (.popped k x) (r.serve hfirst hitems)
  | idle (hnone : r.turns = []) : Step r .idle r

inductive Steps : Rotation κ α → List (RotationEvent κ α) → Rotation κ α → Prop
  | nil (r : Rotation κ α) : Steps r [] r
  | cons {r r' r'' : Rotation κ α} {event : RotationEvent κ α}
      {events : List (RotationEvent κ α)} (step : Step r event r')
      (steps : Steps r' events r'') : Steps r (event :: events) r''

variable {r r' : Rotation κ α} {event : RotationEvent κ α} {events : List (RotationEvent κ α)}

theorem Step.conserves (h : Step r event r') (k : κ) :
    r.waiting k ++ (event.pushedFor k).toList = (event.poppedFor k).toList ++ r'.waiting k := by
  cases h with
  | push k' x =>
    by_cases hk : k' = k
    · subst hk
      simp [RotationEvent.pushedFor, RotationEvent.poppedFor]
    · simp [RotationEvent.pushedFor, RotationEvent.poppedFor, hk,
        Function.update_of_ne (Ne.symm hk)]
  | @pop k' rest x xs hfirst hitems =>
    by_cases hk : k' = k
    · subst hk
      simp [RotationEvent.pushedFor, RotationEvent.poppedFor, hitems]
    · simp [RotationEvent.pushedFor, RotationEvent.poppedFor, hk,
        Function.update_of_ne (Ne.symm hk)]
  | idle => simp [RotationEvent.pushedFor, RotationEvent.poppedFor]

theorem filterMap_cons_eq {β γ : Type} (f : β → Option γ) (x : β) (xs : List β) :
    (x :: xs).filterMap f = (f x).toList ++ xs.filterMap f := by
  cases hf : f x <;> simp [hf]

/-- For every key, what waited and what came is what went and what waits. -/
theorem Steps.conserves (h : Steps r events r') (k : κ) :
    r.waiting k ++ events.filterMap (·.pushedFor k) =
      events.filterMap (·.poppedFor k) ++ r'.waiting k := by
  induction h with
  | nil r => simp
  | @cons r r' r'' event events step steps ih =>
    rw [filterMap_cons_eq, filterMap_cons_eq, ← List.append_assoc, step.conserves,
      List.append_assoc, ih, List.append_assoc]

/-! ### The number of waiting items -/

/-- A key that is not in a list may change its value without a change of the sum. -/
theorem sum_length_update_of_notMem {keys : List κ} {k : κ} (hk : k ∉ keys) (f : κ → List α)
    (items : List α) :
    (keys.map fun k' ↦ (Function.update f k items k').length).sum =
      (keys.map fun k' ↦ (f k').length).sum := by
  congr 1
  refine List.map_congr_left fun k' hk' ↦ ?_
  have hne : k' ≠ k := fun h ↦ hk (h ▸ hk')
  rw [Function.update_of_ne hne]

/-- The sum over a line in which the key comes first. -/
theorem size_of_perm {turns rest : List κ} {k : κ} (hperm : turns.Perm (k :: rest)) (hk : k ∉ rest)
    (f : κ → List α) (items : List α) :
    (turns.map fun k' ↦ (Function.update f k items k').length).sum =
      items.length + (rest.map fun k' ↦ (f k').length).sum := by
  rw [(hperm.map _).sum_eq, List.map_cons, List.sum_cons, Function.update_self,
    sum_length_update_of_notMem hk]

theorem size_eq {rest : List κ} {k : κ} (hperm : r.turns.Perm (k :: rest)) (hk : k ∉ rest) :
    r.size = (r.waiting k).length + (rest.map fun k' ↦ (r.waiting k').length).sum := by
  have h := size_of_perm hperm hk r.waiting (r.waiting k)
  rwa [Function.update_eq_self] at h

theorem size_push (r : Rotation κ α) (k : κ) (x : α) : (r.push k x).size = r.size + 1 := by
  by_cases hk : k ∈ r.turns
  · have hperm := List.perm_cons_erase hk
    have herase : k ∉ r.turns.erase k := r.nodup.not_mem_erase
    rw [size_eq hperm herase, size, turns_push, if_pos hk, waiting_push,
      size_of_perm hperm herase, List.length_append, List.length_singleton]
    omega
  · have hperm : (r.turns ++ [k]).Perm (k :: r.turns) := List.perm_append_comm
    rw [size, turns_push, if_neg hk, waiting_push, size_of_perm hperm hk,
      (r.waiting_eq_nil_iff k).mpr hk, size]
    simp [Nat.add_comm]

theorem size_serve {k : κ} {rest : List κ} {x : α} {xs : List α} (hfirst : r.turns = k :: rest)
    (hitems : r.waiting k = x :: xs) : r.size = (r.serve hfirst hitems).size + 1 := by
  have hk := notMem_of_turns_eq hfirst
  rw [size_eq (.of_eq hfirst) hk, hitems, size, turns_serve, waiting_serve]
  by_cases hxs : xs = []
  · rw [if_pos hxs, sum_length_update_of_notMem hk, hxs]
    simp [Nat.add_comm]
  · rw [if_neg hxs, size_of_perm List.perm_append_comm hk, List.length_cons]
    omega

theorem Step.size (h : Step r event r') :
    r.size + (if event.isPush then 1 else 0) =
      (if event.served.isSome then 1 else 0) + r'.size := by
  cases h with
  | push k x =>
    simp only [RotationEvent.isPush, RotationEvent.served, size_push]
    simp
  | pop hfirst hitems =>
    simp only [RotationEvent.isPush, RotationEvent.served, size_serve hfirst hitems]
    simp [Nat.add_comm]
  | idle => simp [RotationEvent.isPush, RotationEvent.served]

/-- Each push adds one waiting item, and each pop takes one away. -/
theorem Steps.size (h : Steps r events r') :
    r.size + events.countP RotationEvent.isPush =
      (events.filterMap RotationEvent.served).length + r'.size := by
  induction h with
  | nil r => simp
  | @cons r r' r'' event events step steps ih =>
    have hstep := step.size
    have hserved : event.served.toList.length = if event.served.isSome then 1 else 0 := by
      cases event.served <;> rfl
    rw [List.countP_cons, filterMap_cons_eq, List.length_append, hserved]
    omega

/-! ### Turns -/

/-- The keys that come before the given one; all of them, if it is not in the line. -/
def ahead (r : Rotation κ α) (k : κ) : List κ := r.turns.takeWhile (· ≠ k)

/-- Whoever lines up behind a key is not ahead of it. -/
theorem takeWhile_append_of_mem {turns : List κ} {k : κ} (hk : k ∈ turns) (more : List κ) :
    (turns ++ more).takeWhile (· ≠ k) = turns.takeWhile (· ≠ k) := by
  induction turns with
  | nil => cases hk
  | cons k' turns ih =>
    by_cases hk' : k' = k
    · simp [hk']
    · have hmem : k ∈ turns := (List.mem_cons.mp hk).resolve_left (Ne.symm hk')
      simpa [hk'] using ih hmem

/-- While a key waits for its turn, the key that has its turn is the first one ahead of it. -/
theorem Step.ahead {k : κ} (h : Step r event r') (hk : k ∈ r.turns)
    (hserved : event.served ≠ some k) :
    k ∈ r'.turns ∧ r.ahead k = event.served.toList ++ r'.ahead k := by
  unfold Rotation.ahead
  cases h with
  | push k' x =>
    rw [turns_push]
    split_ifs with hk'
    · exact ⟨hk, rfl⟩
    · exact ⟨List.mem_append_left _ hk, (takeWhile_append_of_mem hk _).symm⟩
  | @pop k' rest x xs hfirst hitems =>
    have hne : k' ≠ k := fun heq ↦ hserved (congrArg some heq)
    have hrest : k ∈ rest := by
      rw [hfirst] at hk
      exact (List.mem_cons.mp hk).resolve_left (Ne.symm hne)
    have hfront : (k' :: rest).takeWhile (· ≠ k) = k' :: rest.takeWhile (· ≠ k) := by
      simp [hne]
    rw [hfirst, hfront, turns_serve]
    split_ifs
    · exact ⟨hrest, rfl⟩
    · refine ⟨List.mem_append_left _ hrest, ?_⟩
      rw [takeWhile_append_of_mem hrest]
      rfl
  | idle hnone => exact ⟨hk, rfl⟩

/-- Whoever is in the line is ahead of a key that is not, or that lines up behind it. -/
theorem mem_takeWhile_append {turns : List κ} {k other : κ} (hk : k ∉ turns) (hmem : other ∈ turns)
    (more : List κ) : other ∈ (turns ++ more).takeWhile (· ≠ k) := by
  rw [List.takeWhile_append_of_pos]
  · exact List.mem_append_left _ hmem
  · intro k' hk'
    simpa using fun h : k' = k ↦ hk (h ▸ hk')

/-- A key that is ahead of another one stays so until it has its turn. -/
theorem Step.mem_ahead {k other : κ} (h : Step r event r') (hmem : other ∈ r.ahead k)
    (hserved : event.served ≠ some k) (hother : event.served ≠ some other) :
    other ∈ r'.ahead k := by
  by_cases hk : k ∈ r.turns
  · rw [(h.ahead hk hserved).2, List.mem_append, Option.mem_toList] at hmem
    exact hmem.resolve_left hother
  -- the key is not in the line, so the other one is ahead wherever it stands in the line
  have hline : other ∈ r.turns := (List.takeWhile_sublist _).subset hmem
  cases h with
  | push k' x =>
    rw [Rotation.ahead, turns_push]
    split_ifs
    · simpa using mem_takeWhile_append hk hline []
    · exact mem_takeWhile_append hk hline [k']
  | @pop k' rest x xs hfirst hitems =>
    rw [hfirst, List.mem_cons] at hk hline
    have hrest := hline.resolve_left fun heq ↦ hother (congrArg some heq.symm)
    have hk := not_or.mp hk
    rw [Rotation.ahead, turns_serve]
    split_ifs
    · simpa using mem_takeWhile_append hk.2 hrest []
    · exact mem_takeWhile_append hk.2 hrest [k']
  | idle hnone => exact hmem

/-- While a key waits in the line without a turn, the keys that have turns are those ahead of it,
in the order of the line. -/
theorem Steps.ahead {k : κ} (h : Steps r events r') (hk : k ∈ r.turns)
    (hserved : k ∉ events.filterMap RotationEvent.served) :
    r.ahead k = events.filterMap RotationEvent.served ++ r'.ahead k := by
  induction h with
  | nil r => rfl
  | @cons r r' r'' event events step steps ih =>
    rw [filterMap_cons_eq, List.mem_append, not_or, Option.mem_toList] at hserved
    obtain ⟨hk', hstep⟩ := step.ahead hk hserved.1
    rw [hstep, ih hk' hserved.2, filterMap_cons_eq, List.append_assoc]

/-- A key that is ahead of another one stays so, or has had a turn. -/
theorem Steps.served_or_mem_ahead {k other : κ} (h : Steps r events r') (hmem : other ∈ r.ahead k)
    (hserved : k ∉ events.filterMap RotationEvent.served) :
    other ∈ events.filterMap RotationEvent.served ∨ other ∈ r'.ahead k := by
  induction h with
  | nil r => exact .inr hmem
  | @cons r r' r'' event events step steps ih =>
    rw [filterMap_cons_eq, List.mem_append, not_or, Option.mem_toList] at hserved
    rw [filterMap_cons_eq, List.mem_append, Option.mem_toList]
    by_cases hother : event.served = some other
    · exact .inl (.inl hother)
    · rcases ih (step.mem_ahead hmem hserved.1 hother) hserved.2 with hlater | hahead
      · exact .inl (.inr hlater)
      · exact .inr hahead

/-- After a key has had its turn, the others are ahead of it in the order of the line. -/
theorem ahead_serve {k : κ} {rest : List κ} {x : α} {xs : List α} (hfirst : r.turns = k :: rest)
    (hitems : r.waiting k = x :: xs) : (r.serve hfirst hitems).ahead k = rest := by
  have hk := notMem_of_turns_eq hfirst
  have hall : ∀ k' ∈ rest, decide (k' ≠ k) = true := by
    intro k' hk'
    simpa using fun h : k' = k ↦ hk (h ▸ hk')
  rw [Rotation.ahead, turns_serve]
  split_ifs
  · exact List.takeWhile_eq_self_iff.mpr hall
  · rw [List.takeWhile_append_of_pos hall]
    simp

/-- Between two turns of a key, each of the keys that waited at the first of them has a turn, and
exactly one if the key kept waiting. -/
theorem Steps.served_between {k other : κ} {rest : List κ} {x : α} {xs : List α}
    (hfirst : r.turns = k :: rest) (hitems : r.waiting k = x :: xs)
    (h : Steps (r.serve hfirst hitems) events r')
    (hserved : k ∉ events.filterMap RotationEvent.served) (hlast : r'.turns.head? = some k)
    (hother : other ≠ k) (hwaits : r.waiting other ≠ []) :
    1 ≤ (events.filterMap RotationEvent.served).count other ∧
      (xs ≠ [] → (events.filterMap RotationEvent.served).count other = 1) := by
  have hrest : other ∈ rest := by
    have hmem := (r.mem_turns other).mpr hwaits
    rw [hfirst] at hmem
    exact (List.mem_cons.mp hmem).resolve_left hother
  have hnone : r'.ahead k = [] := by
    obtain ⟨tail, htail⟩ := List.head?_eq_some_iff.mp hlast
    simp [Rotation.ahead, htail]
  constructor
  · have hmem := h.served_or_mem_ahead (by rwa [ahead_serve]) hserved
    rw [hnone] at hmem
    exact List.one_le_count_iff.mpr (hmem.resolve_right (List.not_mem_nil))
  · intro hxs
    have hk : k ∈ (r.serve hfirst hitems).turns := by simp [hxs]
    have hturns := h.ahead hk hserved
    rw [ahead_serve, hnone, List.append_nil] at hturns
    have hnodup := r.nodup
    rw [hfirst, hturns] at hnodup
    exact List.count_eq_one_of_mem (List.nodup_cons.mp hnodup).2 (hturns ▸ hrest)

end Rotation

end Runvane.Library
