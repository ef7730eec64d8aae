import Runvane.Library.Interleaving

/-!
# The time of a sequence of turns

The turns of a sequence are counted, and so are the systems between them: the system at time `n` is
the one after the first `n` turns. What happened when can then be compared as numbers are. An
argument that goes back from what is seen to what must have caused it uses three rules: a condition
that holds now and did not at the start came to hold at some time and has held since
(`exists_since`); what a process is after a turn it was before, or it was started, or it made a call
(`process_atTime_succ`); and a process that waits for an answer goes on waiting until it makes its
call (`exists_callAt_of_moved`).
-/

set_option autoImplicit false

namespace Runvane.Library

/-- A condition that holds, and did not at time `0`, came to hold at some time and has held since.
-/
theorem exists_since (p : ℕ → Prop) {n : ℕ} (hstart : ¬ p 0) (hnow : p n) :
    ∃ m < n, ¬ p m ∧ ∀ l, m < l → l ≤ n → p l := by
  induction n with
  | zero => exact absurd hnow hstart
  | succ n ih =>
    by_cases hbefore : p n
    · obtain ⟨m, hm, hnot, hsince⟩ := ih hbefore
      refine ⟨m, by omega, hnot, fun l hlow hhigh ↦ ?_⟩
      rcases Nat.lt_or_eq_of_le hhigh with hl | rfl
      · exact hsince l hlow (by omega)
      · exact hnow
    · refine ⟨n, by omega, hbefore, fun l hlow hhigh ↦ ?_⟩
      obtain rfl : l = n + 1 := by omega
      exact hnow

namespace System

variable {R ι : Type} {ρ : ι → Type} {ε α σ : Type} (serve : Server ι ρ σ)
  (program : R → CallProgram ι ρ ε α) (sys : System R ι ρ ε α σ) (turns : List (Turn R))

def atTime (n : ℕ) : System R ι ρ ε α σ := after serve program sys (turns.take n)

/-- The call that is made in a turn of a sequence, with the process that makes it. -/
def callAt (n : ℕ) : Option (ℕ × ι) :=
  match turns[n]? with
  | some (.call index) =>
    ((atTime serve program sys turns n).nextCall (.call index)).map fun call ↦ (index, call.2)
  | some (.start _) | none => none

@[simp] theorem atTime_zero : atTime serve program sys turns 0 = sys := rfl

variable {serve program sys turns} {n m index : ℕ} {role : R} {i : ι}
  {rest : CallProgram ι ρ ε α} {next : ρ i → CallProgram ι ρ ε α}

theorem atTime_succ_of_some {turn : Turn R} (h : turns[n]? = some turn) :
    atTime serve program sys turns (n + 1) =
      (atTime serve program sys turns n).advance serve program turn := by
  simp only [atTime, after, List.take_add_one, h, Option.toList_some, List.foldl_append,
    List.foldl_cons, List.foldl_nil]

theorem atTime_succ_of_none (h : turns[n]? = none) :
    atTime serve program sys turns (n + 1) = atTime serve program sys turns n := by
  simp only [atTime, List.take_add_one, h, Option.toList_none, List.append_nil]

theorem callAt_eq_some_iff : callAt serve program sys turns n = some (index, i) ↔
    turns[n]? = some (.call index) ∧ ∃ role next,
      (atTime serve program sys turns n).processes[index]? = some ⟨role, .call i next⟩ := by
  constructor
  · intro h
    unfold callAt at h
    split at h
    · rename_i other hturn
      obtain ⟨⟨role, j⟩, hnext, hcall⟩ := Option.map_eq_some_iff.mp h
      cases hcall
      simp only [nextCall, Option.bind_eq_bind, Option.bind_eq_some_iff, Option.pure_def,
        Option.some.injEq, Prod.mk.injEq] at hnext
      obtain ⟨⟨role', rest⟩, hprocess, j, hj, -, rfl⟩ := hnext
      refine ⟨hturn, role', ?_⟩
      cases rest with
      | call i next =>
        cases hj
        exact ⟨next, hprocess⟩
      | ret | abort => cases hj
    · cases h
    · cases h
  · rintro ⟨hturn, role, next, hprocess⟩
    simp [callAt, hturn, nextCall, hprocess, CallProgram.next?]

/-- The system after a call of one of its processes. -/
theorem atTime_succ_of_call (hturn : turns[n]? = some (.call index))
    (hprocess : (atTime serve program sys turns n).processes[index]? = some ⟨role, .call i next⟩) :
    atTime serve program sys turns (n + 1) =
      ⟨(serve i (atTime serve program sys turns n).state).2,
        (atTime serve program sys turns n).processes.set index
          ⟨role, next (serve i (atTime serve program sys turns n).state).1⟩⟩ := by
  rw [atTime_succ_of_some hturn]
  simp only [advance, hprocess, CallProgram.advance]

variable (serve program sys turns n) in
/-- What happens in a turn: nothing, or a process is started, or one makes a call. -/
theorem atTime_succ_cases :
    (callAt serve program sys turns n = none ∧
      ((atTime serve program sys turns (n + 1) = atTime serve program sys turns n) ∨
        ∃ role, atTime serve program sys turns (n + 1) =
          ⟨(atTime serve program sys turns n).state,
            (atTime serve program sys turns n).processes ++ [⟨role, program role⟩]⟩)) ∨
    ∃ index role i next, callAt serve program sys turns n = some (index, i) ∧
      (atTime serve program sys turns n).processes[index]? = some ⟨role, .call i next⟩ ∧
      atTime serve program sys turns (n + 1) =
        ⟨(serve i (atTime serve program sys turns n).state).2,
          (atTime serve program sys turns n).processes.set index
            ⟨role, next (serve i (atTime serve program sys turns n).state).1⟩⟩ := by
  cases hturn : turns[n]? with
  | none => exact .inl ⟨by simp [callAt, hturn], .inl (atTime_succ_of_none hturn)⟩
  | some turn =>
    rw [atTime_succ_of_some hturn]
    have hadvanced := advanced serve program (atTime serve program sys turns n) turn
    generalize (atTime serve program sys turns n).advance serve program turn = sys' at hadvanced ⊢
    cases hadvanced with
    | start role => exact .inl ⟨by simp [callAt, hturn], .inr ⟨role, rfl⟩⟩
    | idle h => exact .inl ⟨by simp [callAt, hturn, h], .inl rfl⟩
    | call hprocess =>
      exact .inr ⟨_, _, _, _, callAt_eq_some_iff.mpr ⟨hturn, _, _, hprocess⟩, hprocess, rfl⟩

/-- The state after a turn is the one after the call that was made, if there was one. -/
theorem state_atTime_succ : (atTime serve program sys turns (n + 1)).state =
    match callAt serve program sys turns n with
    | some (_, i) => (serve i (atTime serve program sys turns n).state).2
    | none => (atTime serve program sys turns n).state := by
  rcases atTime_succ_cases serve program sys turns n with
    ⟨hcall, hsame | ⟨role, hsame⟩⟩ | ⟨index, role, i, next, hcall, -, hafter⟩
  · rw [hcall, hsame]
  · rw [hcall, hsame]
  · rw [hcall, hafter]

variable {process : Process R ι ρ ε α}

/-- What a process is after a turn, it was before, or it was started, or it made a call. -/
theorem process_atTime_succ
    (h : (atTime serve program sys turns (n + 1)).processes[index]? = some process) :
    (atTime serve program sys turns n).processes[index]? = some process ∨
    process.rest = program process.role ∨
    ∃ i next, (atTime serve program sys turns n).processes[index]? =
        some ⟨process.role, .call i next⟩ ∧
      callAt serve program sys turns n = some (index, i) ∧
      process.rest = next (serve i (atTime serve program sys turns n).state).1 := by
  rcases atTime_succ_cases serve program sys turns n with
    ⟨-, hafter | ⟨role, hafter⟩⟩ | ⟨other, role, i, next, hcall, hother, hafter⟩ <;>
    rw [hafter] at h
  · exact .inl h
  · rw [List.getElem?_append] at h
    split_ifs at h with hindex
    · exact .inl h
    · obtain rfl := List.mem_singleton.mp (List.mem_of_getElem? h)
      exact .inr (.inl rfl)
  · rw [List.getElem?_set] at h
    split_ifs at h with hindex hlength
    · subst hindex
      cases h
      exact .inr (.inr ⟨i, next, hother, hcall, rfl⟩)
    · exact .inl h

/-- A process stays as it is in a turn in which it makes no call. -/
theorem process_atTime_succ_of_ne
    (h : (atTime serve program sys turns n).processes[index]? = some process)
    (hcall : ∀ i, callAt serve program sys turns n ≠ some (index, i)) :
    (atTime serve program sys turns (n + 1)).processes[index]? = some process := by
  rcases atTime_succ_cases serve program sys turns n with
    ⟨-, hafter | ⟨role, hafter⟩⟩ | ⟨other, role, i, next, hmade, -, hafter⟩ <;> rw [hafter]
  · exact h
  · rw [List.getElem?_append_left (List.getElem?_eq_some_iff.mp h).1]
    exact h
  · have hne : other ≠ index := by
      rintro rfl
      exact hcall i hmade
    rw [List.getElem?_set_ne hne]
    exact h

/-- A process that waits for the answer to a call, and later does not, has made the call. -/
theorem exists_callAt_of_moved
    (h : (atTime serve program sys turns m).processes[index]? = some ⟨role, .call i next⟩)
    (hmn : m ≤ n)
    (hmoved : (atTime serve program sys turns n).processes[index]? ≠ some ⟨role, .call i next⟩) :
    ∃ l, m ≤ l ∧ l < n ∧ callAt serve program sys turns l = some (index, i) := by
  induction n, hmn using Nat.le_induction with
  | base => exact absurd h hmoved
  | succ n hmn ih =>
    by_cases hwaiting :
        (atTime serve program sys turns n).processes[index]? = some ⟨role, .call i next⟩
    · by_cases hcall : ∃ j, callAt serve program sys turns n = some (index, j)
      · obtain ⟨j, hj⟩ := hcall
        obtain ⟨-, role', next', hprocess⟩ := callAt_eq_some_iff.mp hj
        obtain ⟨rfl, hcalls⟩ := Process.mk.inj (Option.some.inj (hwaiting.symm.trans hprocess))
        cases hcalls
        exact ⟨n, hmn, by omega, hj⟩
      · rw [not_exists] at hcall
        exact absurd (process_atTime_succ_of_ne hwaiting hcall) hmoved
    · obtain ⟨l, hml, hln, hcall⟩ := ih hwaiting
      exact ⟨l, hml, by omega, hcall⟩

/-- There are never fewer processes than before. -/
theorem length_processes_le (hmn : m ≤ n) :
    (atTime serve program sys turns m).processes.length ≤
      (atTime serve program sys turns n).processes.length := by
  induction n, hmn using Nat.le_induction with
  | base => exact le_rfl
  | succ n hmn ih =>
    refine ih.trans ?_
    rcases atTime_succ_cases serve program sys turns n with
      ⟨-, hafter | ⟨role, hafter⟩⟩ | ⟨index, role, i, next, -, -, hafter⟩ <;> simp [hafter]

/-- A process that was not there yet is there only later. -/
theorem lt_of_process (habsent : (atTime serve program sys turns m).processes.length ≤ index)
    (h : (atTime serve program sys turns n).processes[index]? = some process) : m < n := by
  by_contra hle
  obtain ⟨hindex, -⟩ := List.getElem?_eq_some_iff.mp h
  have hlength : (atTime serve program sys turns n).processes.length ≤
      (atTime serve program sys turns m).processes.length := length_processes_le (not_lt.mp hle)
  omega

end System

end Runvane.Library
