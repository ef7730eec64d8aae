import Mathlib
import Runvane.Domain.Status
import Runvane.Library.MachineInt

/-!
# The task board

What the executor is for, without its calls and its store: a board holds the status and the attempt
counter of every task of a run, and changes by moves. A task is started when it is pending and all
it needs has succeeded, or when it has failed and its budget is not spent; a running task is
settled as succeeded or failed; a pending task that needs something that has not succeeded is
skipped. A crash between two moves leaves a task running.

Two facts about moves carry the safety of the executor. The conditions `Board.Ok` are kept by every
move: a task that has been started has all its needs met, and no counter exceeds its budget. And
what is succeeded or skipped stays so (`Board.Keeps`). Along a chain of moves from the fresh board
they hold of every board and of every pair of boards (`ok_of_isChain`, `keeps_of_isChain`).
-/

set_option autoImplicit false

namespace Runvane.Scheduler

open Domain Library

/-- What the board shows of one task. -/
structure Cell where
  status : TaskStatus
  attempts : ℕ
  deriving DecidableEq, Repr

abbrev Board (ι : Type) := ι → Cell

/-- The fixed data of a run: what each task needs, and how often it may be started. -/
structure BoardRules (ι : Type) where
  needs : ι → ι → Prop
  budget : ι → ℕ

namespace Board

variable {ι : Type} {rules : BoardRules ι} {b b' : Board ι} {t : ι}

/-- The board of a run that has not begun. -/
def fresh : Board ι := fun _ ↦ ⟨.pending, 0⟩

/-- Whether the task has been started, in this attempt or in an earlier one. -/
def Started (b : Board ι) (t : ι) : Prop :=
  (b t).status = .running ∨ (b t).status = .succeeded ∨ (b t).status = .failed

def NeedsMet (rules : BoardRules ι) (b : Board ι) (t : ι) : Prop :=
  ∀ dep, rules.needs t dep → (b dep).status = .succeeded

/-- Whether the task may be started. -/
def Startable (rules : BoardRules ι) (b : Board ι) (t : ι) : Prop :=
  ((b t).status = .pending ∧ NeedsMet rules b t) ∨
    ((b t).status = .failed ∧ (b t).attempts < rules.budget t)

def Keeps (b b' : Board ι) : Prop :=
  ∀ t, (b t).status = .succeeded ∨ (b t).status = .skipped → (b' t).status = (b t).status

/-- What holds of a board that was reached by moves. -/
structure Ok (rules : BoardRules ι) (b : Board ι) : Prop where
  needs_met : ∀ t, b.Started t → b.NeedsMet rules t
  attempts_pending : ∀ t, (b t).status = .pending → (b t).attempts = 0
  attempts_le : ∀ t, (b t).attempts ≤ max (rules.budget t) 1

theorem ok_fresh : Ok rules fresh where
  needs_met t h := by simp [fresh, Started] at h
  attempts_pending _ _ := rfl
  attempts_le _ := Nat.zero_le _

theorem Keeps.trans {b'' : Board ι} (h : Keeps b b') (h' : Keeps b' b'') : Keeps b b'' := by
  intro t ht
  have hb' := h t ht
  rw [h' t (by rwa [hb']), hb']

/-- Needs that are met stay met. -/
theorem Keeps.needsMet (h : Keeps b b') (hmet : NeedsMet rules b t) : NeedsMet rules b' t :=
  fun dep hdep ↦ (h dep (.inl (hmet dep hdep))).trans (hmet dep hdep)

theorem Ok.needsMet_of_startable (hok : Ok rules b) (h : Startable rules b t) :
    NeedsMet rules b t := by
  rcases h with ⟨-, hmet⟩ | ⟨hfailed, -⟩
  · exact hmet
  · exact hok.needs_met t (.inr (.inr hfailed))

theorem Ok.u32Succ_le (hok : Ok rules b) (h : Startable rules b t) :
    u32Succ (b t).attempts ≤ max (rules.budget t) 1 := by
  have hwrap : u32Succ (b t).attempts ≤ (b t).attempts + 1 := Nat.mod_le _ _
  rcases h with ⟨hpending, -⟩ | ⟨-, hbudget⟩
  · have hzero := hok.attempts_pending t hpending
    omega
  · omega

/-! ### Moves -/

variable [DecidableEq ι]

inductive Move (rules : BoardRules ι) (b : Board ι) : Board ι → Prop
  | start (t : ι) (h : Startable rules b t) :
      Move rules b (Function.update b t ⟨.running, u32Succ (b t).attempts⟩)
  | settle (t : ι) (status : TaskStatus) (hrunning : (b t).status = .running)
      (hstatus : status = .succeeded ∨ status = .failed) :
      Move rules b (Function.update b t ⟨status, (b t).attempts⟩)
  | skip (t : ι) (hpending : (b t).status = .pending) (hblocked : ¬ NeedsMet rules b t) :
      Move rules b (Function.update b t ⟨.skipped, (b t).attempts⟩)

/-- A move, or no change. -/
def Advances (rules : BoardRules ι) (b b' : Board ι) : Prop := b' = b ∨ Move rules b b'

/-- A cell may change when it is neither succeeded nor skipped. -/
theorem keeps_update {cell : Cell}
    (h : (b t).status = .pending ∨ (b t).status = .running ∨ (b t).status = .failed) :
    Keeps b (Function.update b t cell) := by
  intro other hother
  rw [Function.update_of_ne]
  rintro rfl
  rcases h with h | h | h <;> simp [h] at hother

theorem Move.keeps (h : Move rules b b') : Keeps b b' := by
  cases h with
  | start t h =>
    refine keeps_update ?_
    rcases h with ⟨hpending, -⟩ | ⟨hfailed, -⟩
    · exact .inl hpending
    · exact .inr (.inr hfailed)
  | settle t status hrunning hstatus => exact keeps_update (.inr (.inl hrunning))
  | skip t hpending hblocked => exact keeps_update (.inl hpending)

theorem Advances.keeps (h : Advances rules b b') : Keeps b b' := by
  rcases h with rfl | h
  · exact fun _ _ ↦ rfl
  · exact h.keeps

/-- What a move or no change does to a cell. -/
theorem Advances.apply_cases (h : Advances rules b b') (t : ι) :
    b' t = b t ∨ (b' t).status = .running ∧ Startable rules b t ∨
      ((b' t).status = .succeeded ∨ (b' t).status = .failed) ∧ (b t).status = .running ∨
      (b' t).status = .skipped ∧ (b t).status = .pending := by
  rcases h with rfl | h
  · exact .inl rfl
  · cases h with
    | start t' hstart =>
      by_cases ht : t = t'
      · subst ht
        exact .inr (.inl ⟨by simp, hstart⟩)
      · exact .inl (Function.update_of_ne ht _ _)
    | settle t' status hrunning hstatus =>
      by_cases ht : t = t'
      · subst ht
        exact .inr (.inr (.inl ⟨by simpa using hstatus, hrunning⟩))
      · exact .inl (Function.update_of_ne ht _ _)
    | skip t' hpending hblocked =>
      by_cases ht : t = t'
      · subst ht
        exact .inr (.inr (.inr ⟨by simp, hpending⟩))
      · exact .inl (Function.update_of_ne ht _ _)

/-- The update of one cell keeps the conditions when they hold of the new cell. -/
theorem Ok.update (hok : Ok rules b) {cell : Cell} (hkeeps : Keeps b (Function.update b t cell))
    (hmet : cell.status ≠ .skipped → NeedsMet rules b t) (hpending : cell.status ≠ .pending)
    (hattempts : cell.attempts ≤ max (rules.budget t) 1) :
    Ok rules (Function.update b t cell) where
  needs_met other hstarted := by
    refine hkeeps.needsMet ?_
    by_cases hother : other = t
    · subst hother
      refine hmet fun hskipped ↦ ?_
      simp [Started, hskipped] at hstarted
    · simp only [Started, Function.update_of_ne hother] at hstarted
      exact hok.needs_met other hstarted
  attempts_pending other hstatus := by
    by_cases hother : other = t
    · subst hother
      exact absurd (by simpa using hstatus) hpending
    · simp only [Function.update_of_ne hother] at hstatus ⊢
      exact hok.attempts_pending other hstatus
  attempts_le other := by
    by_cases hother : other = t
    · subst hother
      simpa using hattempts
    · simpa [Function.update_of_ne hother] using hok.attempts_le other

/-- Every move keeps the conditions. -/
theorem Ok.move (hok : Ok rules b) (h : Move rules b b') : Ok rules b' := by
  have hkeeps := h.keeps
  cases h with
  | start t h =>
    exact hok.update hkeeps (fun _ ↦ hok.needsMet_of_startable h) (by simp) (hok.u32Succ_le h)
  | settle t status hrunning hstatus =>
    refine hok.update hkeeps (fun _ ↦ hok.needs_met t (.inl hrunning)) ?_ (hok.attempts_le t)
    rcases hstatus with rfl | rfl <;> simp
  | skip t hpending hblocked =>
    exact hok.update hkeeps (by simp) (by simp) (hok.attempts_le t)

theorem Ok.advances (hok : Ok rules b) (h : Advances rules b b') : Ok rules b' := by
  rcases h with rfl | h
  · exact hok
  · exact hok.move h

/-! ### Chains of moves -/

/-- Along a chain from the fresh board the conditions hold everywhere. -/
theorem ok_of_isChain {boards : List (Board ι)} (hchain : boards.IsChain (Advances rules))
    (hok : ∀ first ∈ boards.head?, Ok rules first) : ∀ b ∈ boards, Ok rules b := by
  induction hchain with
  | nil => simp
  | singleton b => simpa using hok
  | cons_cons hadvances _ ih =>
    have hfirst := hok _ rfl
    simp only [List.mem_cons, forall_eq_or_imp] at ih ⊢
    exact ⟨hfirst, ih fun first hmem ↦ by
      obtain rfl : _ = first := by simpa using hmem
      exact hfirst.advances hadvances⟩

/-- Along a chain, what is succeeded or skipped stays so. -/
theorem keeps_of_isChain {boards : List (Board ι)} (hchain : boards.IsChain (Advances rules)) :
    boards.Pairwise Keeps := by
  have : IsTrans (Board ι) Keeps := ⟨fun _ _ _ ↦ Keeps.trans⟩
  exact (hchain.imp fun _ _ h ↦ h.keeps).pairwise

end Board

end Runvane.Scheduler
