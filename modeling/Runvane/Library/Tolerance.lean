import Runvane.Library.Interleaving

/-!
# Changes that programs do not notice

The state of programs that take turns may also be changed from outside. Such changes stay without
effect on the programs when three things come together. The programs are tolerant: they go on in the
same way after answers that are alike (`CallProgram.Tolerant`). Similar states give alike answers to
the calls the programs make, and stay similar. And a change leads to a state that is similar to
what it was similar to before.

Two sequences of moves that differ only in the changes from outside then lead to the same programs
and to similar states (`System.similar_of_moves`).
-/

set_option autoImplicit false

namespace Runvane.Library

namespace CallProgram

variable {ι : Type} {ρ : ι → Type} {ε ε' α β : Type}

/-- After answers to a call that are alike, the program goes on in the same way. -/
def Tolerant (alike : (i : ι) → ρ i → ρ i → Prop) : CallProgram ι ρ ε α → Prop
  | .ret _ => True
  | .abort _ => True
  | .call i next =>
    (∀ first second, alike i first second → next first = next second) ∧
      ∀ answer, (next answer).Tolerant alike

variable {alike : (i : ι) → ρ i → ρ i → Prop}

variable {p : CallProgram ι ρ ε α}

/-- A program is tolerant if it only makes calls of which alike answers are equal. -/
theorem tolerant_of_calls
    (h : p.Calls fun i ↦ ∀ first second, alike i first second → first = second) :
    p.Tolerant alike := by
  induction p with
  | ret value => trivial
  | abort reason => trivial
  | call i next ih =>
    exact ⟨fun first second halike ↦ congrArg next (h.1 first second halike),
      fun answer ↦ ih answer (h.2 answer trivial)⟩

/-- A call, and what is done with its answer. -/
theorem tolerant_request_bind {i : ι} {rest : ρ i → CallProgram ι ρ ε α}
    (hsame : ∀ first second, alike i first second → rest first = rest second)
    (hrest : ∀ answer, (rest answer).Tolerant alike) : (request i >>= rest).Tolerant alike :=
  ⟨hsame, hrest⟩

theorem tolerant_bind {rest : α → CallProgram ι ρ ε β} (hp : p.Tolerant alike)
    (hrest : ∀ value, (rest value).Tolerant alike) : (p >>= rest).Tolerant alike := by
  induction p with
  | ret value => exact hrest value
  | abort reason => trivial
  | call i next ih =>
    refine ⟨fun first second h ↦ ?_, fun answer ↦ ih answer (hp.2 answer)⟩
    exact congrArg (· >>= rest) (hp.1 first second h)

theorem tolerant_reify (hp : p.Tolerant alike) :
    (p.reify : CallProgram ι ρ ε' (Except ε α)).Tolerant alike := by
  induction p with
  | ret value => trivial
  | abort reason => trivial
  | call i next ih =>
    exact ⟨fun first second h ↦ congrArg reify (hp.1 first second h),
      fun answer ↦ ih answer (hp.2 answer)⟩

end CallProgram

/-- What happens to a system: a turn, or a change of its state from outside. -/
inductive Move (R τ : Type)
  | turn (turn : Turn R)
  | change (change : τ)

def Move.turn? {R τ : Type} : Move R τ → Option (Turn R)
  | .turn next => some next
  | .change _ => none

namespace System

variable {R ι : Type} {ρ : ι → Type} {ε α σ τ : Type} (serve : Server ι ρ σ)
  (program : R → CallProgram ι ρ ε α) (change : τ → σ → σ)

def move (sys : System R ι ρ ε α σ) : Move R τ → System R ι ρ ε α σ
  | .turn turn => sys.advance serve program turn
  | .change c => ⟨change c sys.state, sys.processes⟩

def afterMoves (sys : System R ι ρ ε α σ) (moves : List (Move R τ)) : System R ι ρ ε α σ :=
  moves.foldl (move serve program change) sys

def afterTurns (sys : System R ι ρ ε α σ) (moves : List (Move R τ)) : System R ι ρ ε α σ :=
  (moves.filterMap Move.turn?).foldl (advance serve program) sys

/-- Every change of the sequence is permitted in the state that it finds. -/
def Permitted (permitted : τ → σ → Prop) : System R ι ρ ε α σ → List (Move R τ) → Prop
  | _, [] => True
  | sys, .turn turn :: moves => Permitted permitted (sys.advance serve program turn) moves
  | sys, .change c :: moves => permitted c sys.state ∧
      Permitted permitted ⟨change c sys.state, sys.processes⟩ moves

/-- The same programs, which tolerate what may differ, at work on similar states. -/
structure Matches (allowed : ι → Prop) (alike : (i : ι) → ρ i → ρ i → Prop)
    (similar : σ → σ → Prop) (sys sys' : System R ι ρ ε α σ) : Prop where
  processes : sys.processes = sys'.processes
  tolerant : ∀ process ∈ sys.processes,
    process.rest.Calls allowed ∧ process.rest.Tolerant alike
  similar : similar sys.state sys'.state

section Matches

variable {serve program change} {allowed : ι → Prop} {alike : (i : ι) → ρ i → ρ i → Prop}
  {similar : σ → σ → Prop} {sys sys' : System R ι ρ ε α σ}

theorem Matches.start (h : Matches allowed alike similar sys sys') {role : R}
    (hrole : (program role).Calls allowed ∧ (program role).Tolerant alike) :
    Matches allowed alike similar (sys.advance serve program (.start role))
      (sys'.advance serve program (.start role)) where
  processes := by simp only [System.advance, h.processes]
  tolerant process hprocess := by
    rcases List.mem_append.mp hprocess with hold | hnew
    · exact h.tolerant process hold
    · obtain rfl := List.mem_singleton.mp hnew
      exact hrole
  similar := h.similar

theorem Matches.call (h : Matches allowed alike similar sys sys')
    (hserve : ∀ i s s', allowed i → similar s s' →
      alike i (serve i s).1 (serve i s').1 ∧ similar (serve i s).2 (serve i s').2) (index : ℕ) :
    Matches allowed alike similar (sys.advance serve program (.call index))
      (sys'.advance serve program (.call index)) := by
  obtain ⟨s, processes⟩ := sys
  obtain ⟨s', processes'⟩ := sys'
  obtain rfl : processes = processes' := h.processes
  cases hprocess : processes[index]? with
  | none =>
    simp only [System.advance, hprocess]
    exact h
  | some process =>
    obtain ⟨role, rest⟩ := process
    cases rest with
    | ret | abort =>
      rw [advance_call_of_next?_eq_none serve program hprocess rfl,
        advance_call_of_next?_eq_none serve program hprocess rfl]
      exact h
    | call i next =>
      obtain ⟨hcalls, htolerant⟩ := h.tolerant _ (List.mem_of_getElem? hprocess)
      obtain ⟨halike, hsimilar⟩ := hserve i s s' hcalls.1 h.similar
      have hnext := htolerant.1 _ _ halike
      simp only [System.advance, hprocess, CallProgram.advance]
      refine ⟨by rw [hnext], fun other hother ↦ ?_, hsimilar⟩
      rcases List.mem_or_eq_of_mem_set hother with hold | rfl
      · exact h.tolerant other hold
      · exact ⟨hcalls.2 _ trivial, htolerant.2 _⟩

/-- Changes that lead to similar states stay without effect on the programs. -/
theorem similar_of_moves {permitted : τ → σ → Prop}
    (hserve : ∀ i s s', allowed i → similar s s' →
      alike i (serve i s).1 (serve i s').1 ∧ similar (serve i s).2 (serve i s').2)
    (hchange : ∀ c s s', permitted c s → similar s s' → similar (change c s) s')
    {moves : List (Move R τ)} (hprogram : ∀ role, .turn (.start role) ∈ moves →
      (program role).Calls allowed ∧ (program role).Tolerant alike)
    (h : Matches allowed alike similar sys sys')
    (hpermitted : Permitted serve program change permitted sys moves) :
    similar (afterMoves serve program change sys moves).state
      (afterTurns serve program sys' moves).state := by
  induction moves generalizing sys sys' with
  | nil => exact h.similar
  | cons move moves ih =>
    have hrest (role : R) (hrole : .turn (.start role) ∈ moves) :=
      hprogram role (List.mem_cons_of_mem _ hrole)
    cases move with
    | turn turn =>
      have hturn : Matches allowed alike similar (sys.advance serve program turn)
          (sys'.advance serve program turn) := by
        cases turn with
        | start role => exact h.start (hprogram role List.mem_cons_self)
        | call index => exact h.call hserve index
      exact ih hrest hturn hpermitted
    | change c =>
      have hchanged : Matches allowed alike similar ⟨change c sys.state, sys.processes⟩ sys' :=
        ⟨h.processes, h.tolerant, hchange c _ _ hpermitted.1 h.similar⟩
      exact ih hrest hchanged hpermitted.2

end Matches

end System

end Runvane.Library
