import Mathlib
import Runvane.Library.CallProgram

/-!
# Programs that take turns

Any number of processes make their calls on one state, one call at a time. A process has a role,
which gives it its program, and may be started at any time. What happens is a sequence of turns: a
process is started, or one of them makes its next call. All interleavings are all such sequences.

The rule `isChain_states` derives a relation between successive states from single calls: from what
the programs of a role can ever call (`CallProgram.Calls`), and from a condition on the state in
which they call it (`System.Guarded`). The rule `forall_mem_trace` is the one for invariants of the
whole system, in which the state and what is left of the programs may be related. Where every
program meets the contract of its role, invariants of the state are enough (`inv_of_states`).
-/

set_option autoImplicit false

namespace Runvane.Library

/-- The role a process was started in, and what is left of its program. -/
structure Process (R ι : Type) (ρ : ι → Type) (ε α : Type) where
  role : R
  rest : CallProgram ι ρ ε α

/-- A state, and the processes that work on it. -/
structure System (R ι : Type) (ρ : ι → Type) (ε α σ : Type) where
  state : σ
  processes : List (Process R ι ρ ε α)

/-- What happens next: a process is started, or one makes its next call. -/
inductive Turn (R : Type)
  | start (role : R)
  | call (index : ℕ)
  deriving DecidableEq, Repr

namespace System

variable {R ι : Type} {ρ : ι → Type} {ε α σ : Type} (serve : Server ι ρ σ)
  (program : R → CallProgram ι ρ ε α)

/-- The call that is made in a turn, and the role it is made in. -/
def nextCall (sys : System R ι ρ ε α σ) : Turn R → Option (R × ι)
  | .start _ => none
  | .call index => do
    let process ← sys.processes[index]?
    let i ← process.rest.next?
    pure (process.role, i)

def advance (sys : System R ι ρ ε α σ) : Turn R → System R ι ρ ε α σ
  | .start role => { sys with processes := sys.processes ++ [⟨role, program role⟩] }
  | .call index =>
    match sys.processes[index]? with
    | none => sys
    | some process =>
      let after := CallProgram.advance serve (process.rest, sys.state)
      ⟨after.2, sys.processes.set index ⟨process.role, after.1⟩⟩

def after (sys : System R ι ρ ε α σ) (turns : List (Turn R)) : System R ι ρ ε α σ :=
  turns.foldl (advance serve program) sys

/-- The states that a sequence of turns goes through. -/
def states : System R ι ρ ε α σ → List (Turn R) → List σ
  | sys, [] => [sys.state]
  | sys, turn :: turns => sys.state :: states (sys.advance serve program turn) turns

/-- The systems that a sequence of turns goes through. -/
def trace : System R ι ρ ε α σ → List (Turn R) → List (System R ι ρ ε α σ)
  | sys, [] => [sys]
  | sys, turn :: turns => sys :: trace (sys.advance serve program turn) turns

/-- Every call of the sequence is made in a state that meets the condition for it. -/
def Guarded (guard : R → ι → σ → Prop) : System R ι ρ ε α σ → List (Turn R) → Prop
  | _, [] => True
  | sys, turn :: turns => (∀ call ∈ sys.nextCall turn, guard call.1 call.2 sys.state) ∧
      Guarded guard (sys.advance serve program turn) turns

instance decidableGuarded (guard : R → ι → σ → Prop) [∀ role i s, Decidable (guard role i s)] :
    (sys : System R ι ρ ε α σ) → (turns : List (Turn R)) →
      Decidable (Guarded serve program guard sys turns)
  | _, [] => .isTrue trivial
  | sys, turn :: turns =>
    have := decidableGuarded guard (sys.advance serve program turn) turns
    inferInstanceAs (Decidable (_ ∧ _))

/-- A condition that always holds asks nothing of the sequence. -/
theorem guarded_true (sys : System R ι ρ ε α σ) (turns : List (Turn R)) :
    Guarded serve program (fun _ _ _ ↦ True) sys turns := by
  induction turns generalizing sys with
  | nil => trivial
  | cons turn turns ih => exact ⟨fun _ _ ↦ trivial, ih _⟩

/-- What a turn does: a process is started, nothing happens, or a call is made. -/
inductive Advanced (sys : System R ι ρ ε α σ) : Turn R → System R ι ρ ε α σ → Prop
  | start (role : R) : Advanced sys (.start role)
      ⟨sys.state, sys.processes ++ [⟨role, program role⟩]⟩
  | idle {index : ℕ} (h : sys.nextCall (.call index) = none) : Advanced sys (.call index) sys
  | call {index : ℕ} {role : R} {i : ι} {next : ρ i → CallProgram ι ρ ε α}
      (hprocess : sys.processes[index]? = some ⟨role, .call i next⟩)
      (h : sys.nextCall (.call index) = some (role, i)) : Advanced sys (.call index)
        ⟨(serve i sys.state).2, sys.processes.set index ⟨role, next (serve i sys.state).1⟩⟩

/-- A process that has ended makes no call when it is its turn. -/
theorem advance_call_of_next?_eq_none {sys : System R ι ρ ε α σ} {index : ℕ}
    {process : Process R ι ρ ε α} (hprocess : sys.processes[index]? = some process)
    (hend : process.rest.next? = none) : sys.advance serve program (.call index) = sys := by
  obtain ⟨hindex, rfl⟩ := List.getElem?_eq_some_iff.mp hprocess
  have hrest : CallProgram.advance serve (sys.processes[index].rest, sys.state) =
      (sys.processes[index].rest, sys.state) := by
    cases h : sys.processes[index].rest with
    | call i next =>
      rw [h] at hend
      cases hend
    | ret | abort => rfl
  simp only [advance, hprocess, hrest]
  rw [List.set_getElem_self]

theorem advanced (sys : System R ι ρ ε α σ) (turn : Turn R) :
    Advanced serve program sys turn (sys.advance serve program turn) := by
  cases turn with
  | start role => exact .start role
  | call index =>
    cases hprocess : sys.processes[index]? with
    | none =>
      simp only [advance, hprocess]
      exact .idle (by simp [nextCall, hprocess])
    | some process =>
      obtain ⟨role, rest⟩ := process
      cases rest with
      | ret | abort =>
        rw [advance_call_of_next?_eq_none serve program hprocess rfl]
        exact .idle (by simp [nextCall, hprocess, CallProgram.next?])
      | call i next =>
        simp only [advance, hprocess]
        exact .call hprocess (by simp [nextCall, hprocess, CallProgram.next?])

/-- What is left of every process meets the contract of its role. -/
def Honours (expected : (i : ι) → ρ i → Prop) (allowed : R → ι → Prop)
    (sys : System R ι ρ ε α σ) : Prop :=
  ∀ process ∈ sys.processes, process.rest.Meets expected (allowed process.role) fun _ ↦ True

variable {serve program} {expected : (i : ι) → ρ i → Prop} {allowed : R → ι → Prop}
  {sys : System R ι ρ ε α σ} {turn : Turn R} {guard : R → ι → σ → Prop} {related : σ → σ → Prop}
  {turns : List (Turn R)}

theorem Honours.start (h : sys.Honours expected allowed) {role : R}
    (hrole : (program role).Meets expected (allowed role) fun _ ↦ True) :
    Honours expected allowed ⟨sys.state, sys.processes ++ [⟨role, program role⟩]⟩ := by
  intro process hprocess
  rcases List.mem_append.mp hprocess with hold | hnew
  · exact h process hold
  · obtain rfl := List.mem_singleton.mp hnew
    exact hrole

/-- A process that is answered as expected makes an allowed call, and goes on as it should. -/
theorem Honours.call (h : sys.Honours expected allowed) {index : ℕ} {role : R} {i : ι}
    {next : ρ i → CallProgram ι ρ ε α}
    (hprocess : sys.processes[index]? = some ⟨role, .call i next⟩) :
    allowed role i ∧ (expected i (serve i sys.state).1 → Honours expected allowed
      ⟨(serve i sys.state).2, sys.processes.set index ⟨role, next (serve i sys.state).1⟩⟩) := by
  obtain ⟨hi, hnext⟩ := h _ (List.mem_of_getElem? hprocess)
  refine ⟨hi, fun hanswer other hother ↦ ?_⟩
  rcases List.mem_or_eq_of_mem_set hother with hold | rfl
  · exact h other hold
  · exact hnext _ hanswer

variable (serve program) in
/-- The state after a turn is the one after the call that was made, if there was one. -/
theorem state_advance (sys : System R ι ρ ε α σ) (turn : Turn R) :
    (sys.advance serve program turn).state = match sys.nextCall turn with
      | some call => (serve call.2 sys.state).2
      | none => sys.state := by
  have hadvanced := advanced serve program sys turn
  generalize sys.advance serve program turn = sys' at hadvanced ⊢
  cases hadvanced with
  | start role => rfl
  | idle h => rw [h]
  | call hprocess h => rw [h]

/-- A reflexive relation that every allowed and guarded call establishes holds between successive
states of every sequence of turns. -/
theorem isChain_states (hprogram : ∀ role, (program role).Calls (allowed role))
    (hrefl : ∀ s, related s s)
    (hcall : ∀ role i s, allowed role i → guard role i s → related s (serve i s).2)
    (hsys : sys.Honours (fun _ _ ↦ True) allowed)
    (hguarded : Guarded serve program guard sys turns) :
    (states serve program sys turns).IsChain related := by
  induction turns generalizing sys with
  | nil => exact List.isChain_singleton _
  | cons turn turns ih =>
    obtain ⟨hguard, hrest⟩ := hguarded
    have hstep : related sys.state (sys.advance serve program turn).state ∧
        (sys.advance serve program turn).Honours (fun _ _ ↦ True) allowed := by
      have hadvanced := advanced serve program sys turn
      generalize sys.advance serve program turn = sys' at hadvanced ⊢
      cases hadvanced with
      | start role => exact ⟨hrefl _, hsys.start (hprogram role)⟩
      | idle => exact ⟨hrefl _, hsys⟩
      | call hprocess h =>
        obtain ⟨hallowed, hnext⟩ := hsys.call hprocess
        exact ⟨hcall _ _ _ hallowed (hguard _ h), hnext trivial⟩
    have hchain := ih hstep.2 hrest
    cases turns with
    | nil => exact List.isChain_cons_cons.mpr ⟨hstep.1, hchain⟩
    | cons => exact List.isChain_cons_cons.mpr ⟨hstep.1, hchain⟩

variable (serve program) in
/-- A condition on states and a relation between successive ones hold along a sequence of turns if
they hold of the first turn and along the rest. -/
theorem states_cons_iff {good : σ → Prop} (hgood : good sys.state) (turn : Turn R)
    (turns : List (Turn R)) :
    ((∀ s ∈ states serve program sys (turn :: turns), good s) ∧
      (states serve program sys (turn :: turns)).IsChain related) ↔
      related sys.state (sys.advance serve program turn).state ∧
        (∀ s ∈ states serve program (sys.advance serve program turn) turns, good s) ∧
        (states serve program (sys.advance serve program turn) turns).IsChain related := by
  simp only [states, List.forall_mem_cons, hgood, true_and]
  cases turns with
  | nil | cons =>
    simp only [states, List.isChain_cons_cons]
    tauto

/-- A condition on states and a relation between successive ones are kept by exactly the guarded
calls, as long as an invariant holds that every call keeps. Then they hold along a sequence of turns
if and only if it is guarded. -/
theorem states_iff_guarded {inv good : σ → Prop} (hinv : ∀ i s, inv s → inv (serve i s).2)
    (hrefl : ∀ s, related s s)
    (hcall : ∀ role i s, inv s → good s →
      (good (serve i s).2 ∧ related s (serve i s).2 ↔ guard role i s)) (hs : inv sys.state)
    (hgood : good sys.state) :
    ((∀ s ∈ states serve program sys turns, good s) ∧
      (states serve program sys turns).IsChain related) ↔
      Guarded serve program guard sys turns := by
  induction turns generalizing sys with
  | nil => simp [states, Guarded, hgood]
  | cons turn turns ih =>
    rw [states_cons_iff serve program hgood, Guarded]
    rcases hnext : sys.nextCall turn with _ | call
    · have hsame := state_advance serve program sys turn
      simp only [hnext] at hsame
      rw [ih (by rwa [hsame]) (by rwa [hsame]), hsame]
      simp [hrefl]
    · have hstate := state_advance serve program sys turn
      simp only [hnext] at hstate
      have hs' : inv (sys.advance serve program turn).state := by
        rw [hstate]
        exact hinv call.2 _ hs
      have hguard := hcall call.1 call.2 sys.state hs hgood
      rw [← hstate] at hguard
      simp only [Option.mem_def, Option.some.injEq, forall_eq']
      rw [← hguard]
      constructor
      · rintro ⟨hrelated, hrest⟩
        have hgood' : good (sys.advance serve program turn).state :=
          hrest.1 _ (by cases turns <;> simp [states])
        exact ⟨⟨hgood', hrelated⟩, (ih hs' hgood').mp hrest⟩
      · rintro ⟨⟨hgood', hrelated⟩, hrest⟩
        exact ⟨hrelated, (ih hs' hgood').mpr hrest⟩

/-! ### Invariants -/

variable (serve program) in
theorem states_eq_map_trace (sys : System R ι ρ ε α σ) (turns : List (Turn R)) :
    states serve program sys turns = (trace serve program sys turns).map System.state := by
  induction turns generalizing sys with
  | nil => rfl
  | cons turn turns ih => exact congrArg (sys.state :: ·) (ih _)

variable (serve program) in
theorem after_mem_trace (sys : System R ι ρ ε α σ) (turns : List (Turn R)) :
    after serve program sys turns ∈ trace serve program sys turns := by
  induction turns generalizing sys with
  | nil => exact List.mem_singleton_self sys
  | cons turn turns ih => exact List.mem_cons_of_mem _ (ih _)

/-! ### Conditions on the whole system -/

/-- A process other than the one whose turn it is stays as it is. -/
theorem mem_set_of_ne {β : Type} {l : List β} {index : ℕ} {old new other : β}
    (hother : other ∈ l) (hold : l[index]? = some old) (hne : other ≠ old) :
    other ∈ l.set index new := by
  obtain ⟨j, hj⟩ := List.mem_iff_getElem?.mp hother
  refine List.mem_iff_getElem?.mpr ⟨j, ?_⟩
  rw [List.getElem?_set_ne, hj]
  rintro rfl
  exact hne (Option.some.inj (hj.symm.trans hold))

variable (serve program) in
/-- Every turn of the sequence is taken in a system that meets the condition for it. -/
def Observes (rule : System R ι ρ ε α σ → Turn R → Prop) :
    System R ι ρ ε α σ → List (Turn R) → Prop
  | _, [] => True
  | sys, turn :: turns => rule sys turn ∧ Observes rule (sys.advance serve program turn) turns

instance decidableObserves (rule : System R ι ρ ε α σ → Turn R → Prop)
    [∀ sys turn, Decidable (rule sys turn)] :
    (sys : System R ι ρ ε α σ) → (turns : List (Turn R)) →
      Decidable (Observes serve program rule sys turns)
  | _, [] => .isTrue trivial
  | sys, turn :: turns =>
    have := decidableObserves rule (sys.advance serve program turn) turns
    inferInstanceAs (Decidable (_ ∧ _))

theorem observes_of_guarded (h : Guarded serve program guard sys turns) :
    Observes serve program (fun sys turn ↦ ∀ call ∈ sys.nextCall turn,
      guard call.1 call.2 sys.state) sys turns := by
  induction turns generalizing sys with
  | nil => trivial
  | cons turn turns ih => exact ⟨h.1, ih h.2⟩

/-- An invariant of the system that every turn keeps which meets the condition holds of every system
that the sequence goes through. -/
theorem forall_mem_trace_of_observes {rule : System R ι ρ ε α σ → Turn R → Prop}
    {inv : System R ι ρ ε α σ → Prop}
    (hturn : ∀ sys turn, turn ∈ turns → inv sys → rule sys turn →
      inv (sys.advance serve program turn)) (hinv : inv sys)
    (hobserves : Observes serve program rule sys turns) :
    ∀ reached ∈ trace serve program sys turns, inv reached := by
  induction turns generalizing sys with
  | nil =>
    intro reached hreached
    obtain rfl := List.mem_singleton.mp hreached
    exact hinv
  | cons turn turns ih =>
    obtain ⟨hrule, hrest⟩ := hobserves
    have hstep := hturn sys turn List.mem_cons_self hinv hrule
    intro reached hreached
    rcases List.mem_cons.mp hreached with rfl | hlater
    · exact hinv
    · refine ih (fun sys turn hmem ↦ hturn sys turn ?_) hstep hrest reached hlater
      exact List.mem_cons_of_mem _ hmem

/-- An invariant of the system that is kept when one of the processes is started, and when one makes
a guarded call, holds of every system that a guarded sequence of turns goes through. -/
theorem forall_mem_trace {inv : System R ι ρ ε α σ → Prop}
    (hstart : ∀ sys role, .start role ∈ turns → inv sys →
      inv ⟨sys.state, sys.processes ++ [⟨role, program role⟩]⟩)
    (hcall : ∀ sys index role i next, inv sys →
      sys.processes[index]? = some ⟨role, .call i next⟩ → guard role i sys.state →
        inv ⟨(serve i sys.state).2, sys.processes.set index ⟨role, next (serve i sys.state).1⟩⟩)
    (hinv : inv sys) (hguarded : Guarded serve program guard sys turns) :
    ∀ reached ∈ trace serve program sys turns, inv reached := by
  refine forall_mem_trace_of_observes (fun sys turn hturn hinv hguard ↦ ?_) hinv
    (observes_of_guarded hguarded)
  have hadvanced := advanced serve program sys turn
  generalize sys.advance serve program turn = sys' at hadvanced ⊢
  cases hadvanced with
  | start role => exact hstart sys role hturn hinv
  | idle => exact hinv
  | call hprocess h => exact hcall sys _ _ _ _ hinv hprocess (hguard _ h)

/-- Every role that is started meets its contract, and a state with the invariant answers what a
role is allowed to call, in a state that meets the condition for it, as expected and keeps the
invariant. Then this is so along the sequence of turns. -/
theorem Honours.trace {inv : σ → Prop}
    (hprogram : ∀ role, .start role ∈ turns →
      (program role).Meets expected (allowed role) fun _ ↦ True)
    (hserve : ∀ role i s, inv s → allowed role i → guard role i s →
      expected i (serve i s).1 ∧ inv (serve i s).2)
    (h : sys.Honours expected allowed) (hinv : inv sys.state)
    (hguarded : Guarded serve program guard sys turns) :
    ∀ reached ∈ System.trace serve program sys turns,
      reached.Honours expected allowed ∧ inv reached.state := by
  refine forall_mem_trace (fun sys role hrole h ↦ ⟨h.1.start (hprogram role hrole), h.2⟩)
    (fun sys index role i next h hprocess hguard ↦ ?_) ⟨h, hinv⟩ hguarded
  obtain ⟨hallowed, hnext⟩ := h.1.call hprocess
  obtain ⟨hanswer, hafter⟩ := hserve role i sys.state h.2 hallowed hguard
  exact ⟨hnext hanswer, hafter⟩

/-- All states of every guarded sequence of turns have the invariant. -/
theorem inv_of_states {inv : σ → Prop}
    (hprogram : ∀ role, (program role).Meets expected (allowed role) fun _ ↦ True)
    (hserve : ∀ role i s, inv s → allowed role i → guard role i s →
      expected i (serve i s).1 ∧ inv (serve i s).2) {s : σ} (hinv : inv s)
    (hguarded : Guarded serve program guard ⟨s, []⟩ turns) :
    ∀ reached ∈ states serve program (⟨s, []⟩ : System R ι ρ ε α σ) turns, inv reached := by
  intro reached hreached
  rw [states_eq_map_trace] at hreached
  obtain ⟨sys, hsys, rfl⟩ := List.mem_map.mp hreached
  have hstart : (⟨s, []⟩ : System R ι ρ ε α σ).Honours expected allowed := by simp [Honours]
  exact (hstart.trace (fun role _ ↦ hprogram role) hserve hinv hguarded sys hsys).2

end System

end Runvane.Library
