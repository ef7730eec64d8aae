import Mathlib
import Runvane.Library.CallProgram

/-!
# Programs whose state is changed by others

Between the calls of a program others may change the state it works on. What they may do is a
relation on states, as in rely–guarantee reasoning. A program can then get from one point to another
by calls of its own and by changes (`Disturbed`).

`Amid` is the contract of a program in such surroundings: every call it makes meets a condition in
the state in which it is made, and its end meets a condition in the state in which it comes,
whatever changes happen in between. The rules are those of `wp`. A contract is carried along every
disturbed execution (`amid_of_disturbed`). Where nobody changes anything (`Alone`), it is a
condition on the calls of the program by itself (`pre_of_reaches`).
-/

set_option autoImplicit false

namespace Runvane.Library.CallProgram

variable {ι : Type} {ρ : ι → Type} {ε ε' α β σ : Type}

/-! ### Executions -/

inductive DisturbedStep (serve : Server ι ρ σ) (change : σ → σ → Prop) :
    CallProgram ι ρ ε α × σ → CallProgram ι ρ ε α × σ → Prop
  | call (i : ι) (next : ρ i → CallProgram ι ρ ε α) (s : σ) :
      DisturbedStep serve change (.call i next, s) (next (serve i s).1, (serve i s).2)
  | change (p : CallProgram ι ρ ε α) {s s' : σ} (h : change s s') :
      DisturbedStep serve change (p, s) (p, s')

/-- What a program can have become, and the state by then, after calls of its own and changes by
others. -/
def Disturbed (serve : Server ι ρ σ) (change : σ → σ → Prop) :
    CallProgram ι ρ ε α × σ → CallProgram ι ρ ε α × σ → Prop :=
  Relation.ReflTransGen (DisturbedStep serve change)

/-- An execution without changes is one. -/
theorem Reaches.disturbed {serve : Server ι ρ σ} (change : σ → σ → Prop)
    {c d : CallProgram ι ρ ε α × σ} (h : Reaches serve c d) : Disturbed serve change c d := by
  induction h with
  | refl => exact .refl
  | tail _ hstep ih =>
    cases hstep with
    | call i next s => exact ih.tail (.call i next s)

/-! ### Contracts -/

/-- Whatever changes happen before its calls, every call of the program is made in a state with
`pre`, what it returns has `post`, and an early exit has `fail`. -/
def Amid (serve : Server ι ρ σ) (change : σ → σ → Prop) (pre : ι → σ → Prop)
    (post : α → σ → Prop) (fail : ε → σ → Prop) : CallProgram ι ρ ε α → σ → Prop
  | .ret value, s => post value s
  | .abort reason, s => fail reason s
  | .call i next, s => ∀ s', Relation.ReflTransGen change s s' →
      pre i s' ∧ Amid serve change pre post fail (next (serve i s').1) (serve i s').2

variable {p : CallProgram ι ρ ε α} {s s' : σ}

section Rules

variable {serve : Server ι ρ σ} {change : σ → σ → Prop} {pre : ι → σ → Prop}
  {post post' : α → σ → Prop} {fail fail' : ε → σ → Prop}

@[simp] theorem amid_ret (value : α) (s : σ) :
    Amid serve change pre post fail (.ret value) s ↔ post value s := Iff.rfl

@[simp] theorem amid_abort (reason : ε) (s : σ) :
    Amid serve change pre post fail (.abort reason : CallProgram ι ρ ε α) s ↔ fail reason s :=
  Iff.rfl

/-- The contract of a sequence is the contract of its first part, with the contract of the rest as
postcondition. -/
theorem amid_bind {post : β → σ → Prop} (p : CallProgram ι ρ ε α) (rest : α → CallProgram ι ρ ε β)
    (s : σ) : Amid serve change pre post fail (p >>= rest) s ↔
      Amid serve change pre (fun value s' ↦ Amid serve change pre post fail (rest value) s') fail p
        s := by
  induction p generalizing s with
  | ret value => rfl
  | abort reason => rfl
  | call i next ih =>
    exact forall₂_congr fun s' _ ↦ and_congr_right fun _ ↦ ih (serve i s').1 (serve i s').2

theorem amid_mono (hpost : ∀ value s, post value s → post' value s)
    (hfail : ∀ reason s, fail reason s → fail' reason s) (h : Amid serve change pre post fail p s) :
    Amid serve change pre post' fail' p s := by
  induction p generalizing s with
  | ret value => exact hpost value s h
  | abort reason => exact hfail reason s h
  | call i next ih => exact fun s' hs' ↦ ⟨(h s' hs').1, ih _ (h s' hs').2⟩

/-- The contract of a sequence from a contract of its first part. -/
theorem amid_seq {post : β → σ → Prop} {between : α → σ → Prop} {rest : α → CallProgram ι ρ ε β}
    (hp : Amid serve change pre between fail p s)
    (hrest : ∀ value s', between value s' → Amid serve change pre post fail (rest value) s') :
    Amid serve change pre post fail (p >>= rest) s :=
  (amid_bind p rest s).mpr (amid_mono hrest (fun _ _ h ↦ h) hp)

/-- The rule for a loop over a list. The invariant speaks of what is left of the list. -/
theorem amid_foldlM {γ : Type} {body : β → γ → CallProgram ι ρ ε β} (inv : List γ → β → σ → Prop)
    (hbody : ∀ x rest b s, inv (x :: rest) b s →
      Amid serve change pre (fun b' s' ↦ inv rest b' s') fail (body b x) s)
    (l : List γ) (b : β) (s : σ) (h : inv l b s) :
    Amid serve change pre (fun b' s' ↦ inv [] b' s') fail (l.foldlM body b) s := by
  induction l generalizing b s with
  | nil => exact h
  | cons x rest ih =>
    rw [List.foldlM_cons]
    exact amid_seq (hbody x rest b s h) fun b' s' h' ↦ ih b' s' h'

/-- The rule for a loop with a measure: started with more fuel than the measure, it does not run
out. -/
theorem amid_iterate {exhausted : ε} {body : β → CallProgram ι ρ ε (β ⊕ α)} (inv : β → σ → Prop)
    (measure : β → ℕ)
    (hbody : ∀ b s, inv b s → Amid serve change pre
      (fun turn s' ↦ match turn with
        | .inl b' => inv b' s' ∧ measure b' < measure b
        | .inr value => post value s') fail (body b) s)
    (fuel : ℕ) (b : β) (s : σ) (hfuel : measure b < fuel) (h : inv b s) :
    Amid serve change pre post fail (iterate exhausted body fuel b) s := by
  induction fuel generalizing b s with
  | zero => omega
  | succ fuel ih =>
    refine amid_seq (hbody b s h) fun turn s' hturn ↦ ?_
    cases turn with
    | inl b' => exact ih b' s' (by have := hturn.2; omega) hturn.1
    | inr value => exact hturn

/-- Wherever a disturbed execution gets, the contract of what is left of the program held before the
changes since its last call. -/
theorem amid_of_disturbed {p' : CallProgram ι ρ ε α} (h : Amid serve change pre post fail p s)
    (hreach : Disturbed serve change (p, s) (p', s')) :
    ∃ s₁, Relation.ReflTransGen change s₁ s' ∧ Amid serve change pre post fail p' s₁ := by
  have hall : ∀ d, Disturbed serve change (p, s) d →
      ∃ s₁, Relation.ReflTransGen change s₁ d.2 ∧ Amid serve change pre post fail d.1 s₁ := by
    intro d hd
    induction hd with
    | refl => exact ⟨s, .refl, h⟩
    | tail _ hstep ih =>
      obtain ⟨s₁, hchanged, hamid⟩ := ih
      cases hstep with
      | call i next s => exact ⟨_, .refl, (hamid s hchanged).2⟩
      | change p hchange => exact ⟨s₁, hchanged.tail hchange, hamid⟩
  exact hall (p', s') hreach

end Rules

/-! ### Executions without changes -/

section Alone

/-- Nobody changes anything. -/
def Alone : σ → σ → Prop := fun _ _ ↦ False

variable {serve : Server ι ρ σ} {pre : ι → σ → Prop} {post : α → σ → Prop}
  {fail : ε → σ → Prop}

theorem eq_of_alone (h : Relation.ReflTransGen Alone s s') : s' = s := by
  cases h with
  | refl => rfl
  | tail _ hstep => exact hstep.elim

/-- With the same condition on all calls it is the contract of the program by itself. -/
theorem wp_of_amid_alone {mid : σ → Prop} (h : Amid serve Alone (fun _ ↦ mid) post fail p s) :
    wp serve mid post fail p s := by
  induction p generalizing s with
  | ret value => exact h
  | abort reason => exact h
  | call i next ih => exact ⟨(h s .refl).1, ih _ (h s .refl).2⟩

theorem amid_alone_call {i : ι} {next : ρ i → CallProgram ι ρ ε α} :
    Amid serve Alone pre post fail (.call i next) s ↔
      pre i s ∧ Amid serve Alone pre post fail (next (serve i s).1) (serve i s).2 := by
  constructor
  · exact fun h ↦ h s .refl
  · intro h s' hs'
    obtain rfl := eq_of_alone hs'
    exact h

theorem amid_alone_request {i : ι} {post : ρ i → σ → Prop} :
    Amid serve Alone pre post fail (request i : CallProgram ι ρ ε (ρ i)) s ↔
      pre i s ∧ post (serve i s).1 (serve i s).2 :=
  amid_alone_call

/-- A program whose calls meet their condition in every state. -/
theorem amid_alone_of_calls {allowed : ι → Prop} (hpre : ∀ i s, allowed i → pre i s)
    (hp : p.Calls allowed) (s : σ) :
    Amid serve Alone pre (fun _ _ ↦ True) (fun _ _ ↦ True) p s := by
  induction p generalizing s with
  | ret value => trivial
  | abort reason => trivial
  | call i next ih => exact amid_alone_call.mpr ⟨hpre i s hp.1, ih _ (hp.2 _ trivial) _⟩

/-- A loop whose turns meet their conditions in every state, however often it goes round. -/
theorem amid_alone_iterate {exhausted : ε} {body : β → CallProgram ι ρ ε (β ⊕ α)}
    (hbody : ∀ b s, Amid serve Alone pre (fun _ _ ↦ True) (fun _ _ ↦ True) (body b) s)
    (fuel : ℕ) (b : β) (s : σ) :
    Amid serve Alone pre (fun _ _ ↦ True) (fun _ _ ↦ True) (iterate exhausted body fuel b) s := by
  induction fuel generalizing b s with
  | zero => trivial
  | succ fuel ih =>
    refine amid_seq (hbody b s) fun turn s' _ ↦ ?_
    cases turn with
    | inl b' => exact ih b' s'
    | inr value => trivial

/-- Every call that is reached meets its condition. -/
theorem pre_of_reaches {i : ι} {next : ρ i → CallProgram ι ρ ε α}
    (h : Amid serve Alone pre post fail p s) (hreach : Reaches serve (p, s) (.call i next, s')) :
    pre i s' := by
  obtain ⟨s₁, hchanged, hrest⟩ := amid_of_disturbed h (hreach.disturbed Alone)
  exact (hrest s' hchanged).1

end Alone

end Runvane.Library.CallProgram
