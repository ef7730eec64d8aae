import Runvane.Library.Interference
import Runvane.Library.Interleaving

/-!
# Contracts between a program and what answers it

When the state answers allowed calls as expected, and keeps an invariant under them, the contract of
a program turns into facts about its runs (`Keeps.reaches`). A program that meets a contract can be
part of a larger one, alone (`Keeps.wp`) and while others change the state (`Returns.amid`). `Upto`
is a condition on the first call of a kind.
-/

set_option autoImplicit false

namespace Runvane.Library

namespace CallProgram

variable {ι : Type} {ρ : ι → Type} {ε ε' α β σ τ : Type}

variable {mid : α → Prop} {rest : α → CallProgram ι ρ ε β}

section Keeps

variable {expected : (i : ι) → ρ i → Prop} {allowed : ι → Prop} {post : α → Prop} {bad : ε → Prop}
  {p : CallProgram ι ρ ε α} {serve : Server ι ρ σ} {inv : σ → Prop} {q : α → σ → Prop}
  {fail : ε → σ → Prop} {s : σ}

/-- Early exits that were turned into values come back as such. -/
theorem meets_reify {post : Except ε α → Prop}
    (hp : p.Meets expected allowed fun value ↦ post (.ok value))
    (herror : ∀ reason, post (.error reason)) :
    (p.reify : CallProgram ι ρ ε' (Except ε α)).Meets expected allowed post := by
  induction p with
  | ret value => exact hp
  | abort reason => exact herror reason
  | call i next ih => exact ⟨hp.1, fun answer hanswer ↦ ih answer (hp.2 answer hanswer)⟩

/-- The rule for a loop over a list. The invariant speaks of what is left of the list. -/
theorem keeps_foldlM {γ : Type} {body : β → γ → CallProgram ι ρ ε β} (inv : List γ → β → Prop)
    (hbody : ∀ x rest b, inv (x :: rest) b → (body b x).Keeps expected allowed (inv rest) bad)
    (l : List γ) (b : β) (h : inv l b) :
    (l.foldlM body b).Keeps expected allowed (inv []) bad := by
  induction l generalizing b with
  | nil => exact h
  | cons x rest ih =>
    rw [List.foldlM_cons]
    exact keeps_bind (hbody x rest b h) ih

theorem meets_iterate {exhausted : ε} {body : β → CallProgram ι ρ ε (β ⊕ α)}
    (hbody : ∀ b, (body b).Meets expected allowed fun turn ↦
      ∀ value, turn = .inr value → post value)
    (fuel : ℕ) (b : β) : (iterate exhausted body fuel b).Meets expected allowed post := by
  induction fuel generalizing b with
  | zero => trivial
  | succ fuel ih =>
    refine keeps_bind (hbody b) fun turn hturn ↦ ?_
    cases turn with
    | inl b' => exact ih b'
    | inr value => exact hturn value rfl

theorem calls_of_meets {allowed' : ι → Prop} (h : p.Meets (fun _ _ ↦ True) allowed post)
    (hallowed : ∀ i, allowed i → allowed' i) : p.Calls allowed' :=
  h.meets.within hallowed

/-- A state that answers allowed calls as expected, and stays such a state, leads a program that
meets its contract to points at which it does, too. -/
theorem Keeps.reaches
    (hserve : ∀ i s, inv s → allowed i → expected i (serve i s).1 ∧ inv (serve i s).2)
    {c d : CallProgram ι ρ ε α × σ} (hreach : Reaches serve c d)
    (h : c.1.Keeps expected allowed post bad) (hinv : inv c.2) :
    d.1.Keeps expected allowed post bad ∧ inv d.2 := by
  induction hreach with
  | refl => exact ⟨h, hinv⟩
  | tail _ hstep ih =>
    cases hstep with
    | call i next s =>
      obtain ⟨⟨hallowed, hnext⟩, hs⟩ := ih
      obtain ⟨hexpected, hs'⟩ := hserve i s hs hallowed
      exact ⟨hnext _ hexpected, hs'⟩

/-- A part of a larger program. -/
theorem Keeps.wp (h : p.Keeps expected allowed post bad) {mid : σ → Prop}
    (hserve : ∀ i s, inv s → allowed i → expected i (serve i s).1 ∧ inv (serve i s).2)
    (hmid : ∀ s, inv s → mid s) (hq : ∀ value s, post value → inv s → q value s)
    (hfail : ∀ reason s, bad reason → inv s → fail reason s) (hs : inv s) :
    CallProgram.wp serve mid q fail p s := by
  induction p generalizing s with
  | ret value => exact hq value s h hs
  | abort reason => exact hfail reason s h hs
  | call i next ih =>
    obtain ⟨hexpected, hs'⟩ := hserve i s hs h.1
    exact ⟨hmid s hs, ih _ (h.2 _ hexpected) hs'⟩

/-- The same while others change the state. -/
theorem Returns.amid (h : p.Returns expected allowed post) {change : σ → σ → Prop}
    {pre : ι → σ → Prop}
    (hserve : ∀ i s, inv s → allowed i →
      pre i s ∧ expected i (serve i s).1 ∧ inv (serve i s).2)
    (hchange : ∀ s s', inv s → Relation.ReflTransGen change s s' → inv s')
    (hq : ∀ value s, post value → inv s → q value s) (hs : inv s) :
    Amid serve change pre q fail p s := by
  induction p generalizing s with
  | ret value => exact hq value s h hs
  | abort reason => exact h.elim
  | call i next ih =>
    intro s' hs'
    obtain ⟨hpre, hexpected, hafter⟩ := hserve i s' (hchange s s' hs hs') h.1
    exact ⟨hpre, ih _ (h.2 _ hexpected) hafter⟩

end Keeps

/-- As long as its calls are answered as `expected`, the first call of the program of the kind
`mark`, if it makes one, finds it with `good`, and before that it makes no call of the kind
`barred`. -/
def Upto (expected : (i : ι) → ρ i → Prop) (mark barred : ι → Prop)
    (good : CallProgram ι ρ ε α → Prop) : CallProgram ι ρ ε α → Prop
  | .ret _ => True
  | .abort _ => True
  | .call i next => mark i ∧ good (.call i next) ∨
      ¬ mark i ∧ ¬ barred i ∧
        ∀ answer, expected i answer → (next answer).Upto expected mark barred good

section Upto

variable {expected : (i : ι) → ρ i → Prop} {mark barred : ι → Prop}

/-- A first part that makes calls of neither kind leaves the condition to the rest. -/
theorem upto_bind {good : CallProgram ι ρ ε β → Prop} {p : CallProgram ι ρ ε α}
    (hp : p.Meets expected (fun i ↦ ¬ mark i ∧ ¬ barred i) mid)
    (hrest : ∀ value, mid value → (rest value).Upto expected mark barred good) :
    (p >>= rest).Upto expected mark barred good := by
  induction p with
  | ret value => exact hrest value hp
  | abort reason => trivial
  | call i next ih =>
    exact .inr ⟨hp.1.1, hp.1.2, fun answer hanswer ↦ ih answer (hp.2 answer hanswer)⟩

theorem upto_of_meets {good : CallProgram ι ρ ε α → Prop} {post : α → Prop}
    {p : CallProgram ι ρ ε α} (hp : p.Meets expected (fun i ↦ ¬ mark i ∧ ¬ barred i) post) :
    p.Upto expected mark barred good := by
  induction p with
  | ret value => trivial
  | abort reason => trivial
  | call i next ih =>
    exact .inr ⟨hp.1.1, hp.1.2, fun answer hanswer ↦ ih answer (hp.2 answer hanswer)⟩

end Upto

end CallProgram

end Runvane.Library
