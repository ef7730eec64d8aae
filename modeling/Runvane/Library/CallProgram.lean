import Mathlib.Logic.Function.Iterate
import Mathlib.Logic.Relation
import Mathlib.Tactic.Common

/-!
# Programs that compute by calls

A program of this library is a tree: it returns a value, leaves early with a reason, or makes a
call and goes on with the answer (`CallProgram`). What a call does is not part of the program. A
server answers each call from a state and moves the state on (`Server`), so one and the same
program can be run alone to its end (`run`), cut off after any of its calls (`Reaches`), or
stepped in turns with other programs over one state.

Two kinds of statement about a program are developed. `wp` is a weakest precondition with a
condition on the points in between: the postcondition holds of what is returned, a failure
condition of an early exit, and `mid` holds of the state before every call. It follows that `mid`
holds wherever the program is cut off (`mid_of_reaches`), and that a run to the end establishes the
postcondition (`post_of_run`, `fail_of_run`). `Keeps` is a contract on the calls a program makes as
long as it is answered as expected, and needs no state at all; `Calls` is the one that expects
nothing. `Until` and `After` are conditions on the order of calls, and `Restrained` combines them
with what the state will answer.

Loops are `iterate`, with a bound on the number of turns and a reason for running out of it.
-/

set_option autoImplicit false

namespace Runvane.Library

/-- A program that makes calls of type `ι`, each answered by a value of the type `ρ` gives it. It
ends by returning an `α` or by leaving early with an `ε`. -/
inductive CallProgram (ι : Type) (ρ : ι → Type) (ε α : Type) : Type
  | ret (value : α)
  | abort (reason : ε)
  | call (request : ι) (next : ρ request → CallProgram ι ρ ε α)

/-- What answers calls: from the state before a call, its answer and the state after it. -/
def Server (ι : Type) (ρ : ι → Type) (σ : Type) : Type :=
  (request : ι) → σ → ρ request × σ

variable {γ : Type}

namespace CallProgram

variable {ι : Type} {ρ : ι → Type} {ε ε' α β σ : Type}

/-- Sequencing: an early exit of the first program is an early exit of the whole. -/
def bind : CallProgram ι ρ ε α → (α → CallProgram ι ρ ε β) → CallProgram ι ρ ε β
  | .ret value, rest => rest value
  | .abort reason, _ => .abort reason
  | .call request next, rest => .call request fun answer ↦ (next answer).bind rest

instance : Monad (CallProgram ι ρ ε) where
  pure := .ret
  bind := bind

/-- The program of a single call, which returns the answer. -/
def request (i : ι) : CallProgram ι ρ ε (ρ i) := .call i .ret

/-- The program with its early exits turned into values. -/
def reify : CallProgram ι ρ ε α → CallProgram ι ρ ε' (Except ε α)
  | .ret value => .ret (.ok value)
  | .abort reason => .ret (.error reason)
  | .call i next => .call i fun answer ↦ (next answer).reify

@[simp] theorem pure_eq_ret (value : α) : (pure value : CallProgram ι ρ ε α) = .ret value := rfl

@[simp] theorem ret_bind (value : α) (rest : α → CallProgram ι ρ ε β) :
    (CallProgram.ret value >>= rest) = rest value := rfl

@[simp] theorem abort_bind (reason : ε) (rest : α → CallProgram ι ρ ε β) :
    (CallProgram.abort reason >>= rest) = CallProgram.abort reason := rfl

theorem bind_assoc (p : CallProgram ι ρ ε α) (first : α → CallProgram ι ρ ε β)
    (second : β → CallProgram ι ρ ε γ) :
    (p >>= first) >>= second = p >>= fun value ↦ first value >>= second := by
  induction p with
  | ret value => rfl
  | abort reason => rfl
  | call i next ih => exact congrArg (CallProgram.call i) (funext ih)

@[simp] theorem call_bind (i : ι) (next : ρ i → CallProgram ι ρ ε α)
    (rest : α → CallProgram ι ρ ε β) :
    (CallProgram.call i next >>= rest) = CallProgram.call i fun answer ↦ next answer >>= rest := rfl

/-- A loop: `body` is repeated on its own result while that is on the left, and the value on the
right is returned. After `fuel` turns the program leaves with the reason `exhausted`. -/
def iterate (exhausted : ε) (body : β → CallProgram ι ρ ε (β ⊕ α)) :
    ℕ → β → CallProgram ι ρ ε α
  | 0, _ => .abort exhausted
  | fuel + 1, state => do
    match ← body state with
    | .inl state' => iterate exhausted body fuel state'
    | .inr value => pure value

/-! ### Running a program -/

/-- The run of a program to its end: what it returns or leaves with, and the last state. -/
def run (serve : Server ι ρ σ) : CallProgram ι ρ ε α → σ → Except ε α × σ
  | .ret value, s => (.ok value, s)
  | .abort reason, s => (.error reason, s)
  | .call i next, s => (next (serve i s).1).run serve (serve i s).2

/-- One call of a program against a server. -/
inductive Step (serve : Server ι ρ σ) : CallProgram ι ρ ε α × σ → CallProgram ι ρ ε α × σ → Prop
  | call (i : ι) (next : ρ i → CallProgram ι ρ ε α) (s : σ) :
      Step serve (.call i next, s) (next (serve i s).1, (serve i s).2)

/-- What a program can have become, and the state by then, after some number of its calls. -/
def Reaches (serve : Server ι ρ σ) :
    CallProgram ι ρ ε α × σ → CallProgram ι ρ ε α × σ → Prop :=
  Relation.ReflTransGen (Step serve)

def next? : CallProgram ι ρ ε α → Option ι
  | .ret _ | .abort _ => none
  | .call i _ => some i

/-- The program and the state after its next call; a program that has ended stays as it is. -/
def advance (serve : Server ι ρ σ) : CallProgram ι ρ ε α × σ → CallProgram ι ρ ε α × σ
  | (.call i next, s) => (next (serve i s).1, (serve i s).2)
  | c => c

theorem reaches_advance (serve : Server ι ρ σ) (n : ℕ) (c : CallProgram ι ρ ε α × σ) :
    Reaches serve c ((advance serve)^[n] c) := by
  induction n generalizing c with
  | zero => exact .refl
  | succ n ih =>
    rw [Function.iterate_succ_apply]
    refine .trans ?_ (ih (advance serve c))
    obtain ⟨p, s⟩ := c
    cases p with
    | call i next => exact .single (.call i next s)
    | ret => exact .refl
    | abort => exact .refl

variable {s : σ} {c : CallProgram ι ρ ε α × σ} {p : CallProgram ι ρ ε α}
  {rest : α → CallProgram ι ρ ε β} {s' : σ} {d : CallProgram ι ρ ε α × σ} {exhausted : ε}
  {body : β → CallProgram ι ρ ε (β ⊕ α)}

/-- A program that has come to a call is at its first one, or has made that. -/
theorem reaches_call_cases {serve : Server ι ρ σ} {i : ι} {next : ρ i → CallProgram ι ρ ε α}
    (h : Reaches serve (.call i next, s) c) :
    c = (.call i next, s) ∨ Reaches serve (next (serve i s).1, (serve i s).2) c := by
  rcases Relation.ReflTransGen.cases_head h with rfl | ⟨d, hstep, hrest⟩
  · exact .inl rfl
  · cases hstep
    exact .inr hrest

/-- A sequence that has come to a call is in its first part, or that has returned. -/
theorem reaches_call_of_bind {serve : Server ι ρ σ} {i : ι} {next : ρ i → CallProgram ι ρ ε β}
    (h : Reaches serve (p >>= rest, s) (.call i next, s')) :
    (∃ first : ρ i → CallProgram ι ρ ε α, Reaches serve (p, s) (.call i first, s') ∧
      next = fun answer ↦ first answer >>= rest) ∨
    ∃ value s₁, Reaches serve (p, s) (.ret value, s₁) ∧
      Reaches serve (rest value, s₁) (.call i next, s') := by
  induction p generalizing s with
  | ret value => exact .inr ⟨value, s, .refl, h⟩
  | abort reason =>
    rcases Relation.ReflTransGen.cases_head h with heq | ⟨d, hstep, -⟩
    · cases heq
    · cases hstep
  | call j first ih =>
    rcases reaches_call_cases h with heq | hlater
    · cases heq
      exact .inl ⟨first, .refl, rfl⟩
    · rcases ih _ hlater with ⟨first', hreach, rfl⟩ | ⟨value, s₁, hreach, hrest⟩
      · exact .inl ⟨first', .head (.call j first s) hreach, rfl⟩
      · exact .inr ⟨value, s₁, .head (.call j first s) hreach, hrest⟩

/-- The program that does nothing more than end as a run ended. -/
def ofResult : Except ε α → CallProgram ι ρ ε α
  | .ok value => .ret value
  | .error reason => .abort reason

/-- The end of a run is a point the program reaches. -/
theorem reaches_run (serve : Server ι ρ σ) (p : CallProgram ι ρ ε α) (s : σ) :
    Reaches serve (p, s) (ofResult (p.run serve s).1, (p.run serve s).2) := by
  induction p generalizing s with
  | ret value => exact .refl
  | abort reason => exact .refl
  | call i next ih => exact .head (.call i next s) (ih (serve i s).1 (serve i s).2)

theorem run_bind (serve : Server ι ρ σ) (p : CallProgram ι ρ ε α)
    (rest : α → CallProgram ι ρ ε β) (s : σ) :
    (p >>= rest).run serve s =
      match p.run serve s with
      | (.ok value, s') => (rest value).run serve s'
      | (.error reason, s') => (.error reason, s') := by
  induction p generalizing s with
  | ret value => rfl
  | abort reason => rfl
  | call i next ih => exact ih (serve i s).1 (serve i s).2

/-! ### Weakest preconditions with a condition in between -/

/-- From this state the program meets its contract: `mid` holds before every call, `post` of what
is returned, and `fail` of an early exit. -/
def wp (serve : Server ι ρ σ) (mid : σ → Prop) (post : α → σ → Prop) (fail : ε → σ → Prop) :
    CallProgram ι ρ ε α → σ → Prop
  | .ret value, s => post value s
  | .abort reason, s => fail reason s
  | .call i next, s => mid s ∧ wp serve mid post fail (next (serve i s).1) (serve i s).2

section Rules

variable {serve : Server ι ρ σ} {mid mid' : σ → Prop} {post post' : α → σ → Prop}
  {fail fail' : ε → σ → Prop}

@[simp] theorem wp_ret (value : α) (s : σ) :
    wp serve mid post fail (.ret value) s ↔ post value s := Iff.rfl

@[simp] theorem wp_abort (reason : ε) (s : σ) :
    wp serve mid post fail (.abort reason : CallProgram ι ρ ε α) s ↔ fail reason s := Iff.rfl

@[simp] theorem wp_call (i : ι) (next : ρ i → CallProgram ι ρ ε α) (s : σ) :
    wp serve mid post fail (.call i next) s ↔
      mid s ∧ wp serve mid post fail (next (serve i s).1) (serve i s).2 := Iff.rfl

@[simp] theorem wp_request (i : ι) {post : ρ i → σ → Prop} (s : σ) :
    wp serve mid post fail (request i : CallProgram ι ρ ε (ρ i)) s ↔
      mid s ∧ post (serve i s).1 (serve i s).2 := Iff.rfl

/-- The contract of a sequence is the contract of its first part, with the contract of the rest
as postcondition. -/
theorem wp_bind {post : β → σ → Prop} (p : CallProgram ι ρ ε α)
    (rest : α → CallProgram ι ρ ε β) (s : σ) :
    wp serve mid post fail (p >>= rest) s ↔
      wp serve mid (fun value s' ↦ wp serve mid post fail (rest value) s') fail p s := by
  induction p generalizing s with
  | ret value => rfl
  | abort reason => rfl
  | call i next ih => exact and_congr_right fun _ ↦ ih (serve i s).1 (serve i s).2

/-- Consequence: a contract may be weakened in all three of its conditions. -/
theorem wp_mono (hmid : ∀ s, mid s → mid' s) (hpost : ∀ value s, post value s → post' value s)
    (hfail : ∀ reason s, fail reason s → fail' reason s) (h : wp serve mid post fail p s) :
    wp serve mid' post' fail' p s := by
  induction p generalizing s with
  | ret value => exact hpost value s h
  | abort reason => exact hfail reason s h
  | call i next ih => exact ⟨hmid s h.1, ih (serve i s).1 h.2⟩

/-- The contract of a sequence from a contract of its first part. -/
theorem wp_seq {post : β → σ → Prop} {between : α → σ → Prop} (hp : wp serve mid between fail p s)
    (hrest : ∀ value s', between value s' → wp serve mid post fail (rest value) s') :
    wp serve mid post fail (p >>= rest) s :=
  (wp_bind p rest s).mpr (wp_mono (fun _ h ↦ h) hrest (fun _ _ h ↦ h) hp)

/-- The contract of a program whose early exits are values: they come back as such. -/
theorem wp_reify {post : Except ε α → σ → Prop} {fail' : ε' → σ → Prop} :
    wp serve mid post fail' (p.reify : CallProgram ι ρ ε' (Except ε α)) s ↔
      wp serve mid (fun value s' ↦ post (.ok value) s') (fun reason s' ↦ post (.error reason) s')
        p s := by
  induction p generalizing s with
  | ret value => rfl
  | abort reason => rfl
  | call i next ih => exact and_congr_right fun _ ↦ ih (serve i s).1

/-- A contract is kept by every call. -/
theorem wp_step (hstep : Step serve c d) (h : wp serve mid post fail c.1 c.2) :
    wp serve mid post fail d.1 d.2 := by
  cases hstep with
  | call i next s => exact h.2

/-- A contract holds of every point the program reaches. -/
theorem wp_reaches (hreach : Reaches serve c d) (h : wp serve mid post fail c.1 c.2) :
    wp serve mid post fail d.1 d.2 := by
  induction hreach with
  | refl => exact h
  | tail _ hstep ih => exact wp_step hstep ih

/-- Wherever a program is cut off, the condition in between holds, provided the end of the program
establishes it as well. -/
theorem mid_of_reaches {p' : CallProgram ι ρ ε α} (h : wp serve mid post fail p s)
    (hreach : Reaches serve (p, s) (p', s')) (hpost : ∀ value s, post value s → mid s)
    (hfail : ∀ reason s, fail reason s → mid s) : mid s' := by
  have hend := wp_reaches hreach h
  cases p' with
  | ret value => exact hpost value s' hend
  | abort reason => exact hfail reason s' hend
  | call i next => exact hend.1

/-- A run that returns establishes the postcondition. -/
theorem post_of_run {value : α} (h : wp serve mid post fail p s)
    (hrun : p.run serve s = (.ok value, s')) : post value s' := by
  have hend := wp_reaches (reaches_run serve p s) h
  simpa only [hrun, ofResult, wp_ret] using hend

/-- A run that leaves early establishes the failure condition. -/
theorem fail_of_run {reason : ε} (h : wp serve mid post fail p s)
    (hrun : p.run serve s = (.error reason, s')) : fail reason s' := by
  have hend := wp_reaches (reaches_run serve p s) h
  simpa only [hrun, ofResult, wp_abort] using hend

/-- The rule for a loop over a list that hands a value from turn to turn. The invariant speaks of
what is left of the list. -/
theorem wp_foldlM {body : β → γ → CallProgram ι ρ ε β} (inv : List γ → β → σ → Prop)
    (hbody : ∀ x rest b s, inv (x :: rest) b s →
      wp serve mid (fun b' s' ↦ inv rest b' s') fail (body b x) s) (l : List γ) (b : β) (s : σ)
    (h : inv l b s) : wp serve mid (fun b' s' ↦ inv [] b' s') fail (l.foldlM body b) s := by
  induction l generalizing b s with
  | nil => exact h
  | cons x rest ih =>
    rw [List.foldlM_cons]
    exact wp_seq (hbody x rest b s h) fun b' s' h' ↦ ih b' s' h'

/-- The rule for a loop that may run out of fuel. -/
theorem wp_iterate_of_fail (inv : β → σ → Prop)
    (hbody : ∀ b s, inv b s → wp serve mid
      (fun turn s' ↦ match turn with
        | .inl b' => inv b' s'
        | .inr value => post value s') fail (body b) s)
    (hexhausted : ∀ b s, inv b s → fail exhausted s) (fuel : ℕ) (b : β) (s : σ) (h : inv b s) :
    wp serve mid post fail (iterate exhausted body fuel b) s := by
  induction fuel generalizing b s with
  | zero => exact hexhausted b s h
  | succ fuel ih =>
    refine wp_seq (hbody b s h) fun turn s' hturn ↦ ?_
    cases turn with
    | inl b' => exact ih b' s' hturn
    | inr value => exact hturn

end Rules

/-! ### Contracts -/

/-- As long as its calls are answered as `expected`, the program makes only calls that are
`allowed`, returns only values with `post` and leaves early only for reasons with `fail`. -/
def Keeps (expected : (i : ι) → ρ i → Prop) (allowed : ι → Prop) (post : α → Prop)
    (fail : ε → Prop) : CallProgram ι ρ ε α → Prop
  | .ret value => post value
  | .abort reason => fail reason
  | .call i next =>
    allowed i ∧ ∀ answer, expected i answer → (next answer).Keeps expected allowed post fail

/-- The contract of a program that may leave early. -/
abbrev Meets (expected : (i : ι) → ρ i → Prop) (allowed : ι → Prop) (post : α → Prop) :
    CallProgram ι ρ ε α → Prop :=
  Keeps expected allowed post fun _ ↦ True

/-- The contract of a program that does not leave early. -/
abbrev Returns (expected : (i : ι) → ρ i → Prop) (allowed : ι → Prop) (post : α → Prop) :
    CallProgram ι ρ ε α → Prop :=
  Keeps expected allowed post fun _ ↦ False

/-- Every call the program could make, whatever the answers before it, satisfies `allowed`. -/
abbrev Calls (allowed : ι → Prop) : CallProgram ι ρ ε α → Prop :=
  Meets (fun _ _ ↦ True) allowed fun _ ↦ True

section Contracts

variable {expected : (i : ι) → ρ i → Prop} {allowed allowed' : ι → Prop} {post : α → Prop}
  {fail : ε → Prop}

theorem keeps_mono {post' : α → Prop} (hallowed : ∀ i, allowed i → allowed' i)
    (hpost : ∀ value, post value → post' value) (h : p.Keeps expected allowed post fail) :
    p.Keeps expected allowed' post' fail := by
  induction p with
  | ret value => exact hpost value h
  | abort reason => exact h
  | call i next ih =>
    exact ⟨hallowed i h.1, fun answer hanswer ↦ ih answer (h.2 answer hanswer)⟩

theorem Keeps.within (h : p.Keeps expected allowed post fail)
    (hallowed : ∀ i, allowed i → allowed' i) : p.Keeps expected allowed' post fail :=
  keeps_mono hallowed (fun _ h ↦ h) h

/-- A contract that expects nothing of the answers is a condition on all calls. -/
theorem Keeps.meets (h : p.Keeps (fun _ _ ↦ True) allowed post fail) :
    p.Meets expected allowed fun _ ↦ True := by
  induction p with
  | ret value => trivial
  | abort reason => trivial
  | call i next ih => exact ⟨h.1, fun answer _ ↦ ih answer (h.2 answer trivial)⟩

theorem keeps_bind {mid : α → Prop} {post : β → Prop} (hp : p.Keeps expected allowed mid fail)
    (hrest : ∀ value, mid value → (rest value).Keeps expected allowed post fail) :
    (p >>= rest).Keeps expected allowed post fail := by
  induction p with
  | ret value => exact hrest value hp
  | abort reason => exact hp
  | call i next ih => exact ⟨hp.1, fun answer hanswer ↦ ih answer (hp.2 answer hanswer)⟩

end Contracts

/-! ### Conditions on the order of calls -/

/-- Until the program makes a call of the kind `stop`, if it ever does, all its calls are
`allowed`. -/
def Until (allowed stop : ι → Prop) : CallProgram ι ρ ε α → Prop
  | .ret _ => True
  | .abort _ => True
  | .call i next => stop i ∨ allowed i ∧ ∀ answer, (next answer).Until allowed stop

/-- Once one of the program's calls is answered in a way that is a `trigger`, all further calls are
`allowed`. -/
def After (trigger : (i : ι) → ρ i → Prop) (allowed : ι → Prop) : CallProgram ι ρ ε α → Prop
  | .ret _ => True
  | .abort _ => True
  | .call i next => (∀ answer, trigger i answer → (next answer).Calls allowed) ∧
      ∀ answer, (next answer).After trigger allowed

/-- The condition holds of the program, and of whatever is left of it after any of its calls. -/
def Always (good : CallProgram ι ρ ε α → Prop) : CallProgram ι ρ ε α → Prop
  | .ret value => good (.ret value)
  | .abort reason => good (.abort reason)
  | .call i next => good (.call i next) ∧ ∀ answer, (next answer).Always good

section Order

variable {allowed stop : ι → Prop} {trigger : (i : ι) → ρ i → Prop}

theorem until_of_next? {i : ι} (hi : p.next? = some i) (h : stop i) : p.Until allowed stop := by
  cases p with
  | call j next =>
    obtain rfl := Option.some.inj hi
    exact .inl h
  | ret => trivial
  | abort => trivial

theorem after_of_calls (h : p.Calls allowed) : p.After trigger allowed := by
  induction p with
  | ret value => trivial
  | abort reason => trivial
  | call i next ih =>
    exact ⟨fun answer _ ↦ h.2 answer trivial, fun answer ↦ ih answer (h.2 answer trivial)⟩

/-- A first part that triggers nothing leaves the condition to the rest. -/
theorem after_bind (hp : p.Calls fun i ↦ ∀ answer, ¬ trigger i answer)
    (hrest : ∀ value, (rest value).After trigger allowed) : (p >>= rest).After trigger allowed := by
  induction p with
  | ret value => exact hrest value
  | abort reason => trivial
  | call i next ih =>
    exact ⟨fun answer h ↦ absurd h (hp.1 answer), fun answer ↦ ih answer (hp.2 answer trivial)⟩

theorem After.step {serve : Server ι ρ σ} (h : c.1.After trigger allowed) (hstep : Step serve c d) :
    d.1.After trigger allowed := by
  cases hstep with
  | call i next s => exact h.2 _

theorem After.reaches {serve : Server ι ρ σ} (h : c.1.After trigger allowed)
    (hreach : Reaches serve c d) : d.1.After trigger allowed := by
  induction hreach with
  | refl => exact h
  | tail _ hstep ih => exact ih.step hstep

/-- The program makes allowed calls only, from this state on: whatever it is answered, or because
the state is such that the call it makes allowed calls until will trigger that. -/
def Restrained (trigger : (i : ι) → ρ i → Prop) (allowed stop : ι → Prop) (ready : σ → Prop)
    (c : CallProgram ι ρ ε α × σ) : Prop :=
  c.1.Calls allowed ∨
    c.1.Until allowed stop ∧ c.1.After trigger allowed ∧ ready c.2

theorem Restrained.allowed_of_call {ready : σ → Prop} {i : ι} {next : ρ i → CallProgram ι ρ ε α}
    (h : Restrained trigger allowed stop ready (.call i next, s))
    (hstop : ∀ i, stop i → allowed i) : allowed i := by
  rcases h with hcalls | ⟨hstops | hallowed, -, -⟩
  · exact hcalls.1
  · exact hstop i hstops
  · exact hallowed.1

/-- A state stays ready until a call triggers, and the awaited call triggers in it. Then a program
that is restrained stays so. -/
theorem Restrained.step {serve : Server ι ρ σ} {ready : σ → Prop}
    (h : Restrained trigger allowed stop ready c)
    (hfires : ∀ i s, stop i → ready s → trigger i (serve i s).1)
    (hkeeps : ∀ i s, ready s → trigger i (serve i s).1 ∨ ready (serve i s).2)
    (hstep : Step serve c d) : Restrained trigger allowed stop ready d := by
  cases hstep with
  | call i next s =>
    rcases h with hcalls | ⟨huntil, hafter, hready⟩
    · exact .inl (hcalls.2 _ trivial)
    · rcases huntil with hstop | hallowed
      · exact .inl (hafter.1 _ (hfires i s hstop hready))
      · rcases hkeeps i s hready with htrigger | hready'
        · exact .inl (hafter.1 _ htrigger)
        · exact .inr ⟨hallowed.2 _, hafter.2 _, hready'⟩

end Order

end CallProgram

end Runvane.Library
