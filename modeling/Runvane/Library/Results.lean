import Mathlib

/-!
# Computations with `Except`

Inversion of a result `.ok` through the combinators a fallible function is written with.
-/

set_option autoImplicit false

namespace Runvane.Library

variable {α β ε ε' : Type}

variable {x : Except ε α} {f : α → Except ε β} {l : List α}

theorem bind_eq_ok {b : β} (h : x >>= f = .ok b) : ∃ a, x = .ok a ∧ f a = .ok b := by
  cases x with
  | error e => cases h
  | ok a => exact ⟨a, rfl, h⟩

theorem bind_ok_iff {b : β} : x >>= f = .ok b ↔ ∃ a, x = .ok a ∧ f a = .ok b := by
  constructor
  · exact bind_eq_ok
  · rintro ⟨a, rfl, hb⟩
    exact hb

theorem exists_of_isOk (h : x.isOk = true) : ∃ a, x = .ok a := by
  cases x with
  | error e => cases h
  | ok a => exact ⟨a, rfl⟩

theorem forM_eq_ok {f : α → Except ε Unit} (h : l.forM f = .ok ()) : ∀ a ∈ l, f a = .ok () := by
  induction l with
  | nil => simp
  | cons a l ih =>
    obtain ⟨_, ha, hl⟩ := bind_eq_ok (x := f a) h
    simp only [List.mem_cons, forall_eq_or_imp]
    exact ⟨ha, ih hl⟩

theorem mapM_eq_ok {out : List β} (h : l.mapM f = .ok out) : ∀ a ∈ l, ∃ b ∈ out, f a = .ok b := by
  induction l generalizing out with
  | nil => simp
  | cons a l ih =>
    rw [List.mapM_cons] at h
    obtain ⟨b, hb, h⟩ := bind_eq_ok h
    obtain ⟨rest, hrest, h⟩ := bind_eq_ok h
    obtain rfl := Except.ok.inj h
    intro a' ha'
    rcases List.mem_cons.mp ha' with rfl | hmem
    · exact ⟨b, List.mem_cons_self, hb⟩
    · obtain ⟨b', hb', hf⟩ := ih hrest a' hmem
      exact ⟨b', List.mem_cons_of_mem _ hb', hf⟩

theorem mapM_of_forall (g : α → β) (h : ∀ a ∈ l, f a = .ok (g a)) : l.mapM f = .ok (l.map g) := by
  induction l with
  | nil => rfl
  | cons a l ih =>
    rw [List.mapM_cons, h a List.mem_cons_self, ih fun a' ha' ↦ h a' (List.mem_cons_of_mem _ ha')]
    rfl

theorem exists_mapM_eq_ok {P : α → β → Prop} (h : ∀ a ∈ l, ∃ b, f a = .ok b ∧ P a b) :
    ∃ out, l.mapM f = .ok out ∧ List.Forall₂ P l out := by
  induction l with
  | nil => exact ⟨[], rfl, .nil⟩
  | cons a l ih =>
    obtain ⟨b, hb, hP⟩ := h a List.mem_cons_self
    obtain ⟨out, hout, hall⟩ := ih fun a' ha' ↦ h a' (List.mem_cons_of_mem _ ha')
    refine ⟨b :: out, ?_, .cons hP hall⟩
    rw [List.mapM_cons, hb, hout]
    rfl

theorem mapError_eq_ok {f : ε → ε'} {a : α} (h : x.mapError f = .ok a) : x = .ok a := by
  cases x with
  | error e => cases h
  | ok b => exact congrArg Except.ok (Except.ok.inj h)

theorem map_eq_ok {f : α → β} {b : β} (h : x.map f = .ok b) : ∃ a, x = .ok a ∧ f a = b := by
  cases x with
  | error e => cases h
  | ok a => exact ⟨a, rfl, Except.ok.inj h⟩

end Runvane.Library
