import Mathlib.Data.Nat.Digits.Lemmas
import Mathlib.Data.Nat.Bitwise
import Mathlib.Tactic.Ring

/-!
# Regrouping a bit stream through a shift register

Base-32 and base-64 codecs read groups of one width and write groups of another. They share one
loop: a group is shifted into a 64-bit register from below, and groups of the output width leave
it from above while it holds enough bits. This module gives that loop for arbitrary widths
(`Register.repack`) and its one arithmetic law: read as a number, what has been written, followed
by what the register still holds, is what was held at first followed by what was read
(`Register.repack_spelled`). The bits already written stay in the register above the held ones and
fall off its top, so the law is about `Register.pending`, the held bits alone.
-/

set_option autoImplicit false

namespace Runvane.Library

/-- The number a list of `w`-bit groups spells, most significant group first. -/
def groupsValue (w : ℕ) (groups : List ℕ) : ℕ := Nat.ofDigits (2 ^ w) groups.reverse

@[simp] theorem groupsValue_nil (w : ℕ) : groupsValue w [] = 0 := rfl

theorem groupsValue_append (w : ℕ) (front back : List ℕ) :
    groupsValue w (front ++ back) =
      groupsValue w front * 2 ^ (w * back.length) + groupsValue w back := by
  unfold groupsValue
  rw [List.reverse_append, Nat.ofDigits_append, List.length_reverse, pow_mul]
  ring

theorem groupsValue_cons (w g : ℕ) (groups : List ℕ) :
    groupsValue w (g :: groups) = g * 2 ^ (w * groups.length) + groupsValue w groups := by
  have h := groupsValue_append w [g] groups
  simpa [groupsValue] using h

variable {w : ℕ}

/-- Groups of one width and number are determined by the number they spell. -/
theorem groupsValue_inj {first second : List ℕ} (hw : 0 < w)
    (hlength : first.length = second.length) (hfirst : ∀ g ∈ first, g < 2 ^ w)
    (hsecond : ∀ g ∈ second, g < 2 ^ w) (hvalue : groupsValue w first = groupsValue w second) :
    first = second := by
  have hbase : 1 < 2 ^ w := Nat.one_lt_two_pow (by omega)
  have hreverse := Nat.ofDigits_inj_of_len_eq hbase (by simpa using hlength)
    (fun g hg ↦ hfirst g (List.mem_reverse.mp hg)) (fun g hg ↦ hsecond g (List.mem_reverse.mp hg))
    hvalue
  exact List.reverse_injective hreverse

/-- A 64-bit shift register and the number of bits at its bottom that are still to be written. -/
structure Register where
  buffer : ℕ
  bits : ℕ

variable {r : Register}

namespace Register

/-- The register a codec starts with. -/
def empty : Register := ⟨0, 0⟩

/-- The bits still to be written, as a number. -/
def pending (r : Register) : ℕ := r.buffer % 2 ^ r.bits

/-- Shifts a `w`-bit group in from below; bits above the 64th are lost. -/
def shiftIn (w g : ℕ) (r : Register) : Register :=
  ⟨(r.buffer <<< w) % 2 ^ 64 ||| g, r.bits + w⟩

/-- Writes `w`-bit groups from above while at least `w` bits are held, in at most `fuel` turns. -/
def drain (w : ℕ) : ℕ → Register → List ℕ × Register
  | 0, r => ([], r)
  | fuel + 1, r =>
    if w ≤ r.bits then
      let r' : Register := ⟨r.buffer, r.bits - w⟩
      let rest := drain w fuel r'
      (((r.buffer >>> r'.bits) &&& (2 ^ w - 1)) :: rest.1, rest.2)
    else ([], r)

/-- Reads `win`-bit groups and writes `wout`-bit groups. -/
def repack (win wout : ℕ) : Register → List ℕ → List ℕ × Register
  | r, [] => ([], r)
  | r, g :: groups =>
    let step := drain wout (r.bits + win) (r.shiftIn win g)
    let rest := repack win wout step.2 groups
    (step.1 ++ rest.1, rest.2)

/-- A group shifted in joins the held bits at the bottom, as long as they fit the register. -/
theorem pending_shiftIn {g : ℕ} (hg : g < 2 ^ w) (hfit : r.bits + w ≤ 64) :
    (r.shiftIn w g).pending = r.pending * 2 ^ w + g := by
  have hsplit : (2 : ℕ) ^ 64 = 2 ^ (64 - w) * 2 ^ w := by
    rw [← pow_add]
    congr 1
    omega
  have hkept : (r.buffer <<< w) % 2 ^ 64 = (r.buffer % 2 ^ (64 - w)) <<< w := by
    rw [Nat.shiftLeft_eq, Nat.shiftLeft_eq, hsplit, Nat.mul_mod_mul_right]
  have hlow : r.buffer % 2 ^ (64 - w) % 2 ^ r.bits = r.buffer % 2 ^ r.bits :=
    Nat.mod_mod_of_dvd _ (pow_dvd_pow 2 (by omega))
  simp only [pending, shiftIn]
  rw [hkept, ← Nat.shiftLeft_add_eq_or_of_lt hg, Nat.shiftLeft_eq, pow_add,
    Nat.mul_comm (2 ^ r.bits), Nat.mod_mul, Nat.mul_add_mod_of_lt hg,
    Nat.mul_comm (r.buffer % 2 ^ (64 - w)), Nat.mul_add_div (by positivity),
    Nat.div_eq_of_lt hg, Nat.add_zero, hlow]
  ring

/-- Writing one group takes it off the top of the held bits. -/
theorem pending_eq_top (hw : w ≤ r.bits) :
    r.pending = ((r.buffer >>> (r.bits - w)) &&& (2 ^ w - 1)) * 2 ^ (r.bits - w) +
      (⟨r.buffer, r.bits - w⟩ : Register).pending := by
  have hbits : r.bits = (r.bits - w) + w := by omega
  rw [Nat.and_two_pow_sub_one_eq_mod, Nat.shiftRight_eq_div_pow]
  simp only [pending]
  conv_lhs => rw [hbits, pow_add, Nat.mod_mul]
  ring

/-- `out` has been written for `bits` bits that spell `value`: groups of width `w`, followed by
fewer than `w` bits that the register still holds. -/
structure Spelled (w bits value : ℕ) (out : List ℕ × Register) : Prop where
  bits_eq : bits = w * out.1.length + out.2.bits
  bits_lt : out.2.bits < w
  group_lt : ∀ g ∈ out.1, g < 2 ^ w
  value_eq : value = groupsValue w out.1 * 2 ^ out.2.bits + out.2.pending

/-- Groups written first, then what was held afterwards together with `bits` further bits. -/
theorem Spelled.append {bits more value tail : ℕ} {first : List ℕ × Register}
    {second : List ℕ × Register} (hfirst : Spelled w bits value first)
    (hsecond : Spelled w (first.2.bits + more) (first.2.pending * 2 ^ more + tail) second) :
    Spelled w (bits + more) (value * 2 ^ more + tail) (first.1 ++ second.1, second.2) where
  bits_eq := by
    rw [List.length_append, Nat.mul_add, hfirst.bits_eq, Nat.add_assoc, hsecond.bits_eq]
    ring
  bits_lt := hsecond.bits_lt
  group_lt := fun g hg ↦ (List.mem_append.mp hg).elim (hfirst.group_lt g) (hsecond.group_lt g)
  value_eq := by
    calc value * 2 ^ more + tail
        = groupsValue w first.1 * 2 ^ (first.2.bits + more) +
            (first.2.pending * 2 ^ more + tail) := by
          rw [hfirst.value_eq, pow_add]
          ring
      _ = groupsValue w first.1 * 2 ^ (w * second.1.length + second.2.bits) +
            (groupsValue w second.1 * 2 ^ second.2.bits + second.2.pending) := by
          rw [hsecond.bits_eq, hsecond.value_eq]
      _ = groupsValue w (first.1 ++ second.1) * 2 ^ second.2.bits + second.2.pending := by
          rw [groupsValue_append, pow_add]
          ring

theorem drain_of_lt (fuel : ℕ) (h : r.bits < w) : drain w fuel r = ([], r) := by
  cases fuel with
  | zero => rfl
  | succ fuel => simp only [drain, if_neg (not_le.mpr h)]

/-- A register that holds one group and less than another writes this group. -/
theorem drain_one {fuel : ℕ} (hw : w ≤ r.bits) (hbits : r.bits - w < w) (hfuel : 0 < fuel) :
    drain w fuel r =
      ([(r.buffer >>> (r.bits - w)) &&& (2 ^ w - 1)], ⟨r.buffer, r.bits - w⟩) := by
  obtain ⟨fuel, rfl⟩ := Nat.exists_eq_succ_of_ne_zero hfuel.ne'
  simp only [drain, if_pos hw]
  rw [drain_of_lt fuel (by exact hbits)]

/-- What `drain` does: it writes what the register holds, down to less than a group. -/
theorem drain_spelled (hw : 0 < w) (fuel : ℕ) (r : Register) (hfuel : r.bits ≤ fuel) :
    Spelled w r.bits r.pending (drain w fuel r) := by
  induction fuel generalizing r with
  | zero =>
    have hzero : r.bits = 0 := by omega
    exact ⟨by simp [drain], by simp [drain, hzero, hw], by simp [drain], by simp [drain]⟩
  | succ fuel ih =>
    by_cases hheld : w ≤ r.bits
    · have hrest := ih ⟨r.buffer, r.bits - w⟩ (by simp only; omega)
      simp only [drain, if_pos hheld]
      generalize drain w fuel ⟨r.buffer, r.bits - w⟩ = rest at hrest ⊢
      refine ⟨?_, hrest.bits_lt, ?_, ?_⟩
      · have hbits := hrest.bits_eq
        simp only at hbits
        simp only [List.length_cons, Nat.mul_succ]
        omega
      · intro g hg
        rcases List.mem_cons.mp hg with rfl | hg
        · exact Nat.and_lt_two_pow _ (Nat.sub_lt (by positivity) one_pos)
        · exact hrest.group_lt g hg
      · rw [pending_eq_top hheld, hrest.value_eq, groupsValue_cons]
        generalize (r.buffer >>> (r.bits - w)) &&& (2 ^ w - 1) = top
        have hbits := hrest.bits_eq
        simp only at hbits
        rw [hbits, pow_add]
        ring
    · simp only [drain, if_neg hheld]
      exact ⟨by simp, by simpa using hheld, by simp, by simp⟩

/-- The law of regrouping. Assumes: a register that holds fewer bits than an output group, widths
that fit the register together, and input groups of their width. What is written, followed by what
is held in the end, spells what was held at first followed by what was read. -/
theorem repack_spelled (win wout : ℕ) (hwout : 0 < wout) (hfit : wout + win ≤ 64)
    (groups : List ℕ) (r : Register) (hheld : r.bits < wout)
    (hgroups : ∀ g ∈ groups, g < 2 ^ win) :
    Spelled wout (r.bits + win * groups.length)
      (r.pending * 2 ^ (win * groups.length) + groupsValue win groups)
      (repack win wout r groups) := by
  induction groups generalizing r with
  | nil =>
    exact ⟨by simp [repack], by simpa [repack] using hheld, by simp [repack], by simp [repack]⟩
  | cons g groups ih =>
    have hg : g < 2 ^ win := hgroups g List.mem_cons_self
    have hstep := drain_spelled hwout (r.bits + win) (r.shiftIn win g) (le_refl _)
    rw [pending_shiftIn hg (by omega)] at hstep
    have hrest := ih _ hstep.bits_lt fun g' hg' ↦ hgroups g' (List.mem_cons_of_mem _ hg')
    have hboth := hstep.append hrest
    simp only [repack]
    convert hboth using 1
    · simp only [shiftIn, List.length_cons, Nat.mul_succ]
      ring
    · rw [groupsValue_cons, List.length_cons, Nat.mul_succ, pow_add]
      ring

end Register

end Runvane.Library
