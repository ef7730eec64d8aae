import Runvane.Domain.Ids

/-!
# Ids with more than one text

The parsers of `domain/ids.rs` decode the body of an id and throw the payload away. The decoder
writes a byte for every eight bits and drops what is left of the last digits, so a body is more than
its payload says. In terms of numbers: the payload is the number that the digits spell, without the
bits that are left over (`decodeLoop_spells`).

A body is the encoding of its payload exactly if its last digit is needed and the bits it leaves
over are zero (`NoSpareBits`, `roundTrips_iff`). Among such bodies the payload determines the id. In
general it does not: every accepted id has an alias, another accepted id with the same payload
(`exists_alias`).
-/

set_option autoImplicit false

namespace Runvane.Domain

open Library

/-! ### Bodies with one payload -/

/-- Digits are determined by their values. -/
theorem map_b32digit_valuesOf {chars : List Char} (hvalid : ∀ ch ∈ chars, b32value ch ≠ none) :
    (valuesOf chars).map b32digit = chars := by
  rw [valuesOf, List.map_map]
  refine (List.map_congr_left fun ch hch ↦ ?_).trans (List.map_id chars)
  obtain ⟨value, hvalue⟩ := Option.ne_none_iff_exists'.mp (hvalid ch hch)
  simp only [Function.comp_apply, hvalue, Option.getD_some]
  exact (b32digit_of_value hvalue).2

/-- Two bodies have the same payload if they spell the same number, as far as it is kept. -/
theorem decodeLoop_eq_of_spells {first second : List Char} {out : List UInt8}
    (hfirst : ∀ ch ∈ first, b32value ch ≠ none) (hsecond : ∀ ch ∈ second, b32value ch ≠ none)
    (hlength : 5 * first.length / 8 = 5 * second.length / 8)
    (hvalue : groupsValue 5 (valuesOf first) / 2 ^ (5 * first.length % 8) =
      groupsValue 5 (valuesOf second) / 2 ^ (5 * second.length % 8))
    (hout : decodeLoop .empty first = .ok out) : decodeLoop .empty second = .ok out := by
  obtain ⟨out₁, hout₁, hlength₁, hvalue₁⟩ := decodeLoop_spells hfirst
  obtain ⟨out₂, hout₂, hlength₂, hvalue₂⟩ := decodeLoop_spells hsecond
  obtain rfl : out₁ = out := Except.ok.inj (hout₁.symm.trans hout)
  obtain rfl : out₂ = out₁ := bytes_ext (by rw [hlength₁, hlength₂, hlength])
    (by rw [hvalue₁, hvalue₂, hvalue])
  exact hout₂

/-! ### Bodies that are encodings -/

/-- Nothing is left over at the end of a body: its last digit is needed, which leaves fewer than
five bits over, and these are zero. -/
def NoSpareBits (body : List Char) : Prop :=
  5 * body.length % 8 < 5 ∧
    ∀ ch ∈ body.getLast?, ∀ g ∈ b32value ch, g % 2 ^ (5 * body.length % 8) = 0

instance (body : List Char) : Decidable (NoSpareBits body) :=
  inferInstanceAs (Decidable (_ ∧ _))

/-- The bits left over are those of the last digit. -/
theorem noSpareBits_iff {body : List Char} (hvalid : ∀ ch ∈ body, b32value ch ≠ none) :
    NoSpareBits body ↔ 5 * body.length % 8 < 5 ∧
      2 ^ (5 * body.length % 8) ∣ groupsValue 5 (valuesOf body) := by
  refine and_congr_right fun hlt ↦ ?_
  cases body using List.reverseRecOn with
  | nil => simp [valuesOf]
  | append_singleton front ch =>
    obtain ⟨g, hg⟩ := Option.ne_none_iff_exists'.mp (hvalid ch (by simp))
    have hvalues : valuesOf (front ++ [ch]) = valuesOf front ++ [g] := by simp [valuesOf, hg]
    have hlow : (2 : ℕ) ^ (5 * (front ++ [ch]).length % 8) ∣
        groupsValue 5 (valuesOf front) * 2 ^ 5 :=
      Dvd.dvd.mul_left (pow_dvd_pow 2 hlt.le) _
    rw [hvalues, groupsValue_append]
    simp only [List.getLast?_append, List.getLast?_singleton, Option.some_or, Option.mem_some_iff,
      forall_eq', hg]
    simp only [groupsValue_cons, groupsValue_nil, List.length_singleton, List.length_nil,
      Nat.mul_zero, pow_zero, Nat.mul_one, Nat.add_zero]
    rw [(Nat.dvd_add_iff_right hlow).symm, Nat.dvd_iff_mod_eq_zero]

/-- A text of digits is the encoding of bytes if the digits have the values that are encoded. -/
theorem encodeBase32hex_eq_iff {body : List Char} (hvalid : ∀ ch ∈ body, b32value ch ≠ none)
    (src : List UInt8) :
    encodeBase32hex src = String.ofList body ↔ digitsOf src = valuesOf body := by
  unfold encodeBase32hex
  constructor
  · intro h
    rw [← String.ofList_injective h, valuesOf_map_b32digit (digitsOf_lt src)]
  · intro h
    rw [h, map_b32digit_valuesOf hvalid]

/-- A body is the encoding of its payload exactly if nothing is left over at its end. -/
theorem encode_decodeLoop_iff {body : List Char} {payload : List UInt8}
    (hvalid : ∀ ch ∈ body, b32value ch ≠ none) (hpayload : decodeLoop .empty body = .ok payload) :
    encodeBase32hex payload = String.ofList body ↔ NoSpareBits body := by
  obtain ⟨out, hout, hlength, hvalue⟩ := decodeLoop_spells hvalid
  obtain rfl : out = payload := Except.ok.inj (hout.symm.trans hpayload)
  obtain ⟨pad, hpad, hdigits, hspelled⟩ := digitsOf_value out
  have hvalues : (valuesOf body).length = body.length := List.length_map _
  rw [encodeBase32hex_eq_iff hvalid, noSpareBits_iff hvalid]
  constructor
  · intro h
    rw [h, hvalues] at hdigits
    have hspare : 5 * body.length % 8 = pad := by omega
    rw [← h, hspelled, hspare]
    exact ⟨hpad, Dvd.intro_left _ rfl⟩
  · rintro ⟨hlt, hdvd⟩
    have hspare : 5 * body.length % 8 = pad := by omega
    refine groupsValue_inj (by norm_num) (by omega) (digitsOf_lt out) (valuesOf_lt body) ?_
    rw [hspelled, hvalue, hspare]
    rw [hspare] at hdvd
    exact Nat.div_mul_cancel hdvd

/-! ### Aliases -/

/-- Another digit at the end, or one more, which the payload does not show. -/
theorem exists_same_payload {body : List Char} {payload : List UInt8} (hne : body ≠ [])
    (hvalid : ∀ ch ∈ body, b32value ch ≠ none) (hpayload : decodeLoop .empty body = .ok payload) :
    ∃ other, other ≠ body ∧ other ≠ [] ∧ decodeLoop .empty other = .ok payload := by
  by_cases hspare : 5 * body.length % 8 = 0
  · -- the last digit ends with a byte, and another digit begins a byte that is not written
    have hvalid' : ∀ ch ∈ body ++ ['0'], b32value ch ≠ none := by
      intro ch hch
      rcases List.mem_append.mp hch with hch | hch
      · exact hvalid ch hch
      · obtain rfl := List.mem_singleton.mp hch
        decide
    have hvalues : valuesOf (body ++ ['0']) = valuesOf body ++ [0] := by
      rw [valuesOf, List.map_append]
      rfl
    have hlength : (body ++ ['0']).length = body.length + 1 := by simp
    refine ⟨body ++ ['0'], by simp, by simp,
      decodeLoop_eq_of_spells hvalid hvalid' (by omega) ?_ hpayload⟩
    have hrest : 5 * (body.length + 1) % 8 = 5 := by omega
    rw [hvalues, groupsValue_append, hlength, hspare, hrest]
    simp [groupsValue_cons]
  · -- the last bit of the last digit is left over
    obtain ⟨front, ch, rfl⟩ := (List.eq_nil_or_concat' body).resolve_left hne
    obtain ⟨g, hg⟩ := Option.ne_none_iff_exists'.mp (hvalid ch (by simp))
    obtain ⟨hlt, hdigit⟩ := b32digit_of_value hg
    let flipped := 2 * (g / 2) + (1 - g % 2)
    have hflipped : flipped < 2 ^ 5 := by simp only [flipped]; omega
    have hvalue : b32value (b32digit flipped) = some flipped := b32value_b32digit _ hflipped
    have hvalid' : ∀ ch ∈ front ++ [b32digit flipped], b32value ch ≠ none := by
      intro ch' hch'
      rcases List.mem_append.mp hch' with hch' | hch'
      · exact hvalid ch' (List.mem_append_left _ hch')
      · obtain rfl := List.mem_singleton.mp hch'
        simp [hvalue]
    refine ⟨front ++ [b32digit flipped], ?_, by simp,
      decodeLoop_eq_of_spells hvalid hvalid' (by simp) ?_ hpayload⟩
    · intro hsame
      have hdigits : b32digit flipped = ch := by simpa using hsame
      rw [hdigits, hg] at hvalue
      have hfixed : g = flipped := Option.some.inj hvalue
      simp only [flipped] at hfixed
      omega
    · have hpow : (2 : ℕ) ^ (5 * (front ++ [ch]).length % 8) =
          2 * 2 ^ (5 * (front ++ [ch]).length % 8 - 1) := by
        rw [← pow_succ']
        congr 1
        omega
      have hlength : (front ++ [b32digit flipped]).length = (front ++ [ch]).length := by simp
      have hvalues : valuesOf (front ++ [ch]) = valuesOf front ++ [g] := by simp [valuesOf, hg]
      have hvalues' : valuesOf (front ++ [b32digit flipped]) = valuesOf front ++ [flipped] := by
        simp [valuesOf, hvalue]
      rw [hlength, hpow, ← Nat.div_div_eq_div_mul, ← Nat.div_div_eq_div_mul, hvalues, hvalues',
        groupsValue_append, groupsValue_append]
      congr 1
      simp only [groupsValue_cons, groupsValue_nil, List.length_singleton, List.length_nil,
        Nat.mul_zero, pow_zero, Nat.mul_one, Nat.add_zero, flipped]
      omega

section Accepted

variable {kind : IdKind} {body other : String} {payload : List UInt8}

def Carries (kind : IdKind) (body : String) (payload : List UInt8) : Prop :=
  Id.parse kind (kind.idPrefix ++ body) = .ok ⟨kind.idPrefix ++ body⟩ ∧
    decodeBase32hex body kind.maxPayload = .ok payload

instance (kind : IdKind) (body : String) (payload : List UInt8) :
    Decidable (Carries kind body payload) := inferInstanceAs (Decidable (_ ∧ _))

theorem utf8ByteSize_idPrefix (kind : IdKind) : kind.idPrefix.utf8ByteSize = 3 := by
  cases kind <;> rfl

theorem maxPayload_le (kind : IdKind) : kind.maxPayload ≤ 26 := by
  cases kind <;> decide

/-- The parser decides on the payload alone: its length keeps the text short enough. -/
theorem carries_iff : Carries kind body payload ↔ body.toList ≠ [] ∧
    decodeLoop .empty body.toList = .ok payload ∧ payload.length ≤ kind.maxPayload := by
  unfold Carries
  rw [Id.parse_append_eq_ok, decodeBase32hex_eq_ok]
  constructor
  · exact fun h ↦ h.2
  · rintro ⟨hne, hloop, hshort⟩
    refine ⟨⟨?_, payload, decodeBase32hex_eq_ok.mpr ⟨hne, hloop, hshort⟩⟩, hne, hloop, hshort⟩
    have hvalid := valid_of_decodeLoop hloop
    obtain ⟨out, hout, hlength, -⟩ := decodeLoop_spells hvalid
    obtain rfl : out = payload := Except.ok.inj (hout.symm.trans hloop)
    have hmax := maxPayload_le kind
    have hsize := utf8ByteSize_of_valid hvalid
    rw [String.ofList_toList] at hsize
    rw [String.utf8ByteSize_append, utf8ByteSize_idPrefix, hsize]
    unfold maxIdLen
    omega

/-- What an accepted id is made of. -/
theorem exists_carries {value : String} {id : Id kind} (h : Id.parse kind value = .ok id) :
    ∃ body payload, value = kind.idPrefix ++ body ∧ Carries kind body payload := by
  obtain ⟨rfl, chars, hchars, -⟩ := Id.chars_of_parse h
  have hvalue : id.text = kind.idPrefix ++ String.ofList chars := by
    rw [← String.toList_inj, hchars, String.toList_append, String.toList_ofList]
  have hparse : Id.parse kind (kind.idPrefix ++ String.ofList chars) =
      .ok ⟨kind.idPrefix ++ String.ofList chars⟩ := by
    rw [← hvalue]
    exact h
  obtain ⟨-, payload, hpayload⟩ := (Id.parse_append_eq_ok kind _).mp hparse
  exact ⟨String.ofList chars, payload, hvalue, hparse, hpayload⟩

/-- The encoding of the payload is the body exactly if nothing is left over at its end. -/
theorem Carries.encode_eq_iff (h : Carries kind body payload) :
    encodeBase32hex payload = body ↔ NoSpareBits body.toList := by
  obtain ⟨-, hloop, -⟩ := carries_iff.mp h
  rw [← encode_decodeLoop_iff (valid_of_decodeLoop hloop) hloop, String.ofList_toList]

/-- Every accepted id has an alias. -/
theorem Carries.exists_alias (h : Carries kind body payload) :
    ∃ other, other ≠ body ∧ Carries kind other payload := by
  obtain ⟨hne, hloop, hshort⟩ := carries_iff.mp h
  obtain ⟨other, hother, hne', hloop'⟩ :=
    exists_same_payload hne (valid_of_decodeLoop hloop) hloop
  refine ⟨String.ofList other, ?_, carries_iff.mpr ?_⟩
  · rintro rfl
    simp at hother
  · rw [String.toList_ofList]
    exact ⟨hne', hloop', hshort⟩

/-- An accepted id is the encoding of its payload exactly if nothing is left over at the end of its
body. Among such ids the payload determines the id, but every accepted id has an alias. -/
theorem roundTrips_iff {value : String} {id : Id kind} (h : Id.parse kind value = .ok id) :
    ∃ body payload, value = kind.idPrefix ++ body ∧ Carries kind body payload ∧
      (encodeBase32hex payload = body ↔ NoSpareBits body.toList) ∧
      (∃ other, other ≠ body ∧ Carries kind other payload) ∧
      ∀ other, Carries kind other payload → NoSpareBits body.toList → NoSpareBits other.toList →
        other = body := by
  obtain ⟨body, payload, hvalue, hcarries⟩ := exists_carries h
  refine ⟨body, payload, hvalue, hcarries, hcarries.encode_eq_iff, hcarries.exists_alias, ?_⟩
  intro other hother hbody hspare
  exact (hother.encode_eq_iff.mpr hspare).symm.trans (hcarries.encode_eq_iff.mpr hbody)

theorem roundTrips_iff_sample :
    ∃ body payload, "rn_04" = IdKind.idPrefix .run ++ body ∧ Carries .run body payload ∧
      (encodeBase32hex payload = body ↔ NoSpareBits body.toList) ∧
      (∃ other, other ≠ body ∧ Carries .run other payload) ∧
      ∀ other, Carries .run other payload → NoSpareBits body.toList → NoSpareBits other.toList →
        other = body :=
  @roundTrips_iff .run "rn_04" ⟨"rn_04"⟩ (by decide)

/-- Two run ids with the same payload, of which only the first is its encoding. -/
theorem aliased_runs :
    Id.parse .run "rn_00" = .ok ⟨"rn_00"⟩ ∧ Id.parse .run "rn_01" = .ok ⟨"rn_01"⟩ ∧
    decodeBase32hex "00" (IdKind.maxPayload .run) = .ok [0] ∧
    decodeBase32hex "01" (IdKind.maxPayload .run) = .ok [0] ∧
    encodeBase32hex [0] = "00" ∧ encodeBase32hex [0] ≠ "01" := by
  decide

end Accepted

end Runvane.Domain
