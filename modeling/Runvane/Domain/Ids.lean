import Mathlib
import Runvane.Library.BitRepack

/-!
# Typed identifiers

`domain/ids.rs` addresses every entity by a prefixed string whose body is lowercase base32hex. The
code defines the id types by one macro; here they are one type `Id` over the kinds, with `RunId`
and `TaskRunId` as members. `parse` is the checked constructor; values already known to be valid
are built directly, as `from_validated` does.

The encoder reads bytes and writes 5-bit groups through a 64-bit register, so its law is the law of
regrouping: as a number the digits spell the bytes, shifted up by the padding of the last digit
(`digitsOf_value`). The decoder regroups them in the other direction and drops the bits that are
left over (`decodeLoop_spells`), so it gives back what was encoded (`base32hex_round_trip`). Hence
the encoder is injective, and the task runs of one run have distinct ids for distinct task names
(`taskRunId_injective`). An accepted run id has no colon, so the id of a task run determines its run
as well (`taskRunId_injective_of_colon`).

What the parsers accept is a matter of length. The id of a task run carries the text of its run id
inside its own payload, and is accepted only while both names are short (`parse_taskRunId_iff`).
-/

set_option autoImplicit false

namespace Runvane.Domain

open Library

/-! ### Base32hex -/

/-- The base32hex alphabet. -/
def b32hex : List Char := "0123456789abcdefghijklmnopqrstuv".toList

/-- The character of a 5-bit group. -/
def b32digit (g : ℕ) : Char := b32hex.getD g '0'

/-- The 5-bit groups `encode_base32hex` writes for a byte string: those that leave the register
while bytes are read, and a last one, filled up with zero bits, when bits are left over. -/
def digitsOf (src : List UInt8) : List ℕ :=
  let out := Register.repack 8 5 Register.empty (src.map UInt8.toNat)
  if 0 < out.2.bits then
    out.1 ++ [((out.2.buffer <<< (5 - out.2.bits)) % 2 ^ 64) &&& 0x1f]
  else out.1

/-- Encodes bytes as lowercase base32hex without padding. -/
def encodeBase32hex (src : List UInt8) : String := String.ofList ((digitsOf src).map b32digit)

/-- Why an id is malformed; the code carries the text. -/
inductive MalformedReason
  | emptyIdBody
  | invalidCharacter (ch : Char)
  | missingIdBody
  | nameLength (limit : ℕ)
  | nameStart
  | nameCharacters
  | emptyDotSegment
  | trailingDot
  deriving DecidableEq, Repr

/-- Errors produced while parsing an identifier. -/
inductive IdError
  | wrongPrefix (id expected : String)
  | malformed (kind id : String) (reason : MalformedReason)
  | tooLong (id : String) (limit : ℕ)
  deriving DecidableEq, Repr

/-- The value of a base32hex character. -/
def b32value (ch : Char) : Option ℕ :=
  if '0' ≤ ch ∧ ch ≤ '9' then some (ch.toNat - '0'.toNat)
  else if 'a' ≤ ch ∧ ch ≤ 'v' then some (ch.toNat - 'a'.toNat + 10)
  else none

/-- The loop of `decode_base32hex`: the bytes written from a register on, or the first character
that is not in the alphabet. -/
def decodeLoop : Register → List Char → Except Char (List UInt8)
  | _, [] => .ok []
  | r, ch :: rest =>
    match b32value ch with
    | none => .error ch
    | some value =>
      let r' := r.shiftIn 5 value
      if 8 ≤ r'.bits then
        match decodeLoop ⟨r'.buffer, r'.bits - 8⟩ rest with
        | .ok out => .ok (UInt8.ofNat (r'.buffer >>> (r'.bits - 8)) :: out)
        | .error bad => .error bad
      else decodeLoop r' rest

/-- Decodes a base32hex string, rejecting invalid characters and results over `maxBytes`. -/
def decodeBase32hex (input : String) (maxBytes : ℕ) : Except IdError (List UInt8) :=
  if input.isEmpty then .error (.malformed "entity" input .emptyIdBody)
  else
    match decodeLoop Register.empty input.toList with
    | .error ch => .error (.malformed "entity" input (.invalidCharacter ch))
    | .ok out => if maxBytes < out.length then .error (.tooLong input maxBytes) else .ok out

variable (src : List UInt8) {chars : List Char} {out : List UInt8} {value : String}

theorem digitsOf_lt : ∀ g ∈ digitsOf src, g < 2 ^ 5 := by
  have hout := Register.repack_spelled 8 5 (by norm_num) (by norm_num)
    (src.map UInt8.toNat) Register.empty (by simp [Register.empty])
    (by simpa using fun b _ ↦ UInt8.toNat_lt b)
  intro g hg
  simp only [digitsOf] at hg
  split_ifs at hg with hbits
  · rcases List.mem_append.mp hg with hg | hg
    · exact hout.group_lt g hg
    · rw [List.mem_singleton.mp hg]
      exact Nat.and_lt_two_pow _ (by norm_num)
  · exact hout.group_lt g hg

/-- The digits of a byte string spell its bytes, followed by fewer than five zero bits. -/
theorem digitsOf_value : ∃ pad < 5,
    5 * (digitsOf src).length = 8 * src.length + pad ∧
      groupsValue 5 (digitsOf src) = groupsValue 8 (src.map UInt8.toNat) * 2 ^ pad := by
  have hout := Register.repack_spelled 8 5 (by norm_num) (by norm_num)
    (src.map UInt8.toNat) Register.empty (by simp [Register.empty])
    (by simpa using fun b _ ↦ UInt8.toNat_lt b)
  have hbits := hout.bits_eq
  have hlt := hout.bits_lt
  have hvalue := hout.value_eq
  have hempty : Register.empty.pending = 0 := by simp [Register.pending, Register.empty]
  have hnone : Register.empty.bits = 0 := rfl
  simp only [digitsOf]
  generalize Register.repack 8 5 Register.empty (src.map UInt8.toNat) = out at hbits hlt hvalue ⊢
  simp only [hempty, hnone, zero_mul, zero_add, List.length_map] at hbits hvalue
  split_ifs with hleft
  · refine ⟨5 - out.2.bits, by omega, by rw [List.length_append, List.length_singleton]; omega, ?_⟩
    have hlast : (out.2.buffer <<< (5 - out.2.bits)) % 2 ^ 64 &&& 0x1f =
        out.2.pending * 2 ^ (5 - out.2.bits) := by
      have hsplit : (2 : ℕ) ^ 5 = 2 ^ out.2.bits * 2 ^ (5 - out.2.bits) := by
        rw [← pow_add]
        congr 1
        omega
      rw [show (0x1f : ℕ) = 2 ^ 5 - 1 from rfl, Nat.and_two_pow_sub_one_eq_mod,
        Nat.mod_mod_of_dvd _ (pow_dvd_pow 2 (by norm_num)), Nat.shiftLeft_eq, hsplit,
        Nat.mul_mod_mul_right, Register.pending]
    have hfive : (2 : ℕ) ^ 5 = 2 ^ (5 - out.2.bits) * 2 ^ out.2.bits := by
      rw [← pow_add]
      congr 1
      omega
    rw [groupsValue_append, hlast, hvalue]
    simp only [groupsValue_cons, groupsValue_nil, List.length_singleton, List.length_nil,
      Nat.mul_zero, Nat.mul_one, pow_zero, hfive]
    ring
  · have hzero : out.2.bits = 0 := by omega
    refine ⟨0, by norm_num, by omega, ?_⟩
    have hheld : out.2.pending = 0 := by simp [Register.pending, hzero, Nat.mod_one]
    rw [hvalue, hheld, hzero]
    ring

/-- Bytes are determined by their number and by how many they are. -/
theorem bytes_ext {first second : List UInt8} (hlength : first.length = second.length)
    (hvalue : groupsValue 8 (first.map UInt8.toNat) = groupsValue 8 (second.map UInt8.toNat)) :
    first = second := by
  have hbytes : first.map UInt8.toNat = second.map UInt8.toNat :=
    groupsValue_inj (by norm_num) (by simpa using hlength)
      (by simpa using fun b _ ↦ UInt8.toNat_lt b) (by simpa using fun b _ ↦ UInt8.toNat_lt b)
      hvalue
  exact List.map_injective_iff.mpr (fun _ _ hb ↦ UInt8.toNat_inj.mp hb) hbytes

theorem b32value_b32digit : ∀ g < 32, b32value (b32digit g) = some g := by
  decide

/-! ### What the decoder keeps -/

def valuesOf (chars : List Char) : List ℕ := chars.map fun ch ↦ (b32value ch).getD 0

/-- A value belongs to one digit. -/
theorem b32digit_of_value {ch : Char} {g : ℕ} (h : b32value ch = some g) :
    g < 2 ^ 5 ∧ b32digit g = ch := by
  have hdigits : ∀ n ≤ 57, 48 ≤ n → n - 48 < 32 ∧ b32digit (n - 48) = Char.ofNat n := by
    decide
  have hletters : ∀ n ≤ 118, 97 ≤ n → n - 97 + 10 < 32 ∧ b32digit (n - 97 + 10) = Char.ofNat n := by
    decide
  unfold b32value at h
  split_ifs at h with hdigit hletter
  · obtain rfl := Option.some.inj h
    have hsplit := hdigits ch.toNat (UInt32.le_iff_toNat_le.mp hdigit.2)
      (UInt32.le_iff_toNat_le.mp hdigit.1)
    rwa [Char.ofNat_toNat] at hsplit
  · obtain rfl := Option.some.inj h
    have hsplit := hletters ch.toNat (UInt32.le_iff_toNat_le.mp hletter.2)
      (UInt32.le_iff_toNat_le.mp hletter.1)
    rwa [Char.ofNat_toNat] at hsplit

theorem valuesOf_lt (chars : List Char) : ∀ g ∈ valuesOf chars, g < 2 ^ 5 := by
  intro g hg
  obtain ⟨ch, -, rfl⟩ := List.mem_map.mp hg
  cases hvalue : b32value ch with
  | none => simp
  | some value => exact (b32digit_of_value hvalue).1

theorem valuesOf_map_b32digit {digits : List ℕ} (hlt : ∀ g ∈ digits, g < 2 ^ 5) :
    valuesOf (digits.map b32digit) = digits := by
  rw [valuesOf, List.map_map]
  refine (List.map_congr_left fun g hg ↦ ?_).trans (List.map_id digits)
  simp [b32value_b32digit g (hlt g hg)]

theorem ofNat_and_255 (n : ℕ) : UInt8.ofNat (n &&& (2 ^ 8 - 1)) = UInt8.ofNat n := by
  rw [Nat.and_two_pow_sub_one_eq_mod]
  exact UInt8.toNat_inj.mp (by simp)

/-- The loop of the decoder regroups five bits into eight. -/
theorem decodeLoop_eq_repack {r : Register} (hheld : r.bits < 8)
    (hvalid : ∀ ch ∈ chars, b32value ch ≠ none) :
    decodeLoop r chars = .ok ((r.repack 5 8 (valuesOf chars)).1.map UInt8.ofNat) := by
  induction chars generalizing r with
  | nil => rfl
  | cons ch chars ih =>
    obtain ⟨value, hvalue⟩ := Option.ne_none_iff_exists'.mp (hvalid ch List.mem_cons_self)
    have hrest : ∀ ch ∈ chars, b32value ch ≠ none := fun ch hch ↦
      hvalid ch (List.mem_cons_of_mem _ hch)
    have hvalues : valuesOf (ch :: chars) = value :: valuesOf chars := by simp [valuesOf, hvalue]
    have hbits : (r.shiftIn 5 value).bits = r.bits + 5 := rfl
    rw [hvalues]
    simp only [decodeLoop, hvalue, Register.repack]
    split_ifs with hfull
    · rw [Register.drain_one hfull (by omega) (by omega)]
      have hnext := @ih ⟨(r.shiftIn 5 value).buffer, (r.shiftIn 5 value).bits - 8⟩
        (by dsimp only; omega) hrest
      rw [hnext]
      simp only [List.singleton_append, List.map_cons, ofNat_and_255]
    · rw [Register.drain_of_lt _ (by omega), ih (by omega) hrest]
      simp

/-- The payload is the number that the digits spell, without the bits that are left over. -/
theorem decodeLoop_spells (hvalid : ∀ ch ∈ chars, b32value ch ≠ none) :
    ∃ out, decodeLoop .empty chars = .ok out ∧ out.length = 5 * chars.length / 8 ∧
      groupsValue 8 (out.map UInt8.toNat) =
        groupsValue 5 (valuesOf chars) / 2 ^ (5 * chars.length % 8) := by
  have hspelled := Register.repack_spelled 5 8 (by norm_num) (by norm_num) (valuesOf chars)
    .empty (by decide) (valuesOf_lt chars)
  have hbits := hspelled.bits_eq
  have hlt := hspelled.bits_lt
  have hvalue := hspelled.value_eq
  have hgroups := hspelled.group_lt
  have hlength : (valuesOf chars).length = chars.length := List.length_map _
  have hempty : Register.empty.pending = 0 := rfl
  have hnone : Register.empty.bits = 0 := rfl
  rw [hnone, hlength] at hbits
  rw [hempty, zero_mul, zero_add] at hvalue
  refine ⟨_, decodeLoop_eq_repack (by decide) hvalid, ?_, ?_⟩
  · rw [List.length_map]
    omega
  · generalize Register.repack 5 8 .empty (valuesOf chars) = out at hbits hlt hvalue hgroups ⊢
    have hbytes : (out.1.map UInt8.ofNat).map UInt8.toNat = out.1 := by
      rw [List.map_map]
      refine (List.map_congr_left fun g hg ↦ ?_).trans (List.map_id _)
      exact Nat.mod_eq_of_lt (hgroups g hg)
    have hspare : 5 * chars.length % 8 = out.2.bits := by omega
    have hpending : out.2.pending < 2 ^ out.2.bits := Nat.mod_lt _ (by positivity)
    rw [hbytes, hspare, hvalue, Nat.add_comm, Nat.add_mul_div_right _ _ (by positivity),
      Nat.div_eq_of_lt hpending, Nat.zero_add]

/-- What the decoder accepts. -/
theorem decodeBase32hex_eq_ok {input : String} {maxBytes : ℕ} :
    decodeBase32hex input maxBytes = .ok out ↔
      input.toList ≠ [] ∧ decodeLoop .empty input.toList = .ok out ∧ out.length ≤ maxBytes := by
  unfold decodeBase32hex
  split_ifs with hempty
  · simp [String.isEmpty_iff.mp hempty]
  · have hne : input.toList ≠ [] := by simpa [String.isEmpty_iff] using hempty
    cases hloop : decodeLoop .empty input.toList with
    | error ch => simp
    | ok out' =>
      dsimp only
      split_ifs with hlong
      · simp only [Except.ok.injEq, false_iff]
        rintro ⟨-, rfl, hle⟩
        omega
      · simp only [Except.ok.injEq]
        constructor
        · rintro rfl
          exact ⟨hne, rfl, not_lt.mp hlong⟩
        · rintro ⟨-, rfl, -⟩
          rfl

theorem valid_digitsOf : ∀ ch ∈ (digitsOf src).map b32digit, b32value ch ≠ none := by
  intro ch hch
  obtain ⟨g, hg, rfl⟩ := List.mem_map.mp hch
  simp [b32value_b32digit g (digitsOf_lt src g hg)]

/-- The decoder writes the bytes that were encoded: the padding of the last digit is less than a
byte, and is dropped. -/
theorem decodeLoop_digitsOf : decodeLoop .empty ((digitsOf src).map b32digit) = .ok src := by
  obtain ⟨pad, hpad, hlength, hvalue⟩ := digitsOf_value src
  obtain ⟨out, hout, hbytes, hspelled⟩ := decodeLoop_spells (valid_digitsOf src)
  rw [valuesOf_map_b32digit (digitsOf_lt src), List.length_map] at hspelled
  rw [List.length_map] at hbytes
  have hspare : 5 * (digitsOf src).length % 8 = pad := by omega
  rw [hout, bytes_ext (by omega : out.length = src.length)]
  rw [hspelled, hspare, hvalue, Nat.mul_div_cancel _ (by positivity)]

theorem encodeBase32hex_ne_nil {src : List UInt8} (hsrc : src ≠ []) :
    (encodeBase32hex src).toList ≠ [] := by
  obtain ⟨pad, hpad, hlength, -⟩ := digitsOf_value src
  have hpos : 0 < src.length := List.length_pos_iff.mpr hsrc
  rw [encodeBase32hex, String.toList_ofList, ← List.length_pos_iff, List.length_map]
  omega

/-- An encoding is decoded to what was encoded, up to the limit. -/
theorem decodeBase32hex_encodeBase32hex {src : List UInt8} (hsrc : src ≠ []) {maxBytes : ℕ} :
    decodeBase32hex (encodeBase32hex src) maxBytes = .ok out ↔
      src = out ∧ src.length ≤ maxBytes := by
  have hloop : decodeLoop .empty (encodeBase32hex src).toList = .ok src := by
    rw [encodeBase32hex, String.toList_ofList, decodeLoop_digitsOf]
  rw [decodeBase32hex_eq_ok, hloop, Except.ok.injEq]
  constructor
  · rintro ⟨-, rfl, hle⟩
    exact ⟨rfl, hle⟩
  · rintro ⟨rfl, hle⟩
    exact ⟨encodeBase32hex_ne_nil hsrc, rfl, hle⟩

/-- Distinct byte strings have distinct encodings. -/
theorem encodeBase32hex_injective : Function.Injective encodeBase32hex := by
  intro first second h
  have hchars : (digitsOf first).map b32digit = (digitsOf second).map b32digit :=
    String.ofList_injective h
  have hout := decodeLoop_digitsOf first
  rw [hchars, decodeLoop_digitsOf] at hout
  exact (Except.ok.inj hout).symm

/-- Digits take one byte each. -/
theorem utf8ByteSize_of_valid (hvalid : ∀ ch ∈ chars, b32value ch ≠ none) :
    (String.ofList chars).utf8ByteSize = chars.length := by
  have hdigit : ∀ g < 32, (b32digit g).utf8Size = 1 := by decide
  rw [String.utf8ByteSize_ofList]
  induction chars with
  | nil => rfl
  | cons ch chars ih =>
    obtain ⟨g, hg⟩ := Option.ne_none_iff_exists'.mp (hvalid ch List.mem_cons_self)
    obtain ⟨hlt, rfl⟩ := b32digit_of_value hg
    have hrest := ih fun ch' hch' ↦ hvalid ch' (List.mem_cons_of_mem _ hch')
    rw [String.utf8Len_cons, hdigit g hlt, hrest, List.length_cons]

theorem utf8ByteSize_encodeBase32hex :
    (encodeBase32hex src).utf8ByteSize = (digitsOf src).length := by
  rw [encodeBase32hex, utf8ByteSize_of_valid (valid_digitsOf src), List.length_map]

/-- The round trip. An encoding has a digit for every five bits, the last one filled up, and is
decoded to the bytes that were encoded wherever they are not too many. -/
theorem base32hex_round_trip {src : List UInt8} (hsrc : src ≠ []) {maxBytes : ℕ}
    (hmax : src.length ≤ maxBytes) :
    (encodeBase32hex src).length = 8 * src.length ⌈/⌉ 5 ∧
    (∀ ch ∈ (encodeBase32hex src).toList, ('0' ≤ ch ∧ ch ≤ '9') ∨ ('a' ≤ ch ∧ ch ≤ 'v')) ∧
    decodeBase32hex (encodeBase32hex src) maxBytes = .ok src := by
  refine ⟨?_, ?_, (decodeBase32hex_encodeBase32hex hsrc).mpr ⟨rfl, hmax⟩⟩
  · obtain ⟨pad, hpad, hlength, -⟩ := digitsOf_value src
    rw [encodeBase32hex, String.length_ofList, List.length_map, Nat.ceilDiv_eq_add_pred_div]
    omega
  · intro ch hch
    rw [encodeBase32hex, String.toList_ofList] at hch
    have hvalid := valid_digitsOf src ch hch
    unfold b32value at hvalid
    split_ifs at hvalid with hdigit hletter
    · exact .inl hdigit
    · exact .inr hletter
    · exact absurd rfl hvalid

/-- Nine bytes, one more than the register holds at a time. -/
theorem base32hex_round_trip_nine :
    (encodeBase32hex (List.replicate 9 255)).length = 8 * 9 ⌈/⌉ 5 ∧
    (∀ ch ∈ (encodeBase32hex (List.replicate 9 255)).toList,
      ('0' ≤ ch ∧ ch ≤ '9') ∨ ('a' ≤ ch ∧ ch ≤ 'v')) ∧
    decodeBase32hex (encodeBase32hex (List.replicate 9 255)) 9 = .ok (List.replicate 9 255) :=
  base32hex_round_trip (by decide) (by decide)

/-! ### The id types -/

/-- The kinds of entity that `define_id!` is instantiated for. -/
inductive IdKind
  | workflow
  | run
  | taskRun
  | hook
  | token
  | compact
  | auditRecord
  deriving DecidableEq, Repr

namespace IdKind

/-- The required prefix of ids of the kind. -/
def idPrefix : IdKind → String
  | workflow => "wf_"
  | run => "rn_"
  | taskRun => "tr_"
  | hook => "hx_"
  | token => "tk_"
  | compact => "cs_"
  | auditRecord => "au_"

/-- The maximum payload length of the kind, in bytes. -/
def maxPayload : IdKind → ℕ
  | run | taskRun | auditRecord => 26
  | workflow | hook | token | compact => 24

/-- The kind's name in error texts. -/
def label : IdKind → String
  | workflow => "wf"
  | run => "run"
  | taskRun => "task"
  | hook => "hook"
  | token => "token"
  | compact => "compact"
  | auditRecord => "audit"

end IdKind

/-- Maximum supported length of any id, in bytes. -/
def maxIdLen : ℕ := 96

/-- An identifier of a kind of entity: a string that was validated, or is known to be valid. -/
structure Id (kind : IdKind) where
  text : String
  deriving DecidableEq, Repr

/-- Identifier of one submitted run. -/
abbrev RunId := Id .run

/-- Identifier of one task execution inside a run. -/
abbrev TaskRunId := Id .taskRun

namespace Id

variable {kind : IdKind}

instance : Ord (Id kind) := ⟨fun first second ↦ compare first.text second.text⟩

instance : Std.TransOrd (Id kind) where
  eq_swap {first second} := Std.OrientedOrd.eq_swap (a := first.text) (b := second.text)
  isLE_trans {first second third} := Std.TransOrd.isLE_trans (a := first.text) (b := second.text)
    (c := third.text)

instance : Std.LawfulEqOrd (Id kind) where
  eq_of_compare {first second} h := by
    cases first
    cases second
    exact congrArg Id.mk (Std.LawfulEqOrd.eq_of_compare (α := String) h)

def parse (kind : IdKind) (value : String) : Except IdError (Id kind) :=
  if ¬ kind.idPrefix.toList.isPrefixOf value.toList then
    .error (.wrongPrefix value kind.idPrefix)
  else
    let body := String.ofList (value.toList.drop kind.idPrefix.length)
    if maxIdLen < value.utf8ByteSize then .error (.tooLong value maxIdLen)
    else if body.isEmpty then .error (.malformed kind.label value .missingIdBody)
    else
      match decodeBase32hex body kind.maxPayload with
      | .error e => .error e
      | .ok _ => .ok ⟨value⟩

end Id

def utf8Bytes (s : String) : List UInt8 := s.toUTF8.data.toList

theorem utf8Bytes_injective : Function.Injective utf8Bytes := by
  intro first second h
  have hdata : first.toUTF8.data = second.toUTF8.data := Array.toList_inj.mp h
  exact String.toByteArray_inj.mp (ByteArray.ext hdata)

/-- The id of the task run of `(run, task)`: the encoded `run_id::task_name`. -/
def taskRunId (runId : RunId) (taskName : String) : TaskRunId :=
  ⟨"tr_" ++ encodeBase32hex (utf8Bytes (runId.text ++ "::" ++ taskName))⟩

/-- The task runs of one run are told apart by their task names. -/
theorem taskRunId_injective (runId : RunId) : Function.Injective (taskRunId runId) := by
  intro first second h
  have hbody := (String.append_right_inj _).mp (congrArg Id.text h)
  have hname := utf8Bytes_injective (encodeBase32hex_injective hbody)
  exact (String.append_right_inj _).mp hname

@[simp] theorem taskRunId_inj {runId : RunId} {first second : String} :
    taskRunId runId first = taskRunId runId second ↔ first = second :=
  (taskRunId_injective runId).eq_iff

def generateId (kind : IdKind) (uuid : List UInt8) : String := kind.idPrefix ++ encodeBase32hex uuid

/-! ### What the parsers accept -/

/-- What is decoded consists of characters of the alphabet. -/
theorem valid_of_decodeLoop {r : Register} (h : decodeLoop r chars = .ok out) :
    ∀ ch ∈ chars, b32value ch ≠ none := by
  induction chars generalizing r out with
  | nil => simp
  | cons ch chars ih =>
    simp only [decodeLoop] at h
    cases hvalue : b32value ch with
    | none => simp [hvalue] at h
    | some value =>
      simp only [hvalue] at h
      have hrest : ∃ (r' : Register) (out' : List UInt8), decodeLoop r' chars = .ok out' := by
        split_ifs at h
        · split at h
          · exact ⟨_, _, ‹_›⟩
          · cases h
        · exact ⟨_, _, h⟩
      obtain ⟨r', out', hout'⟩ := hrest
      intro ch' hch'
      rcases List.mem_cons.mp hch' with rfl | hmem
      · simp [hvalue]
      · exact ih hout' ch' hmem

theorem length_utf8Bytes (s : String) : (utf8Bytes s).length = s.utf8ByteSize := by
  simp [utf8Bytes]

/-- What the parser looks at behind the prefix. -/
theorem Id.parse_append_eq_ok (kind : IdKind) (body : String) :
    Id.parse kind (kind.idPrefix ++ body) = .ok ⟨kind.idPrefix ++ body⟩ ↔
      (kind.idPrefix ++ body).utf8ByteSize ≤ maxIdLen ∧
        ∃ out, decodeBase32hex body kind.maxPayload = .ok out := by
  have hlead : kind.idPrefix.toList.isPrefixOf (kind.idPrefix ++ body).toList = true := by
    rw [List.isPrefixOf_iff_prefix, String.toList_append]
    exact List.prefix_append _ _
  have hbody : String.ofList ((kind.idPrefix ++ body).toList.drop kind.idPrefix.length) = body := by
    rw [String.toList_append, ← String.length_toList, List.drop_left, String.ofList_toList]
  unfold Id.parse
  rw [hlead, hbody]
  simp only [not_true_eq_false, if_false]
  split_ifs with hlong hempty
  · simp only [false_iff, not_and]
    omega
  · rw [String.isEmpty_iff] at hempty
    simp [hempty, decodeBase32hex]
  · cases decodeBase32hex body kind.maxPayload with
    | error e => simp
    | ok out => simpa using hlong

/-- A generated id has 26 characters behind its prefix. -/
theorem utf8ByteSize_generateId (kind : IdKind) {uuid : List UInt8} (huuid : uuid.length = 16) :
    (generateId kind uuid).utf8ByteSize = kind.idPrefix.utf8ByteSize + 26 := by
  obtain ⟨pad, hpad, hdigits, -⟩ := digitsOf_value uuid
  rw [generateId, String.utf8ByteSize_append, utf8ByteSize_encodeBase32hex]
  omega

/-- A generated id is accepted. -/
theorem parse_generateId (kind : IdKind) {uuid : List UInt8} (huuid : uuid.length = 16) :
    Id.parse kind (generateId kind uuid) = .ok ⟨generateId kind uuid⟩ := by
  have hne : uuid ≠ [] := by
    rw [← List.length_pos_iff]
    omega
  have hsize := utf8ByteSize_generateId kind huuid
  refine (Id.parse_append_eq_ok kind _).mpr ⟨?_, uuid,
    (decodeBase32hex_encodeBase32hex hne).mpr ⟨rfl, ?_⟩⟩
  · show (generateId kind uuid).utf8ByteSize ≤ 96
    cases kind <;> rw [hsize] <;> decide
  · rw [huuid]
    cases kind <;> decide

/-- The id of a task run is accepted by the parser of its own type up to 24 bytes of run id and
task name: the separator takes two of the 26 bytes that a payload may have. -/
theorem parse_taskRunId_iff (runId : RunId) (taskName : String) :
    Id.parse .taskRun (taskRunId runId taskName).text = .ok (taskRunId runId taskName) ↔
      runId.text.utf8ByteSize + taskName.utf8ByteSize ≤ 24 := by
  have hlength : (utf8Bytes (runId.text ++ "::" ++ taskName)).length =
      runId.text.utf8ByteSize + 2 + taskName.utf8ByteSize := by
    rw [length_utf8Bytes, String.utf8ByteSize_append, String.utf8ByteSize_append]
    rfl
  have hne : utf8Bytes (runId.text ++ "::" ++ taskName) ≠ [] := by
    rw [← List.length_pos_iff, hlength]
    omega
  obtain ⟨pad, hpad, hdigits, -⟩ := digitsOf_value (utf8Bytes (runId.text ++ "::" ++ taskName))
  have hsize :
      ("tr_" ++ encodeBase32hex (utf8Bytes (runId.text ++ "::" ++ taskName))).utf8ByteSize =
      3 + (digitsOf (utf8Bytes (runId.text ++ "::" ++ taskName))).length := by
    rw [String.utf8ByteSize_append, utf8ByteSize_encodeBase32hex]
    rfl
  have hparse := Id.parse_append_eq_ok .taskRun
    (encodeBase32hex (utf8Bytes (runId.text ++ "::" ++ taskName)))
  refine hparse.trans ?_
  simp only [decodeBase32hex_encodeBase32hex hne, exists_and_right, exists_eq', true_and]
  show _ ≤ 96 ∧ _ ≤ 26 ↔ _
  rw [show IdKind.idPrefix .taskRun = "tr_" from rfl, hsize]
  omega

/-- The characters of an accepted id behind its prefix are those of the alphabet. -/
theorem Id.chars_of_parse {kind : IdKind} {id : Id kind} (h : Id.parse kind value = .ok id) :
    id.text = value ∧
      ∃ body : List Char, value.toList = kind.idPrefix.toList ++ body ∧
        ∀ ch ∈ body, b32value ch ≠ none := by
  unfold Id.parse at h
  split_ifs at h with hlead hlong
  rw [List.isPrefixOf_iff_prefix] at hlead
  obtain ⟨body, hbody⟩ := hlead
  have hdrop : value.toList.drop kind.idPrefix.length = body := by
    rw [← hbody, ← String.length_toList, List.drop_left]
  simp only [hdrop] at h
  split_ifs at h
  split at h
  · cases h
  next hdecode =>
    obtain rfl := Except.ok.inj h
    refine ⟨rfl, body, hbody.symm, ?_⟩
    unfold decodeBase32hex at hdecode
    rw [String.toList_ofList] at hdecode
    split_ifs at hdecode
    split at hdecode
    · cases hdecode
    · exact valid_of_decodeLoop ‹_›

/-- An accepted run id has neither of the characters that the code uses as separators. -/
theorem separators_not_mem_of_parse {id : RunId} (h : Id.parse .run value = .ok id) :
    ':' ∉ id.text.toList ∧ '/' ∉ id.text.toList := by
  obtain ⟨rfl, body, hbody, hvalid⟩ := Id.chars_of_parse h
  rw [hbody, List.mem_append, List.mem_append, not_or, not_or]
  exact ⟨⟨by decide, fun hmem ↦ hvalid ':' hmem (by decide)⟩,
    by decide, fun hmem ↦ hvalid '/' hmem (by decide)⟩

theorem colon_not_mem_of_parse {id : RunId} (h : Id.parse .run value = .ok id) :
    ':' ∉ id.text.toList :=
  (separators_not_mem_of_parse h).1

/-- Accepted run ids and arbitrary task names: the id of a task run determines both. -/
theorem taskRunId_injective_of_colon {first second : RunId} {firstName secondName : String}
    (hfirst : ':' ∉ first.text.toList) (hsecond : ':' ∉ second.text.toList)
    (h : taskRunId first firstName = taskRunId second secondName) :
    first = second ∧ firstName = secondName := by
  have hbody := (String.append_right_inj _).mp (congrArg Id.text h)
  have htext := utf8Bytes_injective (encodeBase32hex_injective hbody)
  have hread (id : RunId) (name : String) (hid : ':' ∉ id.text.toList) :
      (id.text ++ "::" ++ name).toList.splitOn ':' =
        id.text.toList :: (':' :: name.toList).splitOn ':' := by
    rw [String.append_assoc, String.toList_append, String.toList_append]
    exact List.splitOn_append_cons_self_of_not_mem hid _
  have hids : first.text.toList = second.text.toList := by
    have hsplit := hread first firstName hfirst
    rw [htext, hread second secondName hsecond] at hsplit
    exact (List.cons.inj hsplit).1.symm
  obtain rfl : first = second := by
    cases first
    cases second
    exact congrArg Id.mk (String.toList_injective hids)
  exact ⟨rfl, (String.append_right_inj _).mp htext⟩

/-- The id of a task run determines an accepted run id and the task name, whatever characters the
name has. -/
theorem taskRunId_separates {first second : RunId} (hfirst : Id.parse .run first.text = .ok first)
    (hsecond : Id.parse .run second.text = .ok second) (firstName secondName : String)
    (h : taskRunId first firstName = taskRunId second secondName) :
    first = second ∧ firstName = secondName :=
  taskRunId_injective_of_colon (colon_not_mem_of_parse hfirst) (colon_not_mem_of_parse hsecond) h

/-- A name with the separator in it. -/
theorem taskRunId_separates_colons :
    Id.parse .run "rn_00" = .ok ⟨"rn_00"⟩ ∧
      (⟨"rn_00"⟩ : RunId) = ⟨"rn_00"⟩ ∧ "fetch::page" = "fetch::page" := by
  have hparse : Id.parse .run "rn_00" = .ok ⟨"rn_00"⟩ := by decide
  exact ⟨hparse, taskRunId_separates hparse hparse "fetch::page" "fetch::page" rfl⟩

end Runvane.Domain
