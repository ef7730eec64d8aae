import Runvane.Domain.Validation

/-!
# The size of a run's input

The platform accepts the input of a run by its size and its depth. The size that `json_size` reports
is meant to be the number of bytes of the serialized value. `serialize` is the compact form that the
JSON library of the code writes, and `unmeasured` counts the bytes of it that the platform leaves
out: the brackets, the separators, the quotes of keys, the escapes in strings, and one letter of
`false` (`utf8ByteSize_serialize`). So the size is right exactly for the scalars other than `false`
whose text needs no escapes, and an input is wrongly accepted when only what was left out takes it
over the limit (`measured_iff`).

The depth is right: `json_depth` counts the levels that `nesting` gives (`jsonDepth_eq`).
-/

set_option autoImplicit false

namespace Runvane.Domain

/-! ### The compact form -/

/-- A hexadecimal digit. -/
def hexDigit (n : ℕ) : Char := "0123456789abcdef".toList.getD n '0'

/-- The letter of the escape of a control character that has one of two characters. -/
def shortEscape : ℕ → Option Char
  | 8 => some 'b'
  | 9 => some 't'
  | 10 => some 'n'
  | 12 => some 'f'
  | 13 => some 'r'
  | _ => none

/-- A character of a string as the serializer writes it. -/
def escaped (c : Char) : List Char :=
  if c = '\x22' ∨ c = '\x5c' then ['\x5c', c]
  else
    match shortEscape c.toNat with
    | some letter => ['\x5c', letter]
    | none =>
      if c.toNat < 32 then
        ['\x5c', 'u', '0', '0', hexDigit (c.toNat / 16), hexDigit (c.toNat % 16)]
      else [c]

def quoted (s : String) : String :=
  String.ofList ('\x22' :: (s.toList.flatMap escaped ++ ['\x22']))

mutual

/-- The compact form of a JSON value. -/
def serialize (floatText : F64 → String) : Json → String
  | .null => "null"
  | .bool true => "true"
  | .bool false => "false"
  | .number (.int value) => toString value
  | .number (.float value) => floatText value
  | .string value => quoted value
  | .array items => "[" ++ serializeItems floatText items ++ "]"
  | .object fields => "\x7b" ++ serializeFields floatText fields ++ "\x7d"

/-- The items of an array, separated by commas. -/
def serializeItems (floatText : F64 → String) : List Json → String
  | [] => ""
  | item :: items =>
    serialize floatText item ++ (if items.isEmpty then "" else ",") ++
      serializeItems floatText items

/-- The fields of an object, separated by commas. -/
def serializeFields (floatText : F64 → String) : List (String × Json) → String
  | [] => ""
  | field :: fields =>
    serializeField floatText field ++ (if fields.isEmpty then "" else ",") ++
      serializeFields floatText fields

def serializeField (floatText : F64 → String) : String × Json → String
  | (key, value) => quoted key ++ ":" ++ serialize floatText value

end

/-! ### What the size leaves out -/

def escapeBytes (c : Char) : ℕ :=
  if c = '\x22' ∨ c = '\x5c' ∨ (shortEscape c.toNat).isSome then 1
  else if c.toNat < 32 then 5
  else 0

def stringEscapeBytes (s : String) : ℕ := (s.toList.map escapeBytes).sum

mutual

/-- The bytes of the compact form that the size of a value leaves out. -/
def unmeasured : Json → ℕ
  | .null | .bool true | .number _ => 0
  | .bool false => 1
  | .string value => stringEscapeBytes value
  | .array items => 2 + unmeasuredItems items
  | .object fields => 2 + unmeasuredFields fields

/-- The bytes left out of the items of an array. -/
def unmeasuredItems : List Json → ℕ
  | [] => 0
  | item :: items => unmeasured item + (if items.isEmpty then 0 else 1) + unmeasuredItems items

/-- The bytes left out of the fields of an object. -/
def unmeasuredFields : List (String × Json) → ℕ
  | [] => 0
  | field :: fields =>
    unmeasuredField field + (if fields.isEmpty then 0 else 1) + unmeasuredFields fields

/-- The bytes left out of a field: the quotes of its key, the colon, and what the key and the value
leave out themselves. -/
def unmeasuredField : String × Json → ℕ
  | (key, value) => 3 + stringEscapeBytes key + unmeasured value

end

theorem shortEscape_eq_some {n : ℕ} {letter : Char} (h : shortEscape n = some letter) :
    n < 32 ∧ letter.utf8Size = 1 := by
  unfold shortEscape at h
  split at h <;> cases h <;> decide

theorem utf8Size_hexDigit {n : ℕ} (h : n < 16) : (hexDigit n).utf8Size = 1 := by
  interval_cases n <;> rfl

theorem utf8Size_of_lt {c : Char} (h : c.toNat < 32) : c.utf8Size = 1 := by
  rw [Char.utf8Size_eq_one_iff, UInt32.le_iff_toNat_le]
  exact h.le.trans (by decide)

theorem utf8Len_escaped (c : Char) :
    String.utf8Len (escaped c) = c.utf8Size + escapeBytes c := by
  have hslash : ('\x5c' : Char).utf8Size = 1 := rfl
  unfold escaped escapeBytes
  by_cases hquote : c = '\x22' ∨ c = '\x5c'
  · rcases hquote with rfl | rfl <;> rfl
  · rw [if_neg hquote]
    cases hshort : shortEscape c.toNat with
    | some letter =>
      obtain ⟨hlt, hletter⟩ := shortEscape_eq_some hshort
      simp [utf8Size_of_lt hlt, hletter, hslash]
    | none =>
      by_cases hlt : c.toNat < 32
      · have hhigh := utf8Size_hexDigit (n := c.toNat / 16) (by omega)
        have hlow := utf8Size_hexDigit (n := c.toNat % 16) (by omega)
        have hletter : ('u' : Char).utf8Size = 1 := rfl
        have hzero : ('0' : Char).utf8Size = 1 := rfl
        simp [hquote, hlt, utf8Size_of_lt hlt, hhigh, hlow, hslash, hletter, hzero]
      · simp [hquote, hlt]

theorem utf8Len_flatMap_escaped (cs : List Char) :
    String.utf8Len (cs.flatMap escaped) = String.utf8Len cs + (cs.map escapeBytes).sum := by
  induction cs with
  | nil => rfl
  | cons c cs ih =>
    simp only [List.flatMap_cons, String.utf8Len_append, utf8Len_escaped, ih, String.utf8Len_cons,
      List.map_cons, List.sum_cons]
    omega

theorem utf8ByteSize_quoted (s : String) :
    (quoted s).utf8ByteSize = s.utf8ByteSize + 2 + stringEscapeBytes s := by
  have hquote : ('\x22' : Char).utf8Size = 1 := rfl
  have hsize : s.utf8ByteSize = String.utf8Len s.toList := by
    rw [← String.utf8ByteSize_ofList, String.ofList_toList]
  simp only [quoted, stringEscapeBytes, String.utf8ByteSize_ofList, String.utf8Len_cons,
    String.utf8Len_append, String.utf8Len_nil, utf8Len_flatMap_escaped, hquote, hsize]
  omega

/-- A separator and the bytes it is counted with. -/
theorem utf8ByteSize_separator (last : Bool) :
    (if last then "" else ",").utf8ByteSize = if last then 0 else 1 := by
  cases last <;> rfl

mutual

/-- The compact form has the bytes that the size of a value counts and those that it leaves out. -/
theorem utf8ByteSize_serialize (floatText : F64 → String) (v : Json) :
    (serialize floatText v).utf8ByteSize = jsonSize floatText v + unmeasured v := by
  match v with
  | .null => rfl
  | .bool true => rfl
  | .bool false => rfl
  | .number (.int value) => simp [serialize, jsonSize, unmeasured]
  | .number (.float value) => simp [serialize, jsonSize, unmeasured]
  | .string value => simp only [serialize, jsonSize, unmeasured, utf8ByteSize_quoted]
  | .array items =>
    have hitems := utf8ByteSize_serializeItems floatText items
    have hopen : "[".utf8ByteSize = 1 := rfl
    have hclose : "]".utf8ByteSize = 1 := rfl
    simp only [serialize, jsonSize, unmeasured, String.utf8ByteSize_append]
    omega
  | .object fields =>
    have hfields := utf8ByteSize_serializeFields floatText fields
    have hopen : "\x7b".utf8ByteSize = 1 := rfl
    have hclose : "\x7d".utf8ByteSize = 1 := rfl
    simp only [serialize, jsonSize, unmeasured, String.utf8ByteSize_append]
    omega

theorem utf8ByteSize_serializeItems (floatText : F64 → String) (items : List Json) :
    (serializeItems floatText items).utf8ByteSize =
      itemsSize floatText items + unmeasuredItems items := by
  match items with
  | [] => rfl
  | item :: items =>
    have hitem := utf8ByteSize_serialize floatText item
    have hitems := utf8ByteSize_serializeItems floatText items
    simp only [serializeItems, itemsSize, unmeasuredItems, String.utf8ByteSize_append,
      utf8ByteSize_separator]
    omega

theorem utf8ByteSize_serializeFields (floatText : F64 → String) (fields : List (String × Json)) :
    (serializeFields floatText fields).utf8ByteSize =
      fieldsSize floatText fields + unmeasuredFields fields := by
  match fields with
  | [] => rfl
  | (key, value) :: fields =>
    have hvalue := utf8ByteSize_serialize floatText value
    have hfields := utf8ByteSize_serializeFields floatText fields
    have hcolon : ":".utf8ByteSize = 1 := rfl
    simp only [serializeFields, serializeField, fieldsSize, fieldSize, unmeasuredFields,
      unmeasuredField, String.utf8ByteSize_append, utf8ByteSize_separator, utf8ByteSize_quoted]
    omega

end

/-! ### The depth -/

mutual

/-- The nesting depth of a value: none for a scalar, and one more than the deepest element for an
array or an object. -/
def nesting : Json → ℕ
  | .array items => nestingItems items + 1
  | .object fields => nestingFields fields + 1
  | _ => 0

/-- The greatest nesting depth among the items of an array. -/
def nestingItems : List Json → ℕ
  | [] => 0
  | item :: items => max (nesting item) (nestingItems items)

/-- The greatest nesting depth among the values of an object. -/
def nestingFields : List (String × Json) → ℕ
  | [] => 0
  | (_, value) :: fields => max (nesting value) (nestingFields fields)

end

/-- The greatest of a value and what was found so far, if anything was. -/
theorem getD_merge_max {n depth : ℕ} (h : depth ≤ n) (found : Option ℕ) :
    ((some n).merge max found).getD depth = max n (found.getD depth) := by
  cases found with
  | none => simpa using h
  | some m => rfl

mutual

/-- The code counts the levels on the way down. -/
theorem jsonDepth_eq (v : Json) (depth : ℕ) : jsonDepth v depth = depth + nesting v := by
  match v with
  | .null | .bool _ | .number _ | .string _ => rfl
  | .array items =>
    simp only [jsonDepth, nesting, itemsDepth_eq items (depth + 1)]
    omega
  | .object fields =>
    simp only [jsonDepth, nesting, fieldsDepth_eq fields (depth + 1)]
    omega

theorem itemsDepth_eq (items : List Json) (depth : ℕ) :
    (itemsDepth items depth).getD depth = depth + nestingItems items := by
  match items with
  | [] => rfl
  | item :: items =>
    have hitem := jsonDepth_eq item depth
    have hitems := itemsDepth_eq items depth
    rw [itemsDepth, getD_merge_max (by omega), nestingItems, hitem, hitems]
    omega

theorem fieldsDepth_eq (fields : List (String × Json)) (depth : ℕ) :
    (fieldsDepth fields depth).getD depth = depth + nestingFields fields := by
  match fields with
  | [] => rfl
  | (key, value) :: fields =>
    have hvalue := jsonDepth_eq value depth
    have hfields := fieldsDepth_eq fields depth
    rw [fieldsDepth, fieldDepth, getD_merge_max (by omega), nestingFields, hvalue, hfields]
    omega

end

/-! ### When the size is right -/

/-- A character that a string shows as it is. -/
def Unescaped (c : Char) : Prop := c ≠ '\x22' ∧ c ≠ '\x5c' ∧ 32 ≤ c.toNat

/-- A scalar other than `false` whose text needs no escapes. -/
def Bare : Json → Prop
  | .null | .bool true | .number _ => True
  | .string value => ∀ c ∈ value.toList, Unescaped c
  | .bool false | .array _ | .object _ => False

theorem escapeBytes_eq_zero_iff (c : Char) : escapeBytes c = 0 ↔ Unescaped c := by
  unfold escapeBytes Unescaped
  cases hshort : shortEscape c.toNat with
  | some letter =>
    have hlt := (shortEscape_eq_some hshort).1
    simp only [Option.isSome_some, or_true, if_true]
    omega
  | none =>
    simp only [Option.isSome_none, Bool.false_eq_true, or_false]
    split_ifs with hquote hlt
    · simp only [false_iff]
      tauto
    · simp only [false_iff]
      omega
    · simp only [true_iff]
      exact ⟨fun h ↦ hquote (.inl h), fun h ↦ hquote (.inr h), by omega⟩

theorem unmeasured_eq_zero_iff (v : Json) : unmeasured v = 0 ↔ Bare v := by
  match v with
  | .null | .bool true | .number _ => simp [unmeasured, Bare]
  | .bool false | .array _ | .object _ => simp [unmeasured, Bare]
  | .string value =>
    simp only [unmeasured, stringEscapeBytes, Bare, List.sum_eq_zero_iff, List.mem_map,
      forall_exists_index, and_imp, forall_apply_eq_imp_iff₂, escapeBytes_eq_zero_iff]

theorem validateRunInput_ok_iff (floatText : F64 → String) (v : Json) :
    validateRunInput floatText v = .ok () ↔
      jsonSize floatText v ≤ maxRunInputBytes ∧ nesting v ≤ maxJsonDepth := by
  unfold validateRunInput
  simp only [jsonDepth_eq, Nat.zero_add]
  split_ifs with hsize hdepth
  · simp only [false_iff, not_and]
    omega
  · simp only [false_iff, not_and]
    omega
  · simp only [true_iff]
    omega

/-- The bytes of the compact form are counted, and the input is accepted exactly when they are
within the limit and the nesting is, if and only if the value is bare. The answer alone is wrong for
exactly those inputs that are over the limit only by what is not counted: they are accepted. -/
theorem measured_iff (floatText : F64 → String) (v : Json) :
    (((validateRunInput floatText v = .ok () ↔
          (serialize floatText v).utf8ByteSize ≤ maxRunInputBytes ∧ nesting v ≤ maxJsonDepth) ∧
        jsonSize floatText v = (serialize floatText v).utf8ByteSize) ↔ Bare v) ∧
      ((validateRunInput floatText v = .ok () ↔
          (serialize floatText v).utf8ByteSize ≤ maxRunInputBytes ∧ nesting v ≤ maxJsonDepth) ↔
        ¬ (jsonSize floatText v ≤ maxRunInputBytes ∧
          maxRunInputBytes < jsonSize floatText v + unmeasured v ∧
          nesting v ≤ maxJsonDepth)) := by
  have hbytes := utf8ByteSize_serialize floatText v
  rw [← unmeasured_eq_zero_iff, validateRunInput_ok_iff, hbytes]
  generalize jsonSize floatText v = size, unmeasured v = gap, nesting v = levels
  constructor
  · constructor
    · intro h
      omega
    · rintro rfl
      exact ⟨Iff.rfl, rfl⟩
  · omega

theorem itemsSize_replicate (floatText : F64 → String) (n : ℕ) :
    itemsSize floatText (List.replicate n (.array [])) = 0 := by
  induction n with
  | zero => rfl
  | succ n ih => simp [List.replicate_succ, itemsSize, jsonSize, ih]

theorem le_unmeasuredItems_replicate (n : ℕ) :
    n ≤ unmeasuredItems (List.replicate n (.array [])) := by
  induction n with
  | zero => exact Nat.zero_le _
  | succ n ih =>
    simp only [List.replicate_succ, unmeasuredItems, unmeasured]
    omega

theorem nestingItems_replicate_le (n : ℕ) :
    nestingItems (List.replicate n (.array [])) ≤ 1 := by
  induction n with
  | zero => exact Nat.zero_le _
  | succ n ih => simpa [List.replicate_succ, nestingItems, nesting] using ih

/-- The four bytes counted for `false` are not the five that are written, and an array of a
million and some empty arrays has size zero, so that it is accepted. -/
theorem unmeasured_inputs :
    (jsonSize (fun _ ↦ "0.5") (.bool false) = 4 ∧
        (serialize (fun _ ↦ "0.5") (.bool false)).utf8ByteSize = 5) ∧
      (validateRunInput (fun _ ↦ "0.5")
          (.array (List.replicate maxRunInputBytes (.array []))) = .ok () ∧
        jsonSize (fun _ ↦ "0.5") (.array (List.replicate maxRunInputBytes (.array []))) = 0 ∧
        maxRunInputBytes < (serialize (fun _ ↦ "0.5")
          (.array (List.replicate maxRunInputBytes (.array [])))).utf8ByteSize) := by
  have hsize := itemsSize_replicate (fun _ ↦ "0.5") maxRunInputBytes
  have hbytes := le_unmeasuredItems_replicate maxRunInputBytes
  have hnesting := nestingItems_replicate_le maxRunInputBytes
  refine ⟨⟨rfl, rfl⟩, ?_, ?_, ?_⟩
  · rw [validateRunInput_ok_iff, jsonSize, nesting, hsize, maxJsonDepth]
    omega
  · rw [jsonSize, hsize]
  · rw [utf8ByteSize_serialize, jsonSize, hsize, unmeasured]
    omega

end Runvane.Domain
