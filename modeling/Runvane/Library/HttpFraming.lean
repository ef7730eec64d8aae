import Runvane.Library.TextLines

/-!
# Requests framed as bytes

The framing of HTTP/1.1 requests with a body of known length. A request is a line with method,
target and version, a line for each header field, a blank line, and the body; lines are ended by CR
LF. The reader cuts a field at its first colon and drops blanks at both ends of the value, and
takes the number of bytes of the body from the fields with the name of the length, which have to
agree.

A request whose fields are inert is read back as it was written, and what is left of the bytes is
what follows it (`readRequest_writeRequest`). Whatever is written, the fields that are read are
inert and the lengths among them are that of the body (`framed_of_readRequest`).
-/

set_option autoImplicit false

namespace Runvane.Library.Http

def bytesOf (s : String) : List UInt8 := s.toUTF8.data.toList

theorem bytesOf_append (s t : String) : bytesOf (s ++ t) = bytesOf s ++ bytesOf t :=
  utf8_append s t

/-- A character of ASCII is one byte. -/
theorem bytesOf_of_ascii {s : String} (h : ∀ c ∈ s.toList, c.toNat < 128) :
    bytesOf s = s.toList.map fun c ↦ c.toNat.toUInt8 := by
  have hchar : ∀ c ∈ s.toList, String.utf8EncodeChar c = [c.toNat.toUInt8] := fun c hc ↦
    String.utf8EncodeChar_eq_singleton
      (Char.utf8Size_eq_one_iff.mpr (Nat.le_of_lt_succ (h c hc)))
  have hencode : s.toUTF8 = (s.toList.flatMap String.utf8EncodeChar).toByteArray := by
    conv_lhs => rw [← @String.ofList_toList s]
    exact String.toByteArray_ofList
  rw [bytesOf, hencode, List.data_toByteArray, List.flatMap_congr hchar]
  exact List.flatMap_pure_eq_map _ _

/-! ### Lines -/

/-- The end of a line. -/
def crlf : List UInt8 := [13, 10]

/-- There is no end of a line inside of the bytes. -/
def NoCrlf (bytes : List UInt8) : Prop := ¬ crlf <:+: bytes

/-- The bytes up to the end of the line, and what follows it. -/
def readLine : List UInt8 → Option (List UInt8 × List UInt8)
  | [] => none
  | b :: rest =>
    if b = 13 ∧ rest.head? = some 10 then some ([], rest.tail)
    else (readLine rest).map fun (line, after) ↦ (b :: line, after)

/-- The lines up to a blank one, and what follows it. -/
def readLines : ℕ → List UInt8 → Option (List (List UInt8) × List UInt8)
  | 0, _ => none
  | fuel + 1, bytes =>
    (readLine bytes).bind fun (line, after) ↦
      if line = [] then some ([], after)
      else (readLines fuel after).map fun (lines, rest) ↦ (line :: lines, rest)

/-- Lines one after the other, each with its end. -/
def writeLines (lines : List (List UInt8)) : List UInt8 := lines.flatMap (· ++ crlf)

theorem length_le_length_writeLines (lines : List (List UInt8)) :
    lines.length ≤ (writeLines lines).length := by
  induction lines with
  | nil => exact Nat.zero_le _
  | cons line lines ih =>
    rw [writeLines, List.flatMap_cons, List.length_append, List.length_append, List.length_cons]
    change lines.length + 1 ≤ line.length + 2 + (writeLines lines).length
    omega

theorem noCrlf_nil : NoCrlf [] := by simp [NoCrlf, crlf]

variable {bytes : List UInt8} {lines : List (List UInt8)} {field : List UInt8 × List UInt8}
  {fields : List (List UInt8 × List UInt8)}

theorem noCrlf_cons {b : UInt8} :
    NoCrlf (b :: bytes) ↔ ¬ (b = 13 ∧ bytes.head? = some 10) ∧ NoCrlf bytes := by
  have hwithin : crlf <+: b :: bytes ↔ b = 13 ∧ bytes.head? = some 10 := by
    cases bytes with
    | nil => simp [crlf]
    | cons c bytes => simp [crlf, eq_comm]
  rw [NoCrlf, List.infix_cons_iff, hwithin, not_or]
  rfl

theorem noCrlf_of_notMem (h : 13 ∉ bytes) : NoCrlf bytes :=
  fun hcrlf ↦ h (hcrlf.subset List.mem_cons_self)

/-- Other bytes than those of the end separate what they stand between. -/
theorem noCrlf_append_cons {b : UInt8} (hcr : b ≠ 13) (hlf : b ≠ 10) {first second : List UInt8} :
    NoCrlf (first ++ b :: second) ↔ NoCrlf first ∧ NoCrlf second := by
  induction first with
  | nil => simp [noCrlf_cons, noCrlf_nil, hcr]
  | cons c first ih =>
    have hhead : (first ++ b :: second).head? = some 10 ↔ first.head? = some 10 := by
      cases first with
      | nil => simp [hlf]
      | cons d first => rfl
    rw [List.cons_append, noCrlf_cons, noCrlf_cons, ih, hhead, and_assoc]

theorem readLine_append {line : List UInt8} (h : NoCrlf line) (rest : List UInt8) :
    readLine (line ++ crlf ++ rest) = some (line, rest) := by
  induction line with
  | nil => rfl
  | cons b line ih =>
    obtain ⟨hend, hline⟩ := noCrlf_cons.mp h
    have hnot : ¬ (b = 13 ∧ (line ++ crlf ++ rest).head? = some 10) := by
      cases line with
      | nil => simp [crlf]
      | cons c line => exact hend
    rw [List.cons_append, List.cons_append, readLine, if_neg hnot, ih hline]
    rfl

/-- What is read as a line was a line. -/
theorem append_of_readLine {line after : List UInt8} (h : readLine bytes = some (line, after)) :
    bytes = line ++ crlf ++ after ∧ NoCrlf line := by
  induction bytes generalizing line with
  | nil => cases h
  | cons b rest ih =>
    rw [readLine] at h
    split_ifs at h with hend
    · obtain ⟨rfl, hhead⟩ := hend
      obtain ⟨rfl, rfl⟩ := Prod.mk.inj (Option.some.inj h)
      refine ⟨?_, noCrlf_nil⟩
      cases rest with
      | nil => cases hhead
      | cons c rest =>
        obtain rfl := Option.some.inj hhead
        rfl
    · obtain ⟨⟨line', after'⟩, hline, heq⟩ := Option.map_eq_some_iff.mp h
      obtain ⟨rfl, rfl⟩ := Prod.mk.inj heq
      obtain ⟨rfl, hnoCrlf⟩ := ih hline
      refine ⟨rfl, noCrlf_cons.mpr ⟨fun ⟨hcr, hhead⟩ ↦ hend ⟨hcr, ?_⟩, hnoCrlf⟩⟩
      rw [List.append_assoc, List.head?_append, hhead, Option.some_or]

theorem readLines_writeLines (hlines : ∀ line ∈ lines, NoCrlf line) (hne : [] ∉ lines) {fuel : ℕ}
    (hfuel : lines.length < fuel) (rest : List UInt8) :
    readLines fuel (writeLines lines ++ crlf ++ rest) = some (lines, rest) := by
  induction lines generalizing fuel with
  | nil =>
    cases fuel with
    | zero => cases hfuel
    | succ fuel => rfl
  | cons line lines ih =>
    obtain ⟨hline, hothers⟩ := List.forall_mem_cons.mp hlines
    rw [List.mem_cons, not_or] at hne
    cases fuel with
    | zero => cases hfuel
    | succ fuel =>
      have hsplit : writeLines (line :: lines) ++ crlf ++ rest =
          line ++ crlf ++ (writeLines lines ++ crlf ++ rest) := by
        simp [writeLines]
      rw [hsplit, readLines, readLine_append hline, Option.bind_some]
      dsimp only
      rw [if_neg (Ne.symm hne.1), ih hothers hne.2 (Nat.lt_of_succ_lt_succ hfuel)]
      rfl

theorem noCrlf_of_readLines {fuel : ℕ} {rest : List UInt8}
    (h : readLines fuel bytes = some (lines, rest)) : ∀ line ∈ lines, NoCrlf line := by
  induction fuel generalizing bytes lines with
  | zero => cases h
  | succ fuel ih =>
    obtain ⟨⟨line, after⟩, hline, hrest⟩ := Option.bind_eq_some_iff.mp h
    dsimp only at hrest
    split_ifs at hrest with hblank
    · obtain ⟨rfl, -⟩ := Prod.mk.inj (Option.some.inj hrest)
      simp
    · obtain ⟨⟨lines', rest'⟩, hlines, heq⟩ := Option.map_eq_some_iff.mp hrest
      obtain ⟨rfl, rfl⟩ := Prod.mk.inj heq
      exact List.forall_mem_cons.mpr ⟨(append_of_readLine hline).2, ih hlines⟩

/-! ### Fields -/

/-- A space or a tab. -/
def isBlank (b : UInt8) : Bool := b = 32 || b = 9

/-- The bytes without the blanks at both ends. -/
def trim (bytes : List UInt8) : List UInt8 := (bytes.dropWhile isBlank).rdropWhile isBlank

def readField (line : List UInt8) : Option (List UInt8 × List UInt8) :=
  match line.dropWhile (· ≠ 58) with
  | [] => none
  | _ :: value => some (line.takeWhile (· ≠ 58), trim value)

def writeField (field : List UInt8 × List UInt8) : List UInt8 := field.1 ++ 58 :: 32 :: field.2

/-- A field that means nothing to the framing: it holds no end of a line, its name no colon, and its
value has no blanks at its ends. -/
structure Inert (field : List UInt8 × List UInt8) : Prop where
  name : NoCrlf field.1
  value : NoCrlf field.2
  colon : 58 ∉ field.1
  trimmed : trim field.2 = field.2

theorem trim_space (bytes : List UInt8) : trim (32 :: bytes) = trim bytes := rfl

theorem trim_isInfix (bytes : List UInt8) : trim bytes <:+: bytes :=
  (List.rdropWhile_prefix _ _).isInfix.trans (List.dropWhile_suffix _).isInfix

theorem trim_trim (bytes : List UInt8) : trim (trim bytes) = trim bytes := by
  -- What is left starts as the bytes without the blanks at the front, or is empty.
  have hfront : (trim bytes).dropWhile isBlank = trim bytes := by
    obtain ⟨back, hback⟩ := List.rdropWhile_prefix isBlank (bytes.dropWhile isBlank)
    have hstart := List.dropWhile_idempotent isBlank bytes
    rw [← hback] at hstart
    cases htrim : trim bytes with
    | nil => rfl
    | cons b rest =>
      rw [trim] at htrim
      rw [htrim] at hstart
      simpa [List.dropWhile_eq_self_iff] using hstart
  rw [trim, hfront, trim, List.rdropWhile_idempotent]

theorem trim_of_forall (h : ∀ b ∈ bytes, isBlank b = false) : trim bytes = bytes := by
  have hfront : bytes.dropWhile isBlank = bytes :=
    List.dropWhile_eq_self_iff.mpr fun hlength ↦ by simp [h _ (List.getElem_mem hlength)]
  rw [trim, hfront]
  exact List.rdropWhile_eq_self_iff.mpr fun hne ↦ by simp [h _ (List.getLast_mem hne)]

theorem NoCrlf.of_isInfix {part : List UInt8} (h : NoCrlf bytes) (hpart : part <:+: bytes) :
    NoCrlf part :=
  fun hcrlf ↦ h (hcrlf.trans hpart)

theorem readField_writeField (h : Inert field) : readField (writeField field) = some field := by
  have hname : ∀ b ∈ field.1, decide (b ≠ 58) = true :=
    fun b hb ↦ decide_eq_true fun hcolon ↦ h.colon (hcolon ▸ hb)
  have hdrop : (writeField field).dropWhile (· ≠ 58) = 58 :: 32 :: field.2 := by
    rw [writeField, List.dropWhile_append_of_pos hname]
    rfl
  have htake : (writeField field).takeWhile (· ≠ 58) = field.1 := by
    rw [writeField, List.takeWhile_append_of_pos hname]
    exact List.append_nil _
  rw [readField, hdrop]
  dsimp only
  rw [htake, trim_space, h.trimmed]

theorem inert_of_readField {line : List UInt8} (hline : NoCrlf line)
    (h : readField line = some field) : Inert field := by
  have hsplit := List.takeWhile_append_dropWhile (p := fun b : UInt8 ↦ decide (b ≠ 58)) (l := line)
  rw [readField] at h
  cases hdrop : line.dropWhile (· ≠ 58) with
  | nil =>
    rw [hdrop] at h
    cases h
  | cons colon value =>
    rw [hdrop] at h hsplit
    obtain rfl := Option.some.inj h
    have hcolon : colon = 58 := by
      have hhead := List.head?_dropWhile_not (fun b : UInt8 ↦ decide (b ≠ 58)) line
      rw [hdrop] at hhead
      simpa using hhead
    subst hcolon
    rw [← hsplit, noCrlf_append_cons (by decide) (by decide)] at hline
    exact
      { name := hline.1
        value := hline.2.of_isInfix (trim_isInfix value)
        colon := fun hmem ↦ by simpa using List.mem_takeWhile_imp hmem
        trimmed := trim_trim value }

theorem noCrlf_writeField (h : Inert field) : NoCrlf (writeField field) := by
  have hvalue : NoCrlf ([] ++ 32 :: field.2) :=
    (noCrlf_append_cons (by decide) (by decide)).mpr ⟨noCrlf_nil, h.value⟩
  exact (noCrlf_append_cons (by decide) (by decide)).mpr ⟨h.name, hvalue⟩

theorem mapM_readField (h : ∀ field ∈ fields, Inert field) :
    (fields.map writeField).mapM readField = some fields := by
  induction fields with
  | nil => rfl
  | cons field fields ih =>
    obtain ⟨hfield, hfields⟩ := List.forall_mem_cons.mp h
    rw [List.map_cons, List.mapM_cons, readField_writeField hfield, ih hfields]
    rfl

theorem inert_of_mapM_readField (hlines : ∀ line ∈ lines, NoCrlf line)
    (h : lines.mapM readField = some fields) : ∀ field ∈ fields, Inert field := by
  induction lines generalizing fields with
  | nil =>
    obtain rfl := Option.some.inj h
    simp
  | cons line lines ih =>
    obtain ⟨hline, hothers⟩ := List.forall_mem_cons.mp hlines
    rw [List.mapM_cons] at h
    obtain ⟨field, hfield, h⟩ := Option.bind_eq_some_iff.mp h
    obtain ⟨others, hread, h⟩ := Option.bind_eq_some_iff.mp h
    obtain rfl := Option.some.inj h
    exact List.forall_mem_cons.mpr ⟨inert_of_readField hline hfield, ih hothers hread⟩

/-! ### The length of the body -/

def isDigit (b : UInt8) : Bool := 48 ≤ b && b ≤ 57

def readNumber (digits : List UInt8) : Option ℕ :=
  if digits ≠ [] ∧ digits.all isDigit then
    some (digits.foldl (fun n b ↦ 10 * n + (b.toNat - 48)) 0)
  else none

/-- The small letter in place of a capital one. -/
def lower (b : UInt8) : UInt8 := if 65 ≤ b ∧ b ≤ 90 then b + 32 else b

def isLength (field : List UInt8 × List UInt8) : Bool :=
  field.1.map lower = bytesOf "content-length"

/-- The length of the body; there is none if the fields that give it do not agree. -/
def bodyLength (fields : List (List UInt8 × List UInt8)) : Option ℕ :=
  match (fields.filter isLength).map fun field ↦ readNumber field.2 with
  | [] => some 0
  | first :: others => if ∀ other ∈ others, other = first then first else none

/-- One field that gives the length is enough if the others do not give another one. -/
theorem bodyLength_eq_some_iff {n : ℕ} (h : ∃ field ∈ fields, isLength field) :
    bodyLength fields = some n ↔
      ∀ field ∈ fields, isLength field → readNumber field.2 = some n := by
  have hall : (∀ field ∈ fields, isLength field → readNumber field.2 = some n) ↔
      ∀ length ∈ (fields.filter isLength).map fun field ↦ readNumber field.2, length = some n := by
    rw [List.forall_mem_map]
    simp only [List.mem_filter, and_imp]
  rw [hall, bodyLength]
  cases hlengths : (fields.filter isLength).map fun field ↦ readNumber field.2 with
  | nil =>
    obtain ⟨field, hmem, hfield⟩ := h
    have hfiltered : field ∈ fields.filter isLength := List.mem_filter.mpr ⟨hmem, hfield⟩
    rw [List.map_eq_nil_iff.mp hlengths] at hfiltered
    cases hfiltered
  | cons first others =>
    rw [List.forall_mem_cons]
    dsimp only
    split_ifs with hagree
    · exact ⟨fun hfirst ↦ ⟨hfirst, fun other hother ↦ (hagree other hother).trans hfirst⟩, And.left⟩
    · constructor
      · intro hnone
        cases hnone
      · rintro ⟨hfirst, hothers⟩
        exact absurd (fun other hother ↦ (hothers other hother).trans hfirst.symm) hagree

theorem digit_of_mem_toDigits {n : ℕ} {c : Char} (hc : c ∈ Nat.toDigits 10 n) :
    isDigit c.toNat.toUInt8 ∧ c.toNat.toUInt8.toNat = c.toNat ∧ c.toNat < 128 := by
  have hdigit := Nat.isDigit_of_mem_toDigits (by decide) (by decide) hc
  have hbounds : 48 ≤ c.toNat ∧ c.toNat ≤ 57 := by
    simpa [Char.isDigit, UInt32.le_iff_toNat_le] using hdigit
  have hbyte : c.toNat.toUInt8.toNat = c.toNat :=
    UInt8.toNat_ofNat_of_lt' (by change c.toNat < 256; omega)
  refine ⟨?_, hbyte, by omega⟩
  simpa [isDigit, UInt8.le_iff_toNat_le, hbyte] using hbounds

theorem bytesOf_toString (n : ℕ) :
    bytesOf (toString n) = (Nat.toDigits 10 n).map fun c ↦ c.toNat.toUInt8 := by
  have hdigits : (toString n).toList = Nat.toDigits 10 n := Nat.toList_repr
  rw [← hdigits]
  refine bytesOf_of_ascii fun c hc ↦ ?_
  rw [hdigits] at hc
  exact (digit_of_mem_toDigits hc).2.2

theorem readNumber_toString (n : ℕ) : readNumber (bytesOf (toString n)) = some n := by
  rw [bytesOf_toString, readNumber, if_pos, List.foldl_map]
  · -- The number of the bytes is that of the characters, digit by digit.
    have hvalue : ∀ (m : ℕ), ∀ c ∈ Nat.toDigits 10 n,
        10 * m + (c.toNat.toUInt8.toNat - 48) = 10 * m + (c.toNat - '0'.toNat) := fun m c hc ↦ by
      rw [(digit_of_mem_toDigits hc).2.1]
      rfl
    rw [List.foldl_ext _ _ _ hvalue]
    exact congrArg some Nat.ofDigitChars_ten_toDigits
  · constructor
    · exact fun hnil ↦ Nat.toDigits_ne_nil (List.map_eq_nil_iff.mp hnil)
    · rw [List.all_map, List.all_eq_true]
      exact fun c hc ↦ (digit_of_mem_toDigits hc).1

/-! ### Requests -/

/-- A request with a body of known length. -/
structure Request where
  method : List UInt8
  target : List UInt8
  version : List UInt8
  fields : List (List UInt8 × List UInt8)
  body : List UInt8
  deriving DecidableEq

def Request.line (r : Request) : List UInt8 := [32].intercalate [r.method, r.target, r.version]

def writeRequest (r : Request) : List UInt8 :=
  writeLines (r.line :: r.fields.map writeField) ++ crlf ++ r.body

def readRequest (bytes : List UInt8) : Option (Request × List UInt8) :=
  (readLine bytes).bind fun (line, afterLine) ↦
    match line.splitOn 32 with
    | [method, target, version] =>
      (readLines afterLine.length afterLine).bind fun (lines, rest) ↦
        (lines.mapM readField).bind fun fields ↦
          (bodyLength fields).bind fun n ↦
            if n ≤ rest.length then
              some (⟨method, target, version, fields, rest.take n⟩, rest.drop n)
            else none
    | _ => none

structure Request.Framed (r : Request) : Prop where
  inert : ∀ field ∈ r.fields, Inert field
  length : bodyLength r.fields = some r.body.length

theorem readRequest_writeRequest {r : Request} (hframed : r.Framed)
    (hparts : ∀ part ∈ [r.method, r.target, r.version], 32 ∉ part) (hline : NoCrlf r.line)
    (rest : List UInt8) : readRequest (writeRequest r ++ rest) = some (r, rest) := by
  have hsplit : writeRequest r ++ rest =
      r.line ++ crlf ++ (writeLines (r.fields.map writeField) ++ crlf ++ (r.body ++ rest)) := by
    simp [writeRequest, writeLines]
  have hlines : ∀ line ∈ r.fields.map writeField, NoCrlf line :=
    List.forall_mem_map.mpr fun field hfield ↦ noCrlf_writeField (hframed.inert field hfield)
  have hnonblank : [] ∉ r.fields.map writeField := by
    simp [writeField]
  have hfuel : (r.fields.map writeField).length <
      (writeLines (r.fields.map writeField) ++ crlf ++ (r.body ++ rest)).length := by
    have hcount := length_le_length_writeLines (r.fields.map writeField)
    simp only [List.length_append, crlf, List.length_cons]
    omega
  rw [readRequest, hsplit, readLine_append hline, Option.bind_some]
  dsimp only
  rw [Request.line, List.splitOn_intercalate 32 hparts (by simp)]
  dsimp only
  rw [readLines_writeLines hlines hnonblank hfuel, Option.bind_some]
  dsimp only
  rw [mapM_readField hframed.inert, Option.bind_some, hframed.length, Option.bind_some]
  simp

theorem framed_of_readRequest {rest : List UInt8} {r : Request}
    (h : readRequest bytes = some (r, rest)) : r.Framed := by
  obtain ⟨⟨line, afterLine⟩, -, h⟩ := Option.bind_eq_some_iff.mp h
  dsimp only at h
  split at h
  · obtain ⟨⟨lines, afterLines⟩, hlines, h⟩ := Option.bind_eq_some_iff.mp h
    obtain ⟨fields, hfields, h⟩ := Option.bind_eq_some_iff.mp h
    obtain ⟨n, hlength, h⟩ := Option.bind_eq_some_iff.mp h
    split_ifs at h with hn
    obtain ⟨rfl, rfl⟩ := Prod.mk.inj (Option.some.inj h)
    refine ⟨inert_of_mapM_readField (noCrlf_of_readLines hlines) hfields, ?_⟩
    rw [hlength, List.length_take, min_eq_left hn]
  · cases h

end Runvane.Library.Http
