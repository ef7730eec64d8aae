import Runvane.Domain.Workflow

/-!
# Names that people assign

Tenants and handlers are addressed by short lowercase names, which `domain/ids.rs` validates on
their own terms. The code reads bytes; every byte it admits is a character of its own, and one it
does not admit ends the check at the character it belongs to.

A handler id is scanned once from left to right, with a flag for the dot before. What is accepted is
the grammar of dotted names: segments of name characters, none of them empty, between the dots
(`HandlerId.accepts_iff`).
-/

set_option autoImplicit false

namespace Runvane.Domain

/-- Lowercase letters, digits and dashes. -/
def isNameChar (c : Char) : Bool := c.isLower || c.isDigit || c == '-'

/-- A name starts with a lowercase letter. -/
def startsLower (value : String) : Bool := value.toList.head?.any Char.isLower

def validateTenantId (value : String) : Except IdError Unit :=
  if value.isEmpty || 48 < value.utf8ByteSize then
    .error (.malformed "tenant" value (.nameLength 48))
  else if !startsLower value then .error (.malformed "tenant" value .nameStart)
  else if value.toList.any (!isNameChar ·) then .error (.malformed "tenant" value .nameCharacters)
  else .ok ()

theorem nameChars_of_validateTenantId {value : String} (h : validateTenantId value = .ok ()) :
    ∀ c ∈ value.toList, isNameChar c = true := by
  unfold validateTenantId at h
  split_ifs at h with _ _ hany
  simpa using hany

/-- Maximum length of a handler id, in bytes. -/
def maxHandlerLen : ℕ := 80

namespace HandlerId

/-- The loop over a handler id, with whether the character before was a dot. -/
def scan : Bool → List Char → Except MalformedReason Unit
  | prevDot, [] => if prevDot then .error .trailingDot else .ok ()
  | prevDot, c :: rest =>
    if isNameChar c then scan false rest
    else if c = '.' then if prevDot then .error .emptyDotSegment else scan true rest
    else .error .nameCharacters

def parse (value : String) : Except IdError HandlerId :=
  if value.isEmpty || maxHandlerLen < value.utf8ByteSize then
    .error (.malformed "handler" value (.nameLength maxHandlerLen))
  else if !startsLower value then .error (.malformed "handler" value .nameStart)
  else
    match scan false value.toList with
    | .error reason => .error (.malformed "handler" value reason)
    | .ok _ => .ok ⟨value⟩

/-! ### The grammar -/

/-- A segment between dots: one or more lowercase letters, digits and dashes. -/
def IsSegment (segment : List Char) : Prop :=
  segment ≠ [] ∧
    ∀ c ∈ segment, ('a' ≤ c ∧ c ≤ 'z') ∨ ('0' ≤ c ∧ c ≤ '9') ∨ c = '-'

theorem isNameChar_iff {c : Char} :
    isNameChar c = true ↔ ('a' ≤ c ∧ c ≤ 'z') ∨ ('0' ≤ c ∧ c ≤ '9') ∨ c = '-' := by
  simp [isNameChar, Char.isLower, Char.isDigit, Char.le_def, or_assoc]

theorem isSegment_iff {segment : List Char} :
    IsSegment segment ↔ segment ≠ [] ∧ ∀ c ∈ segment, isNameChar c = true := by
  simp only [IsSegment, isNameChar_iff]

/-- The loop accepts what is left if its first segment, which may have begun before, and all the
others are made of name characters, and none of them ends up empty. -/
theorem scan_eq_ok_iff {chars head : List Char} {tail : List (List Char)}
    (hsplit : chars.splitOn '.' = head :: tail) (prevDot : Bool) :
    scan prevDot chars = .ok () ↔ (prevDot = true → head ≠ []) ∧
      (∀ c ∈ head, isNameChar c = true) ∧ ∀ segment ∈ tail, IsSegment segment := by
  induction chars generalizing prevDot head tail with
  | nil =>
    obtain ⟨rfl, rfl⟩ := List.cons.inj hsplit
    cases prevDot <;> simp [scan]
  | cons c rest ih =>
    obtain ⟨head', tail', hrest⟩ := List.exists_cons_of_ne_nil (rest.splitOn_ne_nil '.')
    rw [List.splitOn_cons_eq_if_modifyHead, hrest] at hsplit
    by_cases hdot : c = '.'
    · -- the dot ends the segment before it
      subst hdot
      obtain ⟨rfl, rfl⟩ : [] = head ∧ head' :: tail' = tail := by simpa using hsplit
      have hname : isNameChar '.' = false := by decide
      cases prevDot with
      | true => simp [scan, hname]
      | false => simp [scan, hname, ih hrest, isSegment_iff, and_assoc]
    · obtain ⟨rfl, rfl⟩ : c :: head' = head ∧ tail' = tail := by simpa [hdot] using hsplit
      by_cases hname : isNameChar c = true
      · simp [scan, hname, ih hrest]
      · simp [scan, hname, hdot]

/-- A text that starts with a lowercase letter passes the loop if its segments are well formed. -/
theorem scan_eq_ok_iff_of_start {c : Char} (rest : List Char) (hlower : c.isLower = true) :
    scan false (c :: rest) = .ok () ↔
      ∀ segment ∈ (c :: rest).splitOn '.', IsSegment segment := by
  obtain ⟨head, tail, hrest⟩ := List.exists_cons_of_ne_nil (rest.splitOn_ne_nil '.')
  have hdot : c ≠ '.' := by
    rintro rfl
    revert hlower
    decide
  have hsplit : (c :: rest).splitOn '.' = (c :: head) :: tail := by
    simp [List.splitOn_cons_eq_if_modifyHead, hrest, hdot]
  rw [scan_eq_ok_iff hsplit, hsplit]
  simp [isSegment_iff]

/-- Exactly the dotted names are handler ids: of at most 80 bytes, with a lowercase letter first,
and with no empty segment between dots. -/
theorem accepts_iff (value : String) :
    (∃ id, parse value = .ok id) ↔ value.utf8ByteSize ≤ 80 ∧
      (∃ c ∈ value.toList.head?, 'a' ≤ c ∧ c ≤ 'z') ∧
      ∀ segment ∈ value.toList.splitOn '.', IsSegment segment := by
  unfold parse startsLower
  cases hchars : value.toList with
  | nil => simp [String.toList_eq_nil_iff.mp hchars]
  | cons c rest =>
    have hne : value.isEmpty = false := by
      rw [Bool.eq_false_iff, Ne, String.isEmpty_iff, ← String.toList_eq_nil_iff, hchars]
      exact List.cons_ne_nil c rest
    have hstart : c.isLower = true ↔ 'a' ≤ c ∧ c ≤ 'z' := by simp [Char.isLower, Char.le_def]
    simp only [hne, Bool.false_or, List.head?_cons, Option.any_some, Option.mem_some_iff,
      exists_eq_left', ← hstart, maxHandlerLen]
    by_cases hlong : 80 < value.utf8ByteSize
    · simp [hlong, not_le.mpr hlong]
    by_cases hlower : c.isLower = true
    · rw [← scan_eq_ok_iff_of_start rest hlower]
      cases scan false (c :: rest) with
      | error reason => simp [hlong, hlower]
      | ok _ => simp [hlong, hlower, not_lt.mp hlong]
    · simp [hlong, hlower]

end HandlerId

end Runvane.Domain
