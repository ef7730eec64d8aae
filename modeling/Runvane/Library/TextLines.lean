import Mathlib

/-!
# Records framed as lines of text

A file of records holds the texts of the records, each ended by a separator. Reading it cuts the
file into the pieces before the separators, with what stands after the last one as a piece of its
own. If no text holds the separator, then the pieces of a file of records are the texts of the
records, and whatever is appended to such a file is cut on its own (`pieces_framed_append`).

The bytes of a text determine it, and so do the beginnings of the bytes: a text whose bytes begin
those of another begins it as a text (`isPrefix_of_utf8`), and bytes to which a text can be appended
so that a text results are the bytes of a text themselves (`exists_text_of_append`).
-/

set_option autoImplicit false

namespace Runvane.Library

/-! ### Pieces between separators -/

section Pieces

variable {α ρ : Type}

/-- The texts of the records one after the other, each ended by the separator. -/
def framed (sep : α) (encode : ρ → List α) (records : List ρ) : List α :=
  records.flatMap fun record ↦ encode record ++ [sep]

theorem framed_append (sep : α) (encode : ρ → List α) (records more : List ρ) :
    framed sep encode (records ++ more) = framed sep encode records ++ framed sep encode more := by
  simp [framed]

/-- A loop over the texts of records that takes something from each of them takes it from all. -/
theorem foldlM_map_of_forall {ε β : Type} {encode : ρ → List α} {records : List ρ}
    {step : List β → List α → Except ε (List β)} {taken : ρ → List β}
    (h : ∀ record ∈ records, ∀ acc, step acc (encode record) = .ok (acc ++ taken record))
    (acc : List β) :
    (records.map encode).foldlM step acc = .ok (acc ++ records.flatMap taken) := by
  induction records generalizing acc with
  | nil => simp [pure, Except.pure]
  | cons record records ih =>
    have hrecords := fun other hother ↦ h other (List.mem_cons_of_mem record hother)
    rw [List.map_cons, List.foldlM_cons, h record List.mem_cons_self]
    exact (ih hrecords _).trans (by rw [List.flatMap_cons, List.append_assoc])

variable [DecidableEq α]

/-- The pieces before each separator, and what is left after the last separator unless it is empty.
-/
def pieces (sep : α) : List α → List (List α)
  | [] => []
  | a :: rest =>
    if a = sep then [] :: pieces sep rest
    else
      match pieces sep rest with
      | [] => [[a]]
      | piece :: more => (a :: piece) :: more

variable {sep : α}

theorem pieces_append_cons {piece : List α} (h : sep ∉ piece) (rest : List α) :
    pieces sep (piece ++ sep :: rest) = piece :: pieces sep rest := by
  induction piece with
  | nil => simp [pieces]
  | cons a piece ih =>
    rw [List.mem_cons, not_or] at h
    rw [List.cons_append, pieces, if_neg (Ne.symm h.1), ih h.2]

theorem pieces_of_notMem {piece : List α} (h : sep ∉ piece) (hne : piece ≠ []) :
    pieces sep piece = [piece] := by
  induction piece with
  | nil => exact absurd rfl hne
  | cons a piece ih =>
    rw [List.mem_cons, not_or] at h
    rw [pieces, if_neg (Ne.symm h.1)]
    by_cases hpiece : piece = []
    · rw [hpiece, pieces]
    · rw [ih h.2 hpiece]

theorem pieces_framed_append {encode : ρ → List α} {records : List ρ}
    (h : ∀ record ∈ records, sep ∉ encode record) (rest : List α) :
    pieces sep (framed sep encode records ++ rest) = records.map encode ++ pieces sep rest := by
  induction records with
  | nil => simp [framed]
  | cons record records ih =>
    have hrecord := h record List.mem_cons_self
    have hrecords := ih fun other hother ↦ h other (List.mem_cons_of_mem record hother)
    have hsplit : framed sep encode (record :: records) ++ rest =
        encode record ++ sep :: (framed sep encode records ++ rest) := by
      simp [framed]
    rw [hsplit, pieces_append_cons hrecord, hrecords, List.map_cons, List.cons_append]

end Pieces

/-! ### The bytes of a text -/

def textOf? (bytes : List UInt8) : Option String := String.fromUTF8? ⟨bytes.toArray⟩

section Bytes

variable {s t : String} {bytes : List UInt8}

theorem textOf?_eq_some_iff : textOf? bytes = some s ↔ s.toUTF8.data.toList = bytes := by
  unfold textOf? String.fromUTF8?
  split_ifs with h
  · rw [Option.some_inj, ← String.toByteArray_inj]
    constructor
    · intro hs
      rw [String.toUTF8_eq_toByteArray, ← hs]
      rfl
    · intro hs
      subst hs
      rfl
  · refine ⟨nofun, fun hs ↦ absurd ?_ h⟩
    subst hs
    exact s.isValidUTF8

theorem utf8_append (s t : String) :
    (s ++ t).toUTF8.data.toList = s.toUTF8.data.toList ++ t.toUTF8.data.toList := by
  simp

theorem utf8_inj : s.toUTF8.data.toList = t.toUTF8.data.toList ↔ s = t := by
  rw [← String.toByteArray_inj, ByteArray.ext_iff, ← Array.toList_inj]
  rfl

/-- A text can be cut after the bytes of a character. -/
theorem exists_append_of_isValid {rest : List UInt8} (h : t.toUTF8.data.toList = bytes ++ rest)
    (hvalid : String.Pos.Raw.IsValid t ⟨bytes.length⟩) :
    ∃ start finish : String, t = start ++ finish ∧ start.toUTF8.data.toList = bytes ∧
      finish.toUTF8.data.toList = rest := by
  obtain ⟨start, finish, rfl, hsize⟩ := String.Pos.Raw.isValid_iff_exists_append.mp hvalid
  have hlength : start.toUTF8.data.toList.length = bytes.length := by
    have hbyte := congrArg String.Pos.Raw.byteIdx hsize
    simpa using hbyte.symm
  rw [utf8_append] at h
  obtain ⟨hstart, hfinish⟩ := List.append_inj h hlength
  exact ⟨start, finish, rfl, hstart, hfinish⟩

/-- A text whose bytes begin those of another is a beginning of it. -/
theorem isPrefix_of_utf8 (h : t.toUTF8.data.toList <+: s.toUTF8.data.toList) :
    t.toList <+: s.toList := by
  obtain ⟨rest, hrest⟩ := h
  have hbytes : s.toByteArray = t.toByteArray ++ ⟨rest.toArray⟩ := by
    rw [ByteArray.ext_iff, ← Array.toList_inj]
    simpa using hrest.symm
  have hvalid : String.Pos.Raw.IsValid s ⟨t.toUTF8.data.toList.length⟩ := by
    have hextract : s.toByteArray.extract 0 t.toByteArray.size = t.toByteArray := by
      rw [hbytes, ByteArray.extract_append_eq_left rfl]
    refine String.Pos.Raw.isValid_iff_isValidUTF8_extract_zero.mpr ⟨?_, ?_⟩
    · have hle := congrArg ByteArray.size hbytes
      simp only [String.size_toByteArray, ByteArray.size_append] at hle
      simp [String.Pos.Raw.le_iff]
      omega
    · have hsize : t.toUTF8.data.toList.length = t.toByteArray.size := rfl
      rw [hsize, hextract]
      exact t.isValidUTF8
  obtain ⟨start, finish, rfl, hstart, -⟩ := exists_append_of_isValid hrest.symm hvalid
  rw [utf8_inj.mp hstart, String.toList_append]
  exact List.prefix_append _ _

theorem getUTF8Byte_eq_of_append {b : UInt8} {rest : List UInt8}
    (h : t.toUTF8.data.toList = bytes ++ b :: rest) :
    ∃ hlt, t.getUTF8Byte ⟨bytes.length⟩ hlt = b := by
  have hget : t.toUTF8.data.toList[bytes.length]? = some b := by
    rw [h]
    simp
  obtain ⟨hlt, hbyte⟩ := List.getElem?_eq_some_iff.mp hget
  exact ⟨hlt, hbyte⟩

/-- A text can be cut before a byte that begins a character. -/
theorem exists_append_of_firstByte {b : UInt8} {rest : List UInt8} (hb : b.IsUTF8FirstByte)
    (h : t.toUTF8.data.toList = bytes ++ b :: rest) :
    ∃ start finish : String, t = start ++ finish ∧ start.toUTF8.data.toList = bytes ∧
      finish.toUTF8.data.toList = b :: rest := by
  refine exists_append_of_isValid h (String.Pos.Raw.isValid_iff_isUTF8FirstByte.mpr (Or.inr ?_))
  obtain ⟨hlt, hbyte⟩ := getUTF8Byte_eq_of_append h
  exact ⟨hlt, hbyte.symm ▸ hb⟩

/-- Bytes that can be put before the bytes of a text so that a text results are those of a text. -/
theorem exists_text_of_append (hs : s ≠ "")
    (h : t.toUTF8.data.toList = bytes ++ s.toUTF8.data.toList) :
    ∃ start : String, start.toUTF8.data.toList = bytes ∧ t = start ++ s := by
  cases hbytes : s.toUTF8.data.toList with
  | nil => exact absurd (utf8_inj.mp (hbytes.trans rfl)) hs
  | cons b rest =>
    have hfirst : s.toUTF8.data.toList = [] ++ b :: rest := hbytes
    obtain ⟨hlt, hbyte⟩ := getUTF8Byte_eq_of_append hfirst
    have hb : b.IsUTF8FirstByte := hbyte ▸ String.isUTF8FirstByte_getUTF8Byte_zero
    rw [hbytes] at h
    obtain ⟨start, finish, rfl, hstart, hfinish⟩ := exists_append_of_firstByte hb h
    exact ⟨start, hstart, by rw [utf8_inj.mp (hfinish.trans hbytes.symm)]⟩

theorem newline_notMem (h : '\n' ∉ s.toList) : 10 ∉ s.toUTF8.data.toList := by
  intro hmem
  obtain ⟨before, after, hsplit⟩ := List.append_of_mem hmem
  obtain ⟨start, finish, rfl, -, hfinish⟩ := exists_append_of_firstByte (by decide) hsplit
  have hbegin : "\n".toUTF8.data.toList <+: finish.toUTF8.data.toList :=
    ⟨after, hfinish.symm⟩
  obtain ⟨rest, hrest⟩ := isPrefix_of_utf8 hbegin
  refine h ?_
  rw [String.toList_append, ← hrest]
  simp

end Bytes

end Runvane.Library
