import Mathlib

/-!
# Paths as text

A path is a text with slashes. Joining follows the rule that an absolute path replaces what it is
joined to (`joinPath`). A path leads from the working directory through its parts to a location,
with a part of two dots for the parent directory (`locate`); links are left out.

`descends` reads a list of parts with nothing but a depth in hand, and says whether they never lead
above where they start. It decides whether a path stays below a directory: parts that descend do,
from every directory (`prefix_walk_of_descends`), and parts that do not descend lead out of a
directory whose name is not among them (`prefix_walk_iff`).

Texts are cut at a number of bytes of their encoding (`splitAtByte`), which is not possible inside
of a character.
-/

set_option autoImplicit false

namespace Runvane.Library

/-! ### Cutting a text -/

def byteLen (text : List Char) : ℕ := (text.map Char.utf8Size).sum

/-- The text up to a number of bytes, and the rest; nothing if that is inside of a character or
beyond the end. -/
def splitAtByte (text : List Char) (n : ℕ) : Option (List Char × List Char) :=
  match text with
  | [] => if n = 0 then some ([], []) else none
  | c :: rest =>
    if n = 0 then some ([], c :: rest)
    else if c.utf8Size ≤ n then
      (splitAtByte rest (n - c.utf8Size)).map fun (first, second) ↦ (c :: first, second)
    else none

@[simp] theorem byteLen_nil : byteLen [] = 0 := rfl

@[simp] theorem byteLen_cons (c : Char) (text : List Char) :
    byteLen (c :: text) = c.utf8Size + byteLen text := by
  simp [byteLen]

@[simp] theorem byteLen_append (first second : List Char) :
    byteLen (first ++ second) = byteLen first + byteLen second := by
  simp [byteLen]

theorem splitAtByte_append (first second : List Char) :
    splitAtByte (first ++ second) (byteLen first) = some (first, second) := by
  induction first with
  | nil => cases second <;> rfl
  | cons c first ih =>
    have hpos := c.utf8Size_pos
    rw [List.cons_append, splitAtByte, byteLen_cons, if_neg (by omega), if_pos (by omega),
      Nat.add_sub_cancel_left, ih]
    rfl

theorem append_of_splitAtByte {text first second : List Char} {n : ℕ}
    (h : splitAtByte text n = some (first, second)) :
    text = first ++ second ∧ byteLen first = n := by
  induction text generalizing first n with
  | nil =>
    rw [splitAtByte] at h
    split_ifs at h with hn
    obtain ⟨rfl, rfl⟩ := Prod.mk.inj (Option.some.inj h)
    exact ⟨rfl, hn.symm⟩
  | cons c rest ih =>
    rw [splitAtByte] at h
    split_ifs at h with hn hfits
    · obtain ⟨rfl, rfl⟩ := Prod.mk.inj (Option.some.inj h)
      exact ⟨rfl, hn.symm⟩
    · obtain ⟨⟨first', second'⟩, hsplit, heq⟩ := Option.map_eq_some_iff.mp h
      obtain ⟨rfl, rfl⟩ := Prod.mk.inj heq
      obtain ⟨rfl, hlen⟩ := ih hsplit
      refine ⟨rfl, ?_⟩
      rw [byteLen_cons]
      omega

/-! ### Joining and locating -/

/-- The text starts at the root of the file system. -/
def isAbsolute (text : List Char) : Bool := text.head? = some '/'

def joinPath (base text : List Char) : List Char :=
  if isAbsolute text then text
  else if base = [] ∨ base.getLast? = some '/' then base ++ text
  else base ++ '/' :: text

def pathParts (text : List Char) : List (List Char) := text.splitOnP (· = '/')

/-- A location: the names of the directories on the way, and the last name. -/
abbrev Location := List (List Char)

def enter (place : Location) (part : List Char) : Location :=
  if part = [] ∨ part = ['.'] then place
  else if part = ['.', '.'] then place.dropLast
  else place ++ [part]

def walk (place : Location) (parts : List (List Char)) : Location := parts.foldl enter place

/-- Where a path leads from the working directory. -/
def locate (workingDir : Location) (path : List Char) : Location :=
  walk (if isAbsolute path then [] else workingDir) (pathParts path)

theorem pathParts_append_slash (first second : List Char) :
    pathParts (first ++ '/' :: second) = pathParts first ++ pathParts second :=
  List.splitOnP_append_cons first second (by simp)

theorem pathParts_of_notMem {text : List Char} (h : '/' ∉ text) : pathParts text = [text] := by
  refine List.splitOnP_eq_singleton ?_
  intro c hc
  simpa using fun heq : c = '/' ↦ h (heq ▸ hc)

theorem length_le_of_mem_pathParts {text part : List Char} (h : part ∈ pathParts text) :
    part.length ≤ text.length := by
  unfold pathParts at h
  induction text generalizing part with
  | nil =>
    rw [List.splitOnP_nil, List.mem_singleton] at h
    rw [h]
  | cons c text ih =>
    rw [List.splitOnP_cons_eq_if_modifyHead] at h
    split_ifs at h
    · rcases List.mem_cons.mp h with rfl | hmem
      · exact Nat.zero_le _
      · exact (ih hmem).trans (Nat.le_succ _)
    · cases hparts : text.splitOnP (· = '/') with
      | nil => exact absurd hparts (List.splitOnP_ne_nil _ _)
      | cons first rest =>
        rw [hparts] at h ih
        rcases List.mem_cons.mp h with rfl | hmem
        · exact Nat.succ_le_succ (ih List.mem_cons_self)
        · exact (ih (List.mem_cons_of_mem _ hmem)).trans (Nat.le_succ _)

theorem walk_append (place : Location) (first second : List (List Char)) :
    walk place (first ++ second) = walk (walk place first) second := List.foldl_append

/-- A relative path is walked through from where the base leads. -/
theorem locate_joinPath (workingDir : Location) (base : List Char) {text : List Char}
    (h : isAbsolute text = false) :
    locate workingDir (joinPath base text) = walk (locate workingDir base) (pathParts text) := by
  rw [joinPath, h, if_neg Bool.false_ne_true]
  by_cases hnil : base = []
  · subst hnil
    rw [if_pos (.inl rfl), List.nil_append, locate, h]
    rfl
  · have hhead (rest : List Char) : isAbsolute (base ++ rest) = isAbsolute base := by
      unfold isAbsolute
      rw [List.head?_append_of_ne_nil _ hnil]
    by_cases hslash : base.getLast? = some '/'
    · -- The slash at the end of the base separates it from the text.
      obtain ⟨stem, rfl⟩ := List.getLast?_eq_some_iff.mp hslash
      have hstem : pathParts (stem ++ ['/']) = pathParts stem ++ [[]] :=
        pathParts_append_slash stem []
      have hempty (place : Location) : walk place [[]] = place := rfl
      rw [if_pos (.inr hslash), locate, locate, hhead, List.append_assoc, List.singleton_append,
        pathParts_append_slash, hstem, walk_append, walk_append, hempty]
    · rw [if_neg (by simp [hnil, hslash]), locate, locate, hhead, pathParts_append_slash,
        walk_append]

/-! ### Parts that descend -/

/-- From the depth, the parts never lead above where the depth is counted from. -/
def descends (depth : ℕ) : List (List Char) → Bool
  | [] => true
  | part :: parts =>
    if part = [] ∨ part = ['.'] then descends depth parts
    else if part = ['.', '.'] then decide (0 < depth) && descends (depth - 1) parts
    else descends (depth + 1) parts

/-- Parts that descend stay below the directory they start from. -/
theorem prefix_walk_of_descends (place : Location) {below : Location} {parts : List (List Char)}
    (h : descends below.length parts = true) : place <+: walk (place ++ below) parts := by
  induction parts generalizing below with
  | nil => exact List.prefix_append place below
  | cons part parts ih =>
    rw [walk, List.foldl_cons, enter]
    rw [descends] at h
    split_ifs at h ⊢ with hstay hup
    · exact ih h
    · cases below using List.reverseRecOn with
      | nil => cases h
      | append_singleton below last =>
        rw [Bool.and_eq_true, List.length_append, List.length_singleton, Nat.add_sub_cancel] at h
        rw [← List.append_assoc, List.dropLast_concat]
        exact ih h.2
    · rw [List.append_assoc]
      exact ih (by rwa [List.length_append, List.length_singleton])

/-- Names are met on the way. -/
theorem mem_walk {place : Location} {parts : List (List Char)} {name : List Char}
    (h : name ∈ walk place parts) : name ∈ place ∨ name ∈ parts := by
  induction parts generalizing place with
  | nil => exact .inl h
  | cons part parts ih =>
    rcases ih h with hplace | hparts
    · rw [enter] at hplace
      split_ifs at hplace
      · exact .inl hplace
      · exact .inl (List.mem_of_mem_dropLast hplace)
      · rcases List.mem_append.mp hplace with hplace | hpart
        · exact .inl hplace
        · exact .inr (List.mem_cons.mpr (.inl (List.mem_singleton.mp hpart)))
    · exact .inr (List.mem_cons_of_mem _ hparts)

/-- A directory whose name is not among the parts is left exactly if the parts do not descend. -/
theorem prefix_walk_iff {name : List Char} {below : Location} {parts : List (List Char)}
    (h : name ∉ parts) :
    [name] <+: walk ([name] ++ below) parts ↔ descends below.length parts = true := by
  refine ⟨fun hwithin ↦ ?_, prefix_walk_of_descends [name]⟩
  induction parts generalizing below with
  | nil => rfl
  | cons part parts ih =>
    obtain ⟨-, hparts⟩ := List.ne_and_not_mem_of_not_mem_cons h
    rw [walk, List.foldl_cons, enter] at hwithin
    rw [descends]
    split_ifs at hwithin ⊢ with hstay hup
    · exact ih hparts hwithin
    · cases below using List.reverseRecOn with
      | nil =>
        -- From above the directory its name is never met again.
        have hmem : name ∈ walk [] parts := hwithin.mem List.mem_cons_self
        rcases mem_walk hmem with hnil | hpart
        · cases hnil
        · exact absurd hpart hparts
      | append_singleton below last =>
        rw [← List.append_assoc, List.dropLast_concat] at hwithin
        rw [Bool.and_eq_true, List.length_append, List.length_singleton, Nat.add_sub_cancel]
        exact ⟨decide_eq_true (Nat.succ_pos _), ih hparts hwithin⟩
    · rw [List.append_assoc] at hwithin
      have hdeeper := ih hparts hwithin
      rwa [List.length_append, List.length_singleton] at hdeeper

end Runvane.Library
