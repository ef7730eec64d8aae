import Runvane.Library.UnixPath
import Runvane.Storage.Artifacts

/-!
# Where the store on disk looks for a blob

`blob_path` cuts two times two bytes off the id and joins the root of the store, the two pieces and
the id to a path. Ids are digests when the store makes them, but `get` and `delete` take any text. A
cut inside of a character panics, an absolute piece replaces the root, and parts of two dots lead
out of it. `confined_iff` says for which ids none of this happens.
-/

set_option autoImplicit false

namespace Runvane.Storage

open Library

/-! ### The store and its file system -/

/-- The store on disk, with its root as the path that it is given, and the files of the system. -/
structure ArtifactDir where
  rootDir : List Char
  workingDir : Location
  files : Location → Option (List UInt8)
  metadata : KeyedMap ArtifactDescriptor.id

/-- What a method does in the file system. -/
inductive FileAccess
  | probe (place : Location)
  | read (place : Location)
  | remove (place : Location)
  deriving DecidableEq, Repr

/-- Where it does so. -/
def FileAccess.place : FileAccess → Location
  | probe place | read place | remove place => place

namespace ArtifactDir

def root (dir : ArtifactDir) : Location := locate dir.workingDir dir.rootDir

/-- The path of a blob; nothing if the id is cut inside of a character, which panics. -/
def blobPath (dir : ArtifactDir) (id : String) : Option (List Char) := do
  let (prefix1, remainder) ← splitAtByte id.toList (min 2 (byteLen id.toList))
  let (prefix2, _) ← splitAtByte remainder (min 2 (byteLen remainder))
  pure (joinPath (joinPath (joinPath dir.rootDir prefix1) prefix2) id.toList)

/-- Reads the file, if there is one, and verifies its digest. -/
def get (digest : List UInt8 → String) (dir : ArtifactDir) (id : String) :
    Option (Except ArtifactError (Option (List UInt8)) × List FileAccess) :=
  (dir.blobPath id).map fun path ↦
    let place := locate dir.workingDir path
    match dir.files place with
    | none => (.ok none, [.probe place])
    | some data =>
      (if digest data ≠ id then .error (.integrityMismatch id (digest data)) else .ok (some data),
        [.probe place, .read place])

/-- Removes the descriptor and the file, and says whether there was a file. -/
def delete (dir : ArtifactDir) (id : String) : Option (Bool × ArtifactDir × List FileAccess) :=
  (dir.blobPath id).map fun path ↦
    let place := locate dir.workingDir path
    let forgotten := { dir with metadata := dir.metadata.erase id }
    if (dir.files place).isSome then
      (true, { forgotten with files := Function.update dir.files place none },
        [.probe place, .remove place])
    else (false, forgotten, [.probe place])

/-- Neither method panics on the id, and both stay below the root. -/
def Confined (digest : List UInt8 → String) (dir : ArtifactDir) (id : String) : Prop :=
  (∃ answer accesses, dir.get digest id = some (answer, accesses) ∧
    ∀ access ∈ accesses, dir.root <+: access.place) ∧
  ∃ answer dir' accesses, dir.delete id = some (answer, dir', accesses) ∧
    ∀ access ∈ accesses, dir.root <+: access.place

end ArtifactDir

/-- An id that is safe: neither cut is inside of a character, neither the id nor the second piece
is absolute, and the parts of the pieces and of the id, one after the other, never lead above where
they start. -/
def SafeId (id : List Char) : Prop :=
  ∃ prefix1 prefix2 rest, id = prefix1 ++ (prefix2 ++ rest) ∧
    byteLen prefix1 = min 2 (byteLen id) ∧ byteLen prefix2 = min 2 (byteLen (prefix2 ++ rest)) ∧
    isAbsolute id = false ∧ isAbsolute prefix2 = false ∧
    descends 0 (pathParts prefix1 ++ (pathParts prefix2 ++ pathParts id)) = true

/-! ### Where a blob is looked for -/

namespace ArtifactDir

variable (digest : List UInt8 → String) (dir : ArtifactDir) (id : String)

theorem blobPath_eq_some_iff {path : List Char} :
    dir.blobPath id = some path ↔ ∃ prefix1 prefix2 rest,
      id.toList = prefix1 ++ (prefix2 ++ rest) ∧
      byteLen prefix1 = min 2 (byteLen id.toList) ∧
      byteLen prefix2 = min 2 (byteLen (prefix2 ++ rest)) ∧
      path = joinPath (joinPath (joinPath dir.rootDir prefix1) prefix2) id.toList := by
  unfold blobPath
  constructor
  · intro h
    obtain ⟨⟨prefix1, remainder⟩, hfirst, hpieces⟩ := Option.bind_eq_some_iff.mp h
    obtain ⟨⟨prefix2, rest⟩, hsecond, hpath⟩ := Option.bind_eq_some_iff.mp hpieces
    obtain ⟨hid, hlen1⟩ := append_of_splitAtByte hfirst
    obtain ⟨rfl, hlen2⟩ := append_of_splitAtByte hsecond
    exact ⟨prefix1, prefix2, rest, hid, hlen1, hlen2, (Option.some.inj hpath).symm⟩
  · rintro ⟨prefix1, prefix2, rest, hid, hlen1, hlen2, rfl⟩
    have hfirst : splitAtByte id.toList (byteLen prefix1) = some (prefix1, prefix2 ++ rest) := by
      rw [hid]
      exact splitAtByte_append prefix1 (prefix2 ++ rest)
    have hsecond : splitAtByte (prefix2 ++ rest) (byteLen prefix2) = some (prefix2, rest) :=
      splitAtByte_append prefix2 rest
    rw [← hlen1, hfirst]
    dsimp only [Option.bind_eq_bind, Option.bind_some]
    rw [← hlen2, hsecond]
    rfl

/-- Both methods look at the path of the blob and nowhere else. -/
theorem confined_iff_path :
    dir.Confined digest id ↔
      ∃ path, dir.blobPath id = some path ∧ dir.root <+: locate dir.workingDir path := by
  constructor
  · rintro ⟨⟨answer, accesses, hget, hbelow⟩, -⟩
    obtain ⟨path, hpath, hresult⟩ := Option.map_eq_some_iff.mp hget
    refine ⟨path, hpath, hbelow (.probe (locate dir.workingDir path)) ?_⟩
    dsimp only at hresult
    split at hresult
    · rw [← (Prod.mk.inj hresult).2]
      exact List.mem_cons_self
    · rw [← (Prod.mk.inj hresult).2]
      exact List.mem_cons_self
  · rintro ⟨path, hpath, hbelow⟩
    constructor
    · unfold get
      rw [hpath, Option.map_some]
      dsimp only
      split
      · refine ⟨_, _, rfl, ?_⟩
        simpa [FileAccess.place] using hbelow
      · refine ⟨_, _, rfl, ?_⟩
        simpa [FileAccess.place] using hbelow
    · unfold delete
      rw [hpath, Option.map_some]
      dsimp only
      split_ifs
      · refine ⟨_, _, _, rfl, ?_⟩
        simpa [FileAccess.place] using hbelow
      · refine ⟨_, _, _, rfl, ?_⟩
        simpa [FileAccess.place] using hbelow

/-- With relative pieces the path of a blob leads through their parts from the root. -/
theorem locate_blobPath {prefix1 prefix2 : List Char} (h1 : isAbsolute prefix1 = false)
    (h2 : isAbsolute prefix2 = false) (hid : isAbsolute id.toList = false) :
    locate dir.workingDir (joinPath (joinPath (joinPath dir.rootDir prefix1) prefix2) id.toList) =
      walk dir.root (pathParts prefix1 ++ (pathParts prefix2 ++ pathParts id.toList)) := by
  rw [locate_joinPath _ _ hid, locate_joinPath _ _ h2, locate_joinPath _ _ h1, walk_append,
    walk_append]
  rfl

end ArtifactDir

theorem isAbsolute_of_append {first second : List Char} (h : isAbsolute (first ++ second) = false) :
    isAbsolute first = false := by
  cases first with
  | nil => rfl
  | cons c first => exact h

/-! ### Roots that are not met by chance -/

/-- A name that is too long to be a part of the id. -/
def strangeName (id : List Char) : List Char := List.replicate (id.length + 1) 'r'

/-- A store below a directory with this name. -/
def strangeDir (id : List Char) : ArtifactDir where
  rootDir := '/' :: strangeName id
  workingDir := []
  files _ := none
  metadata := .empty

theorem strangeName_notMem {id text : List Char} (h : text.length ≤ id.length) :
    strangeName id ∉ pathParts text := by
  intro hmem
  have hle := length_le_of_mem_pathParts hmem
  rw [strangeName, List.length_replicate] at hle
  omega

theorem root_strangeDir (id : List Char) : (strangeDir id).root = [strangeName id] := by
  have hslash : '/' ∉ strangeName id := by
    intro hmem
    cases List.eq_of_mem_replicate hmem
  have hparts : pathParts ('/' :: strangeName id) = [[], strangeName id] := by
    have happend := pathParts_append_slash [] (strangeName id)
    rw [pathParts_of_notMem hslash] at happend
    exact happend
  have hname : enter [] (strangeName id) = [strangeName id] := by
    unfold enter strangeName
    rw [List.replicate_succ, if_neg (by simp), if_neg (by simp)]
    rfl
  show walk _ (pathParts ('/' :: strangeName id)) = _
  rw [hparts]
  exact hname

/-- An absolute path leads out of it, whatever is joined to it. -/
theorem not_prefix_of_isAbsolute {id base : List Char} {parts : List (List Char)}
    (habsolute : isAbsolute base = true) (hbase : base.length ≤ id.length)
    (hparts : strangeName id ∉ parts) :
    ¬ (strangeDir id).root <+: walk (locate (strangeDir id).workingDir base) parts := by
  intro hwithin
  rw [root_strangeDir] at hwithin
  rcases mem_walk (hwithin.mem List.mem_cons_self) with hplace | hmem
  · rw [locate, habsolute] at hplace
    rcases mem_walk hplace with hnil | hmem
    · cases hnil
    · exact strangeName_notMem hbase hmem
  · exact hparts hmem

/-- For exactly the safe ids, neither method panics and neither looks at, reads or removes anything
outside of the root, wherever the root is and whatever files there are. -/
theorem confined_iff (digest : List UInt8 → String) (id : String) :
    (∀ dir : ArtifactDir, dir.Confined digest id) ↔ SafeId id.toList := by
  constructor
  · intro hconfined
    obtain ⟨path, hpath, hwithin⟩ :=
      ((strangeDir id.toList).confined_iff_path digest id).mp (hconfined _)
    obtain ⟨prefix1, prefix2, rest, hid, hlen1, hlen2, rfl⟩ :=
      ((strangeDir id.toList).blobPath_eq_some_iff id).mp hpath
    have hshort1 : prefix1.length ≤ id.toList.length := by
      rw [hid, List.length_append]
      omega
    have hshort2 : prefix2.length ≤ id.toList.length := by
      rw [hid, List.length_append, List.length_append]
      omega
    have habsolute : isAbsolute id.toList = false := by
      by_contra habsolute
      rw [Bool.not_eq_false] at habsolute
      refine not_prefix_of_isAbsolute habsolute le_rfl List.not_mem_nil ?_
      rwa [joinPath, if_pos habsolute] at hwithin
    have habsolute2 : isAbsolute prefix2 = false := by
      by_contra habsolute2
      rw [Bool.not_eq_false] at habsolute2
      refine not_prefix_of_isAbsolute habsolute2 hshort2 (strangeName_notMem le_rfl) ?_
      rw [locate_joinPath _ _ habsolute] at hwithin
      rwa [joinPath, if_pos habsolute2] at hwithin
    refine ⟨prefix1, prefix2, rest, hid, hlen1, hlen2, habsolute, habsolute2, ?_⟩
    have habsolute1 : isAbsolute prefix1 = false := isAbsolute_of_append (hid ▸ habsolute)
    rw [ArtifactDir.locate_blobPath _ _ habsolute1 habsolute2 habsolute, root_strangeDir] at hwithin
    refine (prefix_walk_iff ?_).mp hwithin
    simp only [List.mem_append, not_or]
    exact ⟨strangeName_notMem hshort1, strangeName_notMem hshort2, strangeName_notMem le_rfl⟩
  · rintro ⟨prefix1, prefix2, rest, hid, hlen1, hlen2, habsolute, habsolute2, hdescends⟩ dir
    have habsolute1 : isAbsolute prefix1 = false := isAbsolute_of_append (hid ▸ habsolute)
    refine (dir.confined_iff_path digest id).mpr
      ⟨_, (dir.blobPath_eq_some_iff id).mpr ⟨prefix1, prefix2, rest, hid, hlen1, hlen2, rfl⟩, ?_⟩
    rw [dir.locate_blobPath id habsolute1 habsolute2 habsolute]
    have hbelow := @prefix_walk_of_descends dir.root [] _ hdescends
    rwa [List.append_nil] at hbelow

/-- A store below `/data` in an empty file system. -/
def sampleDir : ArtifactDir := ⟨"/data".toList, [], fun _ ↦ none, .empty⟩

/-- A character that is cut, an absolute id, a slash after two characters, and two dots. -/
theorem ids_panic_or_lead_out :
    sampleDir.get plainDigest "xé" = none ∧
    ¬ sampleDir.Confined plainDigest "xé" ∧
    ¬ sampleDir.Confined plainDigest "/etc/passwd" ∧
    ¬ sampleDir.Confined plainDigest "ab/cd" ∧
    ¬ sampleDir.Confined plainDigest "..ab" := by
  have hpanic : sampleDir.blobPath "xé" = none := by decide
  have hout (id : String) (path : List Char) (hpath : sampleDir.blobPath id = some path)
      (hplace : sampleDir.root.isPrefixOf (locate sampleDir.workingDir path) = false) :
      ¬ sampleDir.Confined plainDigest id := by
    intro hconfined
    obtain ⟨found, hfound, hwithin⟩ := (sampleDir.confined_iff_path plainDigest id).mp hconfined
    obtain rfl := Option.some.inj (hpath.symm.trans hfound)
    rw [List.isPrefixOf_iff_prefix.mpr hwithin] at hplace
    cases hplace
  refine ⟨by rw [ArtifactDir.get, hpanic]; rfl, fun hconfined ↦ ?_, ?_, ?_, ?_⟩
  · obtain ⟨path, hpath, -⟩ := (sampleDir.confined_iff_path plainDigest "xé").mp hconfined
    rw [hpanic] at hpath
    cases hpath
  · exact hout "/etc/passwd" "/etc/passwd".toList (by decide) (by decide)
  · exact hout "ab/cd" "/c/ab/cd".toList (by decide) (by decide)
  · exact hout "..ab" "/data/../ab/..ab".toList (by decide) (by decide)

end Runvane.Storage
