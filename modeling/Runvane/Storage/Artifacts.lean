import Runvane.Domain.Dag
import Runvane.Persistence.Memory

/-!
# The artifact stores

Blobs are stored under the digest of their bytes, next to a descriptor that names their tenant. The
digest is SHA-256 in the code; here it is a parameter. The store in memory has a map of blobs and a
map of descriptors; the store on disk has a file for each blob, in directories named after the
beginning of the digest, and keeps the descriptors in memory. Errors of the file system are left
out.

What either store holds is, for each digest, the last artifact that was put under it, unless it was
deleted since (`Holds`, `ArtifactStore.Keeps`).
-/

set_option autoImplicit false

namespace Runvane.Storage

open Library Domain Persistence

/-! ### Artifacts -/

/-- Metadata of a stored artifact. -/
structure ArtifactDescriptor where
  id : String
  tenant : String
  name : String
  contentType : String
  sizeBytes : ℕ
  createdAtMs : ℤ
  deriving DecidableEq, Repr

/-- What is put into a store. -/
structure Artifact where
  tenant : String
  name : String
  data : List UInt8
  contentType : String
  nowMs : ℤ
  deriving DecidableEq, Repr

inductive ArtifactError
  | integrityMismatch (expected actual : String)
  deriving DecidableEq, Repr

def Artifact.descriptor (digest : List UInt8 → String)
    (artifact : Artifact) : ArtifactDescriptor where
  id := digest artifact.data
  tenant := artifact.tenant
  name := artifact.name
  contentType := artifact.contentType
  sizeBytes := artifact.data.length
  createdAtMs := artifact.nowMs

/-- The methods of an artifact store with states in `σ`. -/
structure ArtifactStore (σ : Type) where
  new : σ
  put : σ → Artifact → ArtifactDescriptor × σ
  get : σ → String → Except ArtifactError (Option (List UInt8))
  describe : σ → String → Option ArtifactDescriptor
  delete : σ → String → Bool × σ
  listByTenant : IterationOrder ArtifactDescriptor → σ → String → List ArtifactDescriptor

/-- The descriptors of a tenant, in the order of the map. -/
def ofTenant (order : IterationOrder ArtifactDescriptor)
    (descriptors : KeyedMap ArtifactDescriptor.id) (tenant : String) : List ArtifactDescriptor :=
  (order.arrange descriptors.values).filter (·.tenant = tenant)

/-! ### In memory -/

structure MemoryArtifactStore where
  blobs : Std.ExtTreeMap String (List UInt8)
  descriptors : KeyedMap ArtifactDescriptor.id

namespace MemoryArtifactStore

/-- The section of `put` under the lock of the blobs. -/
def insertBlob (s : MemoryArtifactStore) (id : String) (data : List UInt8) : MemoryArtifactStore :=
  { s with blobs := s.blobs.insert id data }

/-- The section of `put` under the lock of the descriptors. -/
def insertDescriptor (s : MemoryArtifactStore) (descriptor : ArtifactDescriptor) :
    MemoryArtifactStore :=
  { s with descriptors := s.descriptors.put descriptor }

def put (digest : List UInt8 → String) (s : MemoryArtifactStore) (artifact : Artifact) :
    ArtifactDescriptor × MemoryArtifactStore :=
  let descriptor := artifact.descriptor digest
  (descriptor, (s.insertBlob descriptor.id artifact.data).insertDescriptor descriptor)

def get (s : MemoryArtifactStore) (id : String) : Option (List UInt8) := s.blobs[id]?

def describe (s : MemoryArtifactStore) (id : String) : Option ArtifactDescriptor :=
  s.descriptors.get? id

/-- Removes blob and descriptor under both locks, and says whether there was a blob. -/
def delete (s : MemoryArtifactStore) (id : String) : Bool × MemoryArtifactStore :=
  (s.blobs[id]?.isSome, ⟨s.blobs.erase id, s.descriptors.erase id⟩)

end MemoryArtifactStore

def memoryArtifacts (digest : List UInt8 → String) : ArtifactStore MemoryArtifactStore where
  new := ⟨∅, .empty⟩
  put := MemoryArtifactStore.put digest
  get s id := .ok (s.get id)
  describe := MemoryArtifactStore.describe
  delete := MemoryArtifactStore.delete
  listByTenant order s := ofTenant order s.descriptors

/-! ### On disk -/

/-- The place of a blob below the root: two directories and a file. -/
structure BlobPath where
  first : String
  second : String
  file : String
  deriving DecidableEq, Repr

/-- The directories are named after the first two and the next two characters of the digest. -/
def blobPath (id : String) : BlobPath where
  first := String.ofList (id.toList.take 2)
  second := String.ofList ((id.toList.drop 2).take 2)
  file := id

structure DiskArtifactStore where
  files : BlobPath → Option (List UInt8)
  metadata : KeyedMap ArtifactDescriptor.id

namespace DiskArtifactStore

/-- Writes the file, and then stores the descriptor. -/
def put (digest : List UInt8 → String) (s : DiskArtifactStore) (artifact : Artifact) :
    ArtifactDescriptor × DiskArtifactStore :=
  let descriptor := artifact.descriptor digest
  (descriptor, ⟨Function.update s.files (blobPath descriptor.id) (some artifact.data),
    s.metadata.put descriptor⟩)

/-- Reads the file, if there is one, and verifies its digest. -/
def get (digest : List UInt8 → String) (s : DiskArtifactStore) (id : String) :
    Except ArtifactError (Option (List UInt8)) :=
  match s.files (blobPath id) with
  | none => .ok none
  | some data =>
    if digest data ≠ id then .error (.integrityMismatch id (digest data)) else .ok (some data)

/-- Removes the descriptor and the file, and says whether there was a file. -/
def delete (s : DiskArtifactStore) (id : String) : Bool × DiskArtifactStore :=
  ((s.files (blobPath id)).isSome,
    ⟨Function.update s.files (blobPath id) none, s.metadata.erase id⟩)

end DiskArtifactStore

def diskArtifacts (digest : List UInt8 → String) : ArtifactStore DiskArtifactStore where
  new := ⟨fun _ ↦ none, .empty⟩
  put := DiskArtifactStore.put digest
  get := DiskArtifactStore.get digest
  describe s id := s.metadata.get? id
  delete := DiskArtifactStore.delete
  listByTenant order s := ofTenant order s.metadata

/-! ### What a store holds -/

/-- The artifact that is held under each digest. -/
abbrev Slots := String → Option Artifact

/-- The store holds the artifacts of the slots: it describes them, returns their bytes, and lists
those of a tenant. -/
structure Holds {σ : Type} (store : ArtifactStore σ) (digest : List UInt8 → String) (s : σ)
    (slots : Slots) : Prop where
  filed : ∀ id artifact, slots id = some artifact → digest artifact.data = id
  describe : ∀ id, store.describe s id = (slots id).map (·.descriptor digest)
  get : ∀ id, store.get s id = .ok ((slots id).map Artifact.data)
  mem_list : ∀ order tenant descriptor, descriptor ∈ store.listByTenant order s tenant ↔
    ∃ artifact, slots descriptor.id = some artifact ∧ artifact.tenant = tenant ∧
      artifact.descriptor digest = descriptor
  nodup_list : ∀ order tenant, (store.listByTenant order s tenant).Nodup

/-- The operations of the store put artifacts into the slots of their digests, and clear slots. -/
structure ArtifactStore.Keeps {σ : Type} (store : ArtifactStore σ) (digest : List UInt8 → String) :
    Prop where
  new : Holds store digest store.new fun _ ↦ none
  put : ∀ s slots artifact, Holds store digest s slots →
    Holds store digest (store.put s artifact).2
      (Function.update slots (digest artifact.data) (some artifact))
  delete : ∀ s slots id, Holds store digest s slots →
    Holds store digest (store.delete s id).2 (Function.update slots id none)

section Listing

variable {digest : List UInt8 → String} {descriptors : KeyedMap ArtifactDescriptor.id}
  {slots : Slots}

theorem mem_ofTenant
    (h : ∀ id, descriptors.get? id = (slots id).map (·.descriptor digest))
    (order : IterationOrder ArtifactDescriptor) (tenant : String)
    (descriptor : ArtifactDescriptor) :
    descriptor ∈ ofTenant order descriptors tenant ↔
      ∃ artifact, slots descriptor.id = some artifact ∧ artifact.tenant = tenant ∧
        artifact.descriptor digest = descriptor := by
  rw [ofTenant, List.mem_filter, (order.perm _).mem_iff, KeyedMap.mem_values, h,
    Option.map_eq_some_iff, decide_eq_true_iff]
  constructor
  · rintro ⟨⟨artifact, hslot, hdescriptor⟩, htenant⟩
    exact ⟨artifact, hslot, by rw [← htenant, ← hdescriptor]; rfl, hdescriptor⟩
  · rintro ⟨artifact, hslot, htenant, hdescriptor⟩
    exact ⟨⟨artifact, hslot, hdescriptor⟩, by rw [← htenant, ← hdescriptor]; rfl⟩

theorem nodup_ofTenant (order : IterationOrder ArtifactDescriptor) (tenant : String) :
    (ofTenant order descriptors tenant).Nodup :=
  ((order.perm _).nodup_iff.mpr descriptors.nodup_values).filter _

/-- A store that keeps its descriptors in a map holds what the map describes. -/
theorem holds_of_descriptors {σ : Type} {store : ArtifactStore σ} {s : σ}
    (hlist : ∀ order tenant, store.listByTenant order s tenant = ofTenant order descriptors tenant)
    (hlookup : ∀ id, store.describe s id = descriptors.get? id)
    (hfiled : ∀ id artifact, slots id = some artifact → digest artifact.data = id)
    (hdescribe : ∀ id, descriptors.get? id = (slots id).map (·.descriptor digest))
    (hget : ∀ id, store.get s id = .ok ((slots id).map Artifact.data)) :
    Holds store digest s slots where
  filed := hfiled
  describe id := (hlookup id).trans (hdescribe id)
  get := hget
  mem_list order tenant descriptor := by
    rw [hlist]
    exact mem_ofTenant hdescribe order tenant descriptor
  nodup_list order tenant := by
    rw [hlist]
    exact nodup_ofTenant order tenant

/-- An operation that fills or clears one slot. -/
theorem Holds.update {σ : Type} {store : ArtifactStore σ} {s s' : σ} {id : String}
    {value : Option Artifact} (h : Holds store digest s slots)
    (hvalue : ∀ artifact, value = some artifact → digest artifact.data = id)
    (hlist : ∀ order tenant, store.listByTenant order s' tenant = ofTenant order descriptors tenant)
    (hlookup : ∀ other, store.describe s' other = descriptors.get? other)
    (hdescribe : ∀ other, descriptors.get? other =
      if id = other then value.map (·.descriptor digest) else store.describe s other)
    (hget : ∀ other, store.get s' other =
      if id = other then .ok (value.map Artifact.data) else store.get s other) :
    Holds store digest s' (Function.update slots id value) := by
  have hslot (other : String) : Function.update slots id value other =
      if id = other then value else slots other := by
    rw [Function.update_apply]
    simp only [eq_comm]
  refine holds_of_descriptors hlist hlookup (fun other artifact hfound ↦ ?_) (fun other ↦ ?_)
    fun other ↦ ?_
  · rw [hslot] at hfound
    split_ifs at hfound with hid
    · exact hid ▸ hvalue artifact hfound
    · exact h.filed other artifact hfound
  · rw [hdescribe, h.describe, hslot]
    split_ifs <;> rfl
  · rw [hget, h.get, hslot]
    split_ifs <;> rfl

end Listing

theorem memoryArtifacts_keeps (digest : List UInt8 → String) :
    (memoryArtifacts digest).Keeps digest where
  new := by
    refine holds_of_descriptors (fun _ _ ↦ rfl) (fun _ ↦ rfl) (fun _ _ h ↦ by cases h)
      (fun id ↦ KeyedMap.get?_empty id) fun id ↦ ?_
    simp [memoryArtifacts, MemoryArtifactStore.get]
  put s slots artifact h := by
    refine h.update (by simp) (fun _ _ ↦ rfl) (fun _ ↦ rfl) (fun _ ↦ KeyedMap.get?_put ..)
      fun id ↦ ?_
    show Except.ok (s.blobs.insert (digest artifact.data) artifact.data)[id]? = _
    rw [Std.ExtTreeMap.getElem?_insert]
    by_cases hid : digest artifact.data = id <;>
      simp [hid, memoryArtifacts, MemoryArtifactStore.get]
  delete s slots id h := by
    refine h.update (by simp) (fun _ _ ↦ rfl) (fun _ ↦ rfl) (fun _ ↦ KeyedMap.get?_erase ..)
      fun other ↦ ?_
    show Except.ok (s.blobs.erase id)[other]? = _
    rw [Std.ExtTreeMap.getElem?_erase]
    by_cases hid : id = other <;> simp [hid, memoryArtifacts, MemoryArtifactStore.get]

theorem blobPath_injective : Function.Injective blobPath := fun _ _ h ↦ congrArg BlobPath.file h

theorem files_update (files : BlobPath → Option (List UInt8)) (id other : String)
    (value : Option (List UInt8)) : Function.update files (blobPath id) value (blobPath other) =
      if id = other then value else files (blobPath other) := by
  simp only [Function.update_apply, blobPath_injective.eq_iff, eq_comm]

theorem diskArtifacts_keeps (digest : List UInt8 → String) :
    (diskArtifacts digest).Keeps digest where
  new := by
    exact holds_of_descriptors (fun _ _ ↦ rfl) (fun _ ↦ rfl) (fun _ _ h ↦ by cases h)
      (fun id ↦ KeyedMap.get?_empty id) fun id ↦ rfl
  put s slots artifact h := by
    refine h.update (by simp) (fun _ _ ↦ rfl) (fun _ ↦ rfl) (fun _ ↦ KeyedMap.get?_put ..)
      fun id ↦ ?_
    simp only [diskArtifacts, DiskArtifactStore.get, DiskArtifactStore.put, files_update]
    by_cases hid : digest artifact.data = id <;> simp [Artifact.descriptor, hid]
  delete s slots id h := by
    refine h.update (by simp) (fun _ _ ↦ rfl) (fun _ ↦ rfl) (fun _ ↦ KeyedMap.get?_erase ..)
      fun other ↦ ?_
    simp only [diskArtifacts, DiskArtifactStore.get, DiskArtifactStore.delete, files_update]
    by_cases hid : id = other <;> simp [hid]

/-- A digest without collisions: the bytes as characters. -/
def plainDigest (data : List UInt8) : String := String.ofList (data.map fun b ↦ Char.ofNat b.toNat)

theorem plainDigest_injective : Function.Injective plainDigest := by
  have hbyte : Function.Injective fun b : UInt8 ↦ Char.ofNat b.toNat := by
    intro a b hab
    have hvalid : ∀ c : UInt8, (Char.ofNat c.toNat).toNat = c.toNat := by
      intro c
      have hlt := c.toNat_lt
      have hchar : c.toNat.isValidChar := Or.inl (by omega)
      rw [Char.ofNat, dif_pos hchar]
      rfl
    have hnat := congrArg Char.toNat hab
    simp only [hvalid] at hnat
    exact UInt8.toNat_inj.mp hnat
  intro first second h
  exact List.map_injective_iff.mpr hbyte (String.ofList_injective h)

end Runvane.Storage
