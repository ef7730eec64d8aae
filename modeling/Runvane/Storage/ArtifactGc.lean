import Runvane.Storage.Artifacts

/-!
# Sweeps of the artifact stores

`sweep_artifacts` lists the descriptors of its tenants, one tenant after the other, and deletes
those that are old enough and not referred to. What it does to a store that keeps slots is to clear
the slots of the artifacts that it reclaims, in whatever order the descriptors are listed
(`holds_sweepArtifacts`).
-/

set_option autoImplicit false

namespace Runvane.Storage

open Library Domain Persistence

/-! ### The sweep -/

structure ArtifactGcOptions where
  retentionMs : ℕ := 7 * 24 * 3600 * 1000
  dryRun : Bool := false
  tenants : List String := []
  deriving DecidableEq, Repr

/-- What a sweep has inspected and reclaimed. -/
structure ArtifactGcStats where
  scannedCount : ℕ := 0
  scannedBytes : ℕ := 0
  reclaimedCount : ℕ := 0
  reclaimedBytes : ℕ := 0
  purgedIds : List String := []
  deriving DecidableEq, Repr

/-- The tenants that are swept; two of them if none is given. -/
def ArtifactGcOptions.targetTenants (options : ArtifactGcOptions) : List String :=
  if options.tenants.isEmpty then ["default", "acme"] else options.tenants

/-- A sweep with its references and its time. -/
structure Sweep where
  options : ArtifactGcOptions
  activeRefs : NameSet
  nowMs : ℤ

/-- The age of an artifact; one from the future has none. -/
def ageMs (nowMs createdAtMs : ℤ) : ℕ := u64OfI64 (max (i64Sub nowMs createdAtMs) 0)

/-- The variables of the loops. -/
structure SweepState (σ : Type) where
  stats : ArtifactGcStats := {}
  seenIds : NameSet := ∅
  store : σ

section Loops

variable {σ : Type} (store : ArtifactStore σ) (sweep : Sweep)

def sweepDescriptor (state : SweepState σ) (desc : ArtifactDescriptor) : SweepState σ :=
  if desc.id ∈ state.seenIds then state
  else
    let scanned : SweepState σ := { state with
      seenIds := state.seenIds.insert desc.id
      stats := { state.stats with
        scannedCount := state.stats.scannedCount + 1
        scannedBytes := state.stats.scannedBytes + desc.sizeBytes } }
    if desc.id ∈ sweep.activeRefs then scanned
    else if sweep.options.retentionMs ≤ ageMs sweep.nowMs desc.createdAtMs then
      let reclaimed : SweepState σ := { scanned with
        stats := { scanned.stats with
          reclaimedCount := scanned.stats.reclaimedCount + 1
          reclaimedBytes := scanned.stats.reclaimedBytes + desc.sizeBytes
          purgedIds := scanned.stats.purgedIds ++ [desc.id] } }
      if sweep.options.dryRun then reclaimed
      else { reclaimed with store := (store.delete reclaimed.store desc.id).2 }
    else scanned

def sweepTenant (state : SweepState σ) (tenant : String × IterationOrder ArtifactDescriptor) :
    SweepState σ :=
  (store.listByTenant tenant.2 state.store tenant.1).foldl (sweepDescriptor store sweep) state

/-- The whole sweep. The orders are those of the listings. -/
def sweepArtifacts (orders : ℕ → IterationOrder ArtifactDescriptor) (s : σ) :
    ArtifactGcStats × σ :=
  let final := (sweep.options.targetTenants.zipIdx.map fun (tenant, i) ↦ (tenant, orders i)).foldl
    (sweepTenant store sweep) { store := s }
  (final.stats, final.store)

end Loops

/-! ### What is reclaimed -/

/-- The artifact is old enough and not referred to, and the sweep deletes. -/
def Sweep.due (digest : List UInt8 → String) (sweep : Sweep) (artifact : Artifact) : Bool :=
  !sweep.options.dryRun && decide (digest artifact.data ∉ sweep.activeRefs) &&
    decide (sweep.options.retentionMs ≤ ageMs sweep.nowMs artifact.nowMs)

def Sweep.reclaims (digest : List UInt8 → String) (sweep : Sweep) (artifact : Artifact) : Bool :=
  decide (artifact.tenant ∈ sweep.options.targetTenants) && sweep.due digest artifact

def Sweep.cleared (digest : List UInt8 → String) (sweep : Sweep) (slots : Slots) : Slots :=
  fun id ↦ (slots id).filter (!sweep.reclaims digest ·)

/-- The slots in the course of a sweep, which has dealt with the digests it has seen. -/
def Sweep.pruned (digest : List UInt8 → String) (sweep : Sweep) (slots : Slots) (seen : NameSet) :
    Slots :=
  fun id ↦ if id ∈ seen then (slots id).filter (!sweep.due digest ·) else slots id

variable {artifact : Artifact}

section Course

variable {σ : Type} {store : ArtifactStore σ} {digest : List UInt8 → String} {sweep : Sweep}
  {slots : Slots} {seen : NameSet}

theorem slots_of_pruned {id : String} (h : sweep.pruned digest slots seen id = some artifact) :
    slots id = some artifact := by
  unfold Sweep.pruned at h
  split_ifs at h with hseen
  · exact (Option.filter_eq_some_iff.mp h).1
  · exact h

theorem pruned_insert {id : String} (hslot : slots id = some artifact) (hseen : id ∉ seen) :
    sweep.pruned digest slots (seen.insert id) =
      if sweep.due digest artifact then Function.update (sweep.pruned digest slots seen) id none
      else sweep.pruned digest slots seen := by
  funext other
  by_cases hother : other = id
  · subst hother
    cases hdue : sweep.due digest artifact with
    | true => simp [Sweep.pruned, hslot, hdue]
    | false => simp [Sweep.pruned, hslot, hdue]
  · have hmem : other ∈ seen.insert id ↔ other ∈ seen := by
      rw [Std.ExtTreeSet.mem_insert, Std.compare_eq_iff_eq]
      exact or_iff_right fun h ↦ hother h.symm
    have hsame : sweep.pruned digest slots (seen.insert id) other =
        sweep.pruned digest slots seen other := by
      simp only [Sweep.pruned, hmem]
    rw [hsame]
    split_ifs
    · rw [Function.update_of_ne hother]
    · rfl

/-- What the loops keep: the store holds what they have left, and they have seen these digests. -/
structure InCourse (store : ArtifactStore σ) (digest : List UInt8 → String) (sweep : Sweep)
    (slots : Slots) (done : String → Prop) (state : SweepState σ) : Prop where
  holds : Holds store digest state.store (sweep.pruned digest slots state.seenIds)
  seen_iff : ∀ id, id ∈ state.seenIds ↔ done id

variable {done : String → Prop} {state : SweepState σ}

/-- What one descriptor does, when its digest is new. -/
theorem sweepDescriptor_of_notMem (store : ArtifactStore σ) (sweep : Sweep)
    {desc : ArtifactDescriptor} (hdesc : artifact.descriptor digest = desc)
    (hseen : desc.id ∉ state.seenIds) :
    (sweepDescriptor store sweep state desc).seenIds = state.seenIds.insert desc.id ∧
    (sweepDescriptor store sweep state desc).store =
      if sweep.due digest artifact then (store.delete state.store desc.id).2 else state.store := by
  have hdue : sweep.due digest artifact = (!sweep.options.dryRun &&
      decide (desc.id ∉ sweep.activeRefs) &&
        decide (sweep.options.retentionMs ≤ ageMs sweep.nowMs desc.createdAtMs)) := by
    subst hdesc
    rfl
  rw [hdue, sweepDescriptor, if_neg hseen]
  by_cases href : desc.id ∈ sweep.activeRefs
  · simp [href]
  · by_cases hage : sweep.options.retentionMs ≤ ageMs sweep.nowMs desc.createdAtMs
    · cases hdry : sweep.options.dryRun with
      | true => simp [href, hage]
      | false => simp [href, hage]
    · simp [href, hage]

theorem InCourse.sweepDescriptor (hkeeps : store.Keeps digest)
    (h : InCourse store digest sweep slots done state) {desc : ArtifactDescriptor}
    (hslot : slots desc.id = some artifact) (hdesc : artifact.descriptor digest = desc) :
    InCourse store digest sweep slots (fun id ↦ done id ∨ id = desc.id)
      (sweepDescriptor store sweep state desc) := by
  by_cases hseen : desc.id ∈ state.seenIds
  · have hsame : Storage.sweepDescriptor store sweep state desc = state := by
      rw [Storage.sweepDescriptor, if_pos hseen]
    rw [hsame]
    refine ⟨h.holds, fun id ↦ ?_⟩
    rw [h.seen_iff]
    refine ⟨.inl, fun hid ↦ hid.elim (fun h ↦ h) ?_⟩
    rintro rfl
    exact (h.seen_iff _).mp hseen
  · obtain ⟨hids, hstore⟩ := sweepDescriptor_of_notMem store sweep hdesc hseen
    refine ⟨?_, fun id ↦ ?_⟩
    · rw [hids, hstore, pruned_insert hslot hseen]
      split_ifs
      · exact hkeeps.delete _ _ _ h.holds
      · exact h.holds
    · rw [hids, Std.ExtTreeSet.mem_insert, Std.compare_eq_iff_eq, h.seen_iff, or_comm, eq_comm]

theorem InCourse.congr {other : String → Prop} (h : InCourse store digest sweep slots done state)
    (hiff : ∀ id, done id ↔ other id) : InCourse store digest sweep slots other state :=
  ⟨h.holds, fun id ↦ (h.seen_iff id).trans (hiff id)⟩

/-- The inner loop, over descriptors of artifacts in the slots. -/
theorem InCourse.foldl (hkeeps : store.Keeps digest)
    (h : InCourse store digest sweep slots done state) {descs : List ArtifactDescriptor}
    (hdescs : ∀ desc ∈ descs, ∃ artifact, slots desc.id = some artifact ∧
      artifact.descriptor digest = desc) :
    InCourse store digest sweep slots (fun id ↦ done id ∨ ∃ desc ∈ descs, desc.id = id)
      (descs.foldl (Storage.sweepDescriptor store sweep) state) := by
  induction descs generalizing done state with
  | nil => exact h.congr fun id ↦ by simp
  | cons desc descs ih =>
    obtain ⟨artifact, hslot, hdesc⟩ := hdescs desc List.mem_cons_self
    have hrest := ih (h.sweepDescriptor hkeeps hslot hdesc)
      fun other hother ↦ hdescs other (List.mem_cons_of_mem _ hother)
    refine hrest.congr fun id ↦ ?_
    simp only [List.mem_cons, exists_eq_or_imp, or_assoc]
    rw [@eq_comm _ id]

/-- One tenant: the artifacts of the tenant are dealt with. -/
theorem InCourse.sweepTenant (hkeeps : store.Keeps digest)
    (h : InCourse store digest sweep slots done state) (tenant : String)
    (order : IterationOrder ArtifactDescriptor) :
    InCourse store digest sweep slots
      (fun id ↦ done id ∨ ∃ artifact, slots id = some artifact ∧ artifact.tenant = tenant)
      (Storage.sweepTenant store sweep state (tenant, order)) := by
  have hdescs : ∀ desc ∈ store.listByTenant order state.store tenant, ∃ artifact,
      slots desc.id = some artifact ∧ artifact.descriptor digest = desc := by
    intro desc hdesc
    obtain ⟨artifact, hslot, -, hdescriptor⟩ := (h.holds.mem_list order tenant desc).mp hdesc
    exact ⟨artifact, slots_of_pruned hslot, hdescriptor⟩
  refine (h.foldl hkeeps hdescs).congr fun id ↦ ?_
  constructor
  · rintro (hdone | ⟨desc, hdesc, rfl⟩)
    · exact .inl hdone
    · obtain ⟨artifact, hslot, htenant, -⟩ := (h.holds.mem_list order tenant desc).mp hdesc
      exact .inr ⟨artifact, slots_of_pruned hslot, htenant⟩
  · rintro (hdone | ⟨artifact, hslot, htenant⟩)
    · exact .inl hdone
    · by_cases hseen : id ∈ state.seenIds
      · exact .inl ((h.seen_iff id).mp hseen)
      · have hid : (artifact.descriptor digest).id = id := by
          have hpruned : sweep.pruned digest slots state.seenIds id = some artifact := by
            rw [Sweep.pruned, if_neg hseen, hslot]
          exact h.holds.filed id artifact hpruned
        refine .inr ⟨artifact.descriptor digest, ?_, hid⟩
        refine (h.holds.mem_list order tenant _).mpr ⟨artifact, ?_, htenant, rfl⟩
        rw [hid, Sweep.pruned, if_neg hseen, hslot]

/-- The outer loop. -/
theorem InCourse.foldl_tenants (hkeeps : store.Keeps digest)
    (h : InCourse store digest sweep slots done state)
    (tenants : List (String × IterationOrder ArtifactDescriptor)) :
    InCourse store digest sweep slots
      (fun id ↦ done id ∨
        ∃ artifact, slots id = some artifact ∧ artifact.tenant ∈ tenants.map Prod.fst)
      (tenants.foldl (Storage.sweepTenant store sweep) state) := by
  induction tenants generalizing done state with
  | nil => exact h.congr fun id ↦ by simp
  | cons tenant tenants ih =>
    refine (ih (h.sweepTenant hkeeps tenant.1 tenant.2)).congr fun id ↦ ?_
    simp only [List.map_cons, List.mem_cons, or_assoc, and_or_left, exists_or]

/-- Before the first tenant. -/
theorem Holds.inCourse {s : σ} (h : Holds store digest s slots) (sweep : Sweep) :
    InCourse store digest sweep slots (fun _ ↦ False) { store := s } := by
  refine ⟨?_, fun id ↦ by simp⟩
  have hall : sweep.pruned digest slots ∅ = slots := by
    funext id
    simp [Sweep.pruned]
  rw [hall]
  exact h

/-- After the last tenant: the sweep has seen the digests of its tenants' artifacts. -/
theorem inCourse_targetTenants (hkeeps : store.Keeps digest) (sweep : Sweep)
    (orders : ℕ → IterationOrder ArtifactDescriptor) {s : σ} (h : Holds store digest s slots) :
    InCourse store digest sweep slots
      (fun id ↦ ∃ artifact, slots id = some artifact ∧
        artifact.tenant ∈ sweep.options.targetTenants)
      ((sweep.options.targetTenants.zipIdx.map fun (tenant, i) ↦ (tenant, orders i)).foldl
        (Storage.sweepTenant store sweep) { store := s }) := by
  refine ((h.inCourse sweep).foldl_tenants hkeeps _).congr fun id ↦ ?_
  simp only [false_or, List.map_map, Function.comp_def, List.zipIdx_map_fst]

end Course

/-- A sweep clears the slots of the artifacts that it reclaims. -/
theorem holds_sweepArtifacts {σ : Type} {store : ArtifactStore σ} {digest : List UInt8 → String}
    (hkeeps : store.Keeps digest) (sweep : Sweep) (orders : ℕ → IterationOrder ArtifactDescriptor)
    {s : σ} {slots : Slots} (h : Holds store digest s slots) :
    Holds store digest (sweepArtifacts store sweep orders s).2 (sweep.cleared digest slots) := by
  have hend := inCourse_targetTenants hkeeps sweep orders h
  have hcleared : sweep.cleared digest slots = sweep.pruned digest slots
      ((sweep.options.targetTenants.zipIdx.map fun (tenant, i) ↦ (tenant, orders i)).foldl
        (sweepTenant store sweep) { store := s }).seenIds := by
    funext id
    cases hslot : slots id with
    | none => simp [Sweep.cleared, Sweep.pruned, hslot]
    | some artifact =>
      have hseen := hend.seen_iff id
      rw [hslot] at hseen
      simp only [Option.some.injEq, exists_eq_left'] at hseen
      by_cases htenant : artifact.tenant ∈ sweep.options.targetTenants
      · simp [Sweep.cleared, Sweep.pruned, Sweep.reclaims, hslot, hseen, htenant,
          Option.filter_some]
      · simp [Sweep.cleared, Sweep.pruned, Sweep.reclaims, hslot, hseen, htenant,
          Option.filter_some]
  rw [hcleared]
  exact hend.holds

end Runvane.Storage
