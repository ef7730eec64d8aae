import Runvane.Storage.ArtifactGc

/-!
# What a sweep reports

A sweep inspects each descriptor of its tenants once, whether or not it deletes in between, and its
statistics are read off the list of inspected descriptors (`Sweep.report`, `exists_report`). So a
dry run reports what the sweep would do, and the sweep does what it reports (`sweep_exact`).

Without tenants in its options a sweep looks at two fixed tenants only, where the documentation says
that it discovers them. `unscoped_sweep_complete_iff` says when that leaves nothing behind.
-/

set_option autoImplicit false

namespace Runvane.Storage

open Library Domain Persistence

/-! ### Stores that are built by puts and deletes -/

inductive StoreChange
  | put (artifact : Artifact)
  | delete (id : String)

def builtBy (digest : List UInt8 → String) (changes : List StoreChange) : MemoryArtifactStore :=
  changes.foldl (fun s change ↦ match change with
    | .put artifact => ((memoryArtifacts digest).put s artifact).2
    | .delete id => ((memoryArtifacts digest).delete s id).2) (memoryArtifacts digest).new

theorem exists_holds_builtBy (digest : List UInt8 → String) (changes : List StoreChange) :
    ∃ slots, Holds (memoryArtifacts digest) digest (builtBy digest changes) slots := by
  have hkeeps := memoryArtifacts_keeps digest
  induction changes using List.reverseRecOn with
  | nil => exact ⟨_, hkeeps.new⟩
  | append_singleton changes change ih =>
    obtain ⟨slots, hslots⟩ := ih
    rw [builtBy, List.foldl_append]
    cases change with
    | put artifact => exact ⟨_, hkeeps.put _ _ artifact hslots⟩
    | delete id => exact ⟨_, hkeeps.delete _ _ id hslots⟩

/-! ### The report -/

/-- The descriptor is not referred to and old enough, whether or not the sweep deletes. -/
def Sweep.stale (sweep : Sweep) (desc : ArtifactDescriptor) : Bool :=
  decide (desc.id ∉ sweep.activeRefs) &&
    decide (sweep.options.retentionMs ≤ ageMs sweep.nowMs desc.createdAtMs)

def Sweep.report (sweep : Sweep) (inspected : List ArtifactDescriptor) : ArtifactGcStats where
  scannedCount := inspected.length
  scannedBytes := (inspected.map ArtifactDescriptor.sizeBytes).sum
  reclaimedCount := (inspected.filter sweep.stale).length
  reclaimedBytes := ((inspected.filter sweep.stale).map ArtifactDescriptor.sizeBytes).sum
  purgedIds := (inspected.filter sweep.stale).map ArtifactDescriptor.id

def Sweep.rehearsed (sweep : Sweep) : Sweep :=
  { sweep with options := { sweep.options with dryRun := true } }

/-- The loops have inspected these descriptors of artifacts in the slots, each id once, and have
them in the statistics. -/
structure OnRecord {σ : Type} (digest : List UInt8 → String) (slots : Slots) (sweep : Sweep)
    (inspected : List ArtifactDescriptor) (state : SweepState σ) : Prop where
  stats : state.stats = sweep.report inspected
  mem_seen : ∀ id, id ∈ state.seenIds ↔ id ∈ inspected.map ArtifactDescriptor.id
  nodup : (inspected.map ArtifactDescriptor.id).Nodup
  stored : ∀ desc ∈ inspected, ∃ artifact, slots desc.id = some artifact ∧
    artifact.descriptor digest = desc

variable {desc : ArtifactDescriptor}

section Loops

variable {σ : Type} {store : ArtifactStore σ} {sweep : Sweep} {state : SweepState σ}
  {inspected : List ArtifactDescriptor} {digest : List UInt8 → String} {slots : Slots}

theorem stats_sweepDescriptor (hseen : desc.id ∉ state.seenIds)
    (h : state.stats = sweep.report inspected) :
    (sweepDescriptor store sweep state desc).stats = sweep.report (inspected ++ [desc]) := by
  rw [sweepDescriptor, if_neg hseen, h]
  by_cases href : desc.id ∈ sweep.activeRefs
  · simp [href, Sweep.report, Sweep.stale, List.filter_append]
  · by_cases hage : sweep.options.retentionMs ≤ ageMs sweep.nowMs desc.createdAtMs
    · cases hdry : sweep.options.dryRun with
      | true | false => simp [href, hage, Sweep.report, Sweep.stale, List.filter_append]
    · simp [href, hage, Sweep.report, Sweep.stale, List.filter_append]

theorem exists_onRecord_sweepDescriptor
    (h : ∃ inspected, OnRecord digest slots sweep inspected state)
    (hstored : ∃ artifact, slots desc.id = some artifact ∧ artifact.descriptor digest = desc) :
    ∃ inspected,
      OnRecord digest slots sweep inspected (sweepDescriptor store sweep state desc) := by
  obtain ⟨inspected, h⟩ := h
  by_cases hseen : desc.id ∈ state.seenIds
  · refine ⟨inspected, ?_⟩
    rwa [sweepDescriptor, if_pos hseen]
  · have hnew : desc.id ∉ inspected.map ArtifactDescriptor.id := fun hmem ↦
      hseen ((h.mem_seen _).mpr hmem)
    refine ⟨inspected ++ [desc], stats_sweepDescriptor hseen h.stats, fun id ↦ ?_, ?_, ?_⟩
    · obtain ⟨artifact, -, hdesc⟩ := hstored
      rw [(sweepDescriptor_of_notMem store sweep hdesc hseen).1, Std.ExtTreeSet.mem_insert,
        Std.compare_eq_iff_eq, h.mem_seen, List.map_append, List.mem_append, List.map_singleton,
        List.mem_singleton, or_comm, eq_comm]
    · rw [List.map_append, List.map_singleton]
      exact h.nodup.append (List.nodup_singleton _) (by simpa using hnew)
    · exact List.forall_mem_append.mpr ⟨h.stored, by simpa using hstored⟩

/-- Both loops: what is listed are descriptors of artifacts in the slots. -/
theorem exists_onRecord_foldl {done : String → Prop} (hkeeps : store.Keeps digest)
    (hcourse : InCourse store digest sweep slots done state)
    (h : ∃ inspected, OnRecord digest slots sweep inspected state)
    (tenants : List (String × IterationOrder ArtifactDescriptor)) :
    ∃ inspected,
      OnRecord digest slots sweep inspected (tenants.foldl (sweepTenant store sweep) state) := by
  induction tenants generalizing state done with
  | nil => exact h
  | cons tenant tenants ih =>
    refine ih (hcourse.sweepTenant hkeeps tenant.1 tenant.2) (List.foldlRecOn
      (motive := fun state ↦ ∃ inspected, OnRecord digest slots sweep inspected state) _ _ h
      fun state hstate desc hlisted ↦ exists_onRecord_sweepDescriptor hstate ?_)
    obtain ⟨artifact, hslot, -, hdescriptor⟩ :=
      (hcourse.holds.mem_list tenant.2 tenant.1 desc).mp hlisted
    exact ⟨artifact, slots_of_pruned hslot, hdescriptor⟩

/-- A dry run leaves the store alone. -/
theorem store_sweepArtifacts_of_dryRun (hdry : sweep.options.dryRun = true)
    (orders : ℕ → IterationOrder ArtifactDescriptor) (s : σ) :
    (sweepArtifacts store sweep orders s).2 = s := by
  have hdescriptor (state : SweepState σ) (desc : ArtifactDescriptor) :
      (sweepDescriptor store sweep state desc).store = state.store := by
    unfold sweepDescriptor
    dsimp only
    split_ifs <;> rfl
  -- both loops leave the store as it is
  refine List.foldlRecOn (motive := fun state : SweepState σ ↦ state.store = s) _ _ rfl
    fun state h tenant _ ↦ ?_
  exact List.foldlRecOn (motive := fun state : SweepState σ ↦ state.store = s) _ _ h
    fun state h desc _ ↦ (hdescriptor state desc).trans h

/-- The report of a sweep: it has inspected every descriptor of its tenants once, and no other. -/
theorem exists_report (hkeeps : store.Keeps digest) (sweep : Sweep)
    (orders : ℕ → IterationOrder ArtifactDescriptor) {s : σ} (h : Holds store digest s slots) :
    ∃ inspected, (sweepArtifacts store sweep orders s).1 = sweep.report inspected ∧
      (inspected.map ArtifactDescriptor.id).Nodup ∧
      ∀ desc, desc ∈ inspected ↔ ∃ artifact, slots desc.id = some artifact ∧
        artifact.descriptor digest = desc ∧ artifact.tenant ∈ sweep.options.targetTenants := by
  have hstart : OnRecord digest slots sweep [] ({ store := s } : SweepState σ) :=
    ⟨rfl, fun id ↦ by simp, List.nodup_nil, by simp⟩
  obtain ⟨inspected, hrecord⟩ := exists_onRecord_foldl hkeeps (h.inCourse sweep) ⟨[], hstart⟩
    (sweep.options.targetTenants.zipIdx.map fun tenant ↦ (tenant.1, orders tenant.2))
  have hend := inCourse_targetTenants hkeeps sweep orders h
  refine ⟨inspected, hrecord.stats, hrecord.nodup, fun desc ↦ ⟨fun hdesc ↦ ?_, ?_⟩⟩
  · obtain ⟨artifact, hslot, hdescriptor⟩ := hrecord.stored desc hdesc
    have hseen := (hrecord.mem_seen desc.id).mpr (List.mem_map_of_mem hdesc)
    obtain ⟨found, hfound, htenant⟩ := (hend.seen_iff desc.id).mp hseen
    obtain rfl : artifact = found := Option.some.inj (hslot.symm.trans hfound)
    exact ⟨artifact, hslot, hdescriptor, htenant⟩
  · rintro ⟨artifact, hslot, hdescriptor, htenant⟩
    have hseen := (hend.seen_iff desc.id).mpr ⟨artifact, hslot, htenant⟩
    obtain ⟨other, hother, hid⟩ := List.mem_map.mp ((hrecord.mem_seen desc.id).mp hseen)
    obtain ⟨found, hfound, hdescribes⟩ := hrecord.stored other hother
    rw [hid, hslot] at hfound
    obtain rfl : artifact = found := Option.some.inj hfound
    have hsame : other = desc := hdescribes.symm.trans hdescriptor
    rwa [← hsame]

end Loops

/-- Statistics that differ in the order of the purged ids only. -/
structure SameUpToOrder (first second : ArtifactGcStats) : Prop where
  scannedCount : first.scannedCount = second.scannedCount
  scannedBytes : first.scannedBytes = second.scannedBytes
  reclaimedCount : first.reclaimedCount = second.reclaimedCount
  reclaimedBytes : first.reclaimedBytes = second.reclaimedBytes
  purgedIds : first.purgedIds.Perm second.purgedIds

theorem report_of_perm (sweep : Sweep) {first second : List ArtifactDescriptor}
    (h : first.Perm second) : SameUpToOrder (sweep.report first) (sweep.report second) := by
  have hstale := h.filter sweep.stale
  exact ⟨h.length_eq, (h.map _).sum_eq, hstale.length_eq, (hstale.map _).sum_eq, hstale.map _⟩

/-! ### What is purged -/

/-- The artifact is not referred to and its age reaches the retention. -/
def Sweep.Outlived (sweep : Sweep) (desc : ArtifactDescriptor) : Prop :=
  desc.id ∉ sweep.activeRefs ∧
    (sweep.options.retentionMs : ℤ) ≤ max 0 (sweep.nowMs - desc.createdAtMs)

def AgesFit (sweep : Sweep) (s : MemoryArtifactStore) : Prop :=
  ∀ id desc, s.describe id = some desc →
    i64Min ≤ sweep.nowMs - desc.createdAtMs ∧ sweep.nowMs - desc.createdAtMs ≤ i64Max

/-- Exactly these ids are gone from the store, and the rest is as it was. -/
structure Removed (ids : List String) (s s' : MemoryArtifactStore) : Prop where
  describe : ∀ id, s'.describe id = if id ∈ ids then none else s.describe id
  get : ∀ id, s'.get id = if id ∈ ids then none else s.get id
  list : ∀ order order' tenant, (ofTenant order' s'.descriptors tenant).Perm
    ((ofTenant order s.descriptors tenant).filter (·.id ∉ ids))

theorem cast_ageMs {nowMs createdAtMs : ℤ} (hlow : i64Min ≤ nowMs - createdAtMs)
    (hhigh : nowMs - createdAtMs ≤ i64Max) :
    (ageMs nowMs createdAtMs : ℤ) = max 0 (nowMs - createdAtMs) := by
  rw [ageMs, i64Sub_of_mem hlow hhigh]
  unfold u64OfI64
  unfold i64Max at hhigh
  omega

section Purged

variable {digest : List UInt8 → String} {s : MemoryArtifactStore} {slots : Slots} {sweep : Sweep}
  (h : Holds (memoryArtifacts digest) digest s slots)
  (orders : ℕ → IterationOrder ArtifactDescriptor)

/-- Where ages do not overflow, the descriptors that a sweep takes for stale are those that have
outlived the retention. -/
theorem stale_iff (hfits : AgesFit sweep s) {id : String} (hdesc : s.describe id = some desc) :
    sweep.stale desc = true ↔ sweep.Outlived desc := by
  obtain ⟨hlow, hhigh⟩ := hfits id desc hdesc
  rw [Sweep.stale, Sweep.Outlived, Bool.and_eq_true, decide_eq_true_iff, decide_eq_true_iff,
    ← cast_ageMs hlow hhigh, Nat.cast_le]

theorem reclaims_eq_stale (hreal : sweep.options.dryRun = false) (artifact : Artifact) :
    sweep.reclaims digest artifact = (decide (artifact.tenant ∈ sweep.options.targetTenants) &&
      sweep.stale (artifact.descriptor digest)) := by
  rw [Sweep.reclaims, Sweep.due, hreal]
  rfl

include h

variable (sweep) in
theorem mem_purgedIds (id : String) :
    id ∈ (sweepArtifacts (memoryArtifacts digest) sweep orders s).1.purgedIds ↔
      ∃ artifact, slots id = some artifact ∧
        artifact.tenant ∈ sweep.options.targetTenants ∧
        sweep.stale (artifact.descriptor digest) = true := by
  obtain ⟨inspected, hreport, -, hmem⟩ :=
    exists_report (memoryArtifacts_keeps digest) sweep orders h
  rw [hreport, Sweep.report, List.mem_map]
  simp only [List.mem_filter, hmem]
  constructor
  · rintro ⟨desc, ⟨⟨artifact, hslot, hdescriptor, htenant⟩, hstale⟩, rfl⟩
    exact ⟨artifact, hslot, htenant, by rwa [hdescriptor]⟩
  · rintro ⟨artifact, hslot, htenant, hstale⟩
    have hid : (artifact.descriptor digest).id = id := h.filed id artifact hslot
    exact ⟨_, ⟨⟨artifact, by rwa [hid], rfl, htenant⟩, hstale⟩, hid⟩

/-- The purged ids are those of stored descriptors of the tenants that have outlived the retention.
-/
theorem mem_purgedIds_iff_describe (hfits : AgesFit sweep s) (id : String) :
    id ∈ (sweepArtifacts (memoryArtifacts digest) sweep orders s).1.purgedIds ↔
      ∃ desc, s.describe id = some desc ∧ desc.tenant ∈ sweep.options.targetTenants ∧
        sweep.Outlived desc := by
  have hdescribe : s.describe id = (slots id).map (·.descriptor digest) := h.describe id
  rw [mem_purgedIds sweep h orders]
  constructor
  · rintro ⟨artifact, hslot, htenant, hstale⟩
    rw [hslot] at hdescribe
    exact ⟨_, hdescribe, htenant, (stale_iff hfits hdescribe).mp hstale⟩
  · rintro ⟨desc, hdesc, htenant, houtlived⟩
    have hstale := (stale_iff hfits hdesc).mpr houtlived
    rw [hdesc] at hdescribe
    obtain ⟨artifact, hslot, rfl⟩ := Option.map_eq_some_iff.mp hdescribe.symm
    exact ⟨artifact, hslot, htenant, hstale⟩

/-- The slots that a sweep clears are those of the ids that it reports. -/
theorem cleared_eq (hreal : sweep.options.dryRun = false) (id : String) :
    sweep.cleared digest slots id =
      if id ∈ (sweepArtifacts (memoryArtifacts digest) sweep orders s).1.purgedIds then none
      else slots id := by
  have hmem := mem_purgedIds sweep h orders id
  rw [Sweep.cleared]
  cases hslot : slots id with
  | none => simp
  | some artifact =>
    simp only [hslot, Option.some.injEq, exists_eq_left'] at hmem
    rw [Option.filter_some, reclaims_eq_stale hreal]
    simp only [hmem]
    by_cases htenant : artifact.tenant ∈ sweep.options.targetTenants
    · cases hstale : sweep.stale (artifact.descriptor digest) with
      | true | false => simp [htenant]
    · simp [htenant]

/-- The sweep removes the ids that it reports. -/
theorem removed_purgedIds (hreal : sweep.options.dryRun = false) :
    Removed (sweepArtifacts (memoryArtifacts digest) sweep orders s).1.purgedIds s
      (sweepArtifacts (memoryArtifacts digest) sweep orders s).2 := by
  have hafter := holds_sweepArtifacts (memoryArtifacts_keeps digest) sweep orders h
  have hcleared := cleared_eq h orders hreal
  generalize (sweepArtifacts (memoryArtifacts digest) sweep orders s).1.purgedIds = ids
    at hcleared ⊢
  generalize (sweepArtifacts (memoryArtifacts digest) sweep orders s).2 = s' at hafter ⊢
  refine ⟨fun id ↦ ?_, fun id ↦ ?_, fun order order' tenant ↦ ?_⟩
  · have hnew : s'.describe id = _ := hafter.describe id
    have hold : s.describe id = _ := h.describe id
    rw [hnew, hold, hcleared]
    split_ifs <;> rfl
  · have hnew : s'.get id = _ := Except.ok.inj (hafter.get id)
    have hold : s.get id = _ := Except.ok.inj (h.get id)
    rw [hnew, hold, hcleared]
    split_ifs <;> rfl
  · refine (List.perm_ext_iff_of_nodup (hafter.nodup_list order' tenant)
      ((h.nodup_list order tenant).filter _)).mpr fun desc ↦ ?_
    rw [hafter.mem_list, List.mem_filter, h.mem_list, hcleared, decide_eq_true_iff]
    by_cases hpurged : desc.id ∈ ids
    · simp [hpurged]
    · simp [hpurged]

end Purged

/-- A sweep of given tenants reports, each once, the ids of their artifacts that are not referred to
and have outlived the retention. It removes these from the store and nothing else. Its dry run
leaves the store as it is and reports the same, whatever the orders in which descriptors are listed.
-/
theorem sweep_exact (digest : List UInt8 → String) (changes : List StoreChange) (sweep : Sweep)
    (hreal : sweep.options.dryRun = false) (htenants : sweep.options.tenants ≠ [])
    (hfits : AgesFit sweep (builtBy digest changes))
    (orders orders' : ℕ → IterationOrder ArtifactDescriptor) :
    (sweepArtifacts (memoryArtifacts digest) sweep orders
      (builtBy digest changes)).1.purgedIds.Nodup ∧
    (∀ id, id ∈ (sweepArtifacts (memoryArtifacts digest) sweep orders
        (builtBy digest changes)).1.purgedIds ↔
      ∃ desc, (builtBy digest changes).describe id = some desc ∧
        desc.tenant ∈ sweep.options.tenants ∧ sweep.Outlived desc) ∧
    Removed (sweepArtifacts (memoryArtifacts digest) sweep orders
        (builtBy digest changes)).1.purgedIds (builtBy digest changes)
      (sweepArtifacts (memoryArtifacts digest) sweep orders (builtBy digest changes)).2 ∧
    (sweepArtifacts (memoryArtifacts digest) sweep.rehearsed orders'
      (builtBy digest changes)).2 = builtBy digest changes ∧
    SameUpToOrder
      (sweepArtifacts (memoryArtifacts digest) sweep.rehearsed orders' (builtBy digest changes)).1
      (sweepArtifacts (memoryArtifacts digest) sweep orders (builtBy digest changes)).1 := by
  obtain ⟨slots, hslots⟩ := exists_holds_builtBy digest changes
  generalize builtBy digest changes = s at hslots hfits ⊢
  have hkeeps := memoryArtifacts_keeps digest
  have htarget : sweep.options.targetTenants = sweep.options.tenants := by
    rw [ArtifactGcOptions.targetTenants, if_neg (by simpa using htenants)]
  obtain ⟨inspected, hreport, hnodup, hmem⟩ := exists_report hkeeps sweep orders hslots
  obtain ⟨rehearsed, hreport', hnodup', hmem'⟩ :=
    exists_report hkeeps sweep.rehearsed orders' hslots
  refine ⟨?_, fun id ↦ ?_, removed_purgedIds hslots orders hreal,
    store_sweepArtifacts_of_dryRun rfl orders' s, ?_⟩
  · rw [hreport]
    exact hnodup.sublist (List.filter_sublist.map _)
  · rw [mem_purgedIds_iff_describe hslots orders hfits, htarget]
  · rw [hreport, hreport']
    refine report_of_perm sweep ?_
    exact (List.perm_ext_iff_of_nodup (hnodup'.of_map _) (hnodup.of_map _)).mpr fun desc ↦
      (hmem' desc).trans (hmem desc).symm

/-- A property of the stored descriptors, checked on their list. -/
theorem forall_described {s : MemoryArtifactStore} {p : ArtifactDescriptor → Prop}
    (h : ∀ desc ∈ s.descriptors.values, p desc) {id : String} (hdesc : s.describe id = some desc) :
    p desc := by
  have hid : desc.id = id := KeyedMap.key_of_get? hdesc
  have hget : s.descriptors.get? id = some desc := hdesc
  exact h desc (KeyedMap.mem_values.mpr (by rwa [hid]))

/-- Artifacts that two tenants have put at time 0. -/
def sampleChanges : List StoreChange :=
  [.put ⟨"acme", "report", [7], "text/plain", 0⟩, .put ⟨"globex", "report", [8], "text/plain", 0⟩]

def weekLater (tenants : List String) : Sweep := ⟨{ tenants := tenants }, ∅, 604800000⟩

/-- Listings in the order of the map. -/
def plainOrders : ℕ → IterationOrder ArtifactDescriptor := fun _ ↦ .stored

theorem agesFit_weekLater (tenants : List String) {changes : List StoreChange}
    (h : ∀ desc ∈ (builtBy plainDigest changes).descriptors.values, desc.createdAtMs = 0) :
    AgesFit (weekLater tenants) (builtBy plainDigest changes) := by
  intro id desc hdesc
  rw [forall_described h hdesc]
  exact (by decide : i64Min ≤ (604800000 : ℤ) - 0 ∧ (604800000 : ℤ) - 0 ≤ i64Max)

theorem sweep_exact_listed_twice :
    (sweepArtifacts (memoryArtifacts plainDigest) (weekLater ["acme", "acme"]) plainOrders
      (builtBy plainDigest sampleChanges)).1.purgedIds = [plainDigest [7]] ∧
    Removed [plainDigest [7]] (builtBy plainDigest sampleChanges)
      (sweepArtifacts (memoryArtifacts plainDigest) (weekLater ["acme", "acme"]) plainOrders
        (builtBy plainDigest sampleChanges)).2 := by
  have hpurged : (sweepArtifacts (memoryArtifacts plainDigest) (weekLater ["acme", "acme"])
      plainOrders (builtBy plainDigest sampleChanges)).1.purgedIds = [plainDigest [7]] := by
    decide
  obtain ⟨-, -, hremoved, -⟩ := sweep_exact plainDigest sampleChanges (weekLater ["acme", "acme"])
    rfl (by decide) (agesFit_weekLater _ (by decide)) plainOrders plainOrders
  rw [hpurged] at hremoved
  exact ⟨hpurged, hremoved⟩

/-- A sweep without tenants leaves no artifact that is not referred to and has outlived the
retention, exactly if those that there are belong to one of the two tenants that it looks at. -/
theorem unscoped_sweep_complete_iff (digest : List UInt8 → String) (changes : List StoreChange)
    (sweep : Sweep) (hreal : sweep.options.dryRun = false) (htenants : sweep.options.tenants = [])
    (hfits : AgesFit sweep (builtBy digest changes))
    (orders : ℕ → IterationOrder ArtifactDescriptor) :
    (∀ id desc, (sweepArtifacts (memoryArtifacts digest) sweep orders
        (builtBy digest changes)).2.describe id = some desc → ¬ sweep.Outlived desc) ↔
      ∀ id desc, (builtBy digest changes).describe id = some desc → sweep.Outlived desc →
        desc.tenant = "default" ∨ desc.tenant = "acme" := by
  obtain ⟨slots, hslots⟩ := exists_holds_builtBy digest changes
  generalize builtBy digest changes = s at hslots hfits ⊢
  have htarget : sweep.options.targetTenants = ["default", "acme"] := by
    rw [ArtifactGcOptions.targetTenants, htenants]
    rfl
  have hremoved := removed_purgedIds hslots orders hreal
  have hmem := mem_purgedIds_iff_describe hslots orders hfits
  simp only [htarget, List.mem_cons, List.not_mem_nil, or_false] at hmem
  constructor
  · intro hcomplete id desc hdesc houtlived
    by_contra htenant
    refine hcomplete id desc ?_ houtlived
    rw [hremoved.describe, if_neg, hdesc]
    intro hpurged
    obtain ⟨found, hfound, hlisted, -⟩ := (hmem id).mp hpurged
    obtain rfl : desc = found := Option.some.inj (hdesc.symm.trans hfound)
    exact htenant hlisted
  · intro hscope id desc hdesc houtlived
    rw [hremoved.describe] at hdesc
    split_ifs at hdesc with hpurged
    have htenant := hscope id desc hdesc houtlived
    exact hpurged ((hmem id).mpr ⟨desc, hdesc, htenant, houtlived⟩)

theorem unscoped_sweep_leaves_globex :
    AgesFit (weekLater []) (builtBy plainDigest sampleChanges) ∧
    ¬ ∀ id desc, (sweepArtifacts (memoryArtifacts plainDigest) (weekLater []) plainOrders
      (builtBy plainDigest sampleChanges)).2.describe id = some desc →
        ¬ (weekLater []).Outlived desc := by
  refine ⟨agesFit_weekLater _ (by decide), fun hcomplete ↦ ?_⟩
  have hleft : (sweepArtifacts (memoryArtifacts plainDigest) (weekLater []) plainOrders
      (builtBy plainDigest sampleChanges)).2.describe (plainDigest [8]) =
        some ⟨plainDigest [8], "globex", "report", "text/plain", 1, 0⟩ := by
    decide
  refine hcomplete _ _ hleft ⟨?_, by decide⟩
  simp [weekLater]

theorem unscoped_sweep_complete_acme :
    AgesFit (weekLater []) (builtBy plainDigest (sampleChanges.take 1)) ∧
    ∀ id desc, (sweepArtifacts (memoryArtifacts plainDigest) (weekLater []) plainOrders
      (builtBy plainDigest (sampleChanges.take 1))).2.describe id = some desc →
        ¬ (weekLater []).Outlived desc := by
  have hacme : ∀ desc ∈ (builtBy plainDigest (sampleChanges.take 1)).descriptors.values,
      desc.tenant = "acme" := by decide
  have hfits : AgesFit (weekLater []) (builtBy plainDigest (sampleChanges.take 1)) :=
    agesFit_weekLater [] (by decide)
  refine ⟨hfits, (unscoped_sweep_complete_iff plainDigest (sampleChanges.take 1) (weekLater []) rfl
    rfl hfits plainOrders).mpr fun id desc hdesc _ ↦ ?_⟩
  exact .inr (forall_described hacme hdesc)

end Runvane.Storage
