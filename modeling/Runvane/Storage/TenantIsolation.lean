import Runvane.Storage.ArtifactGc

/-!
# What tenants do to each other's artifacts

Artifacts with one digest share one slot, whose descriptor names the tenant that put it last. A
tenant that puts data which another tenant has put before takes the slot over: the artifact is no
longer listed for the other tenant.

The histories compared are all operations, and those that concern one tenant. A tenant that owns a
slot in the full history owns it in its own (`own_of_full`). In the other direction a slot of the
own history is lost exactly if another tenant has put its data since (`isolated_iff`).
-/

set_option autoImplicit false

namespace Runvane.Storage

open Library Domain Persistence

/-! ### Histories -/

/-- An operation on an artifact store. -/
inductive ArtifactOp
  | put (artifact : Artifact)
  | sweep (sweep : Sweep)

namespace ArtifactOp

/-- The operation concerns the tenant: it is a put of the tenant, or a sweep that lists it. -/
def concerns (tenant : String) : ArtifactOp → Bool
  | put artifact => artifact.tenant = tenant
  | sweep swept => tenant ∈ swept.options.tenants

theorem concerns_put {tenant : String} {artifact : Artifact} :
    (put artifact).concerns tenant = true ↔ artifact.tenant = tenant := decide_eq_true_iff

theorem concerns_sweep {tenant : String} {swept : Sweep} :
    (sweep swept).concerns tenant = true ↔ tenant ∈ swept.options.tenants := decide_eq_true_iff

def apply {σ : Type} (store : ArtifactStore σ) (orders : ℕ → IterationOrder ArtifactDescriptor)
    (s : σ) : ArtifactOp → σ
  | put artifact => (store.put s artifact).2
  | sweep swept => (sweepArtifacts store swept orders s).2

def onSlots (digest : List UInt8 → String) (slots : Slots) : ArtifactOp → Slots
  | put artifact => Function.update slots (digest artifact.data) (some artifact)
  | sweep swept => swept.cleared digest slots

end ArtifactOp

def storeAfter {σ : Type} (store : ArtifactStore σ)
    (ops : List (ArtifactOp × (ℕ → IterationOrder ArtifactDescriptor))) : σ :=
  ops.foldl (fun s op ↦ op.1.apply store op.2 s) store.new

def slotsAfter (digest : List UInt8 → String) (ops : List ArtifactOp) : Slots :=
  ops.foldl (ArtifactOp.onSlots digest) fun _ ↦ none

/-- What either store holds after the operations. -/
theorem holds_storeAfter {σ : Type} {store : ArtifactStore σ} {digest : List UInt8 → String}
    (hkeeps : store.Keeps digest)
    (ops : List (ArtifactOp × (ℕ → IterationOrder ArtifactDescriptor))) :
    Holds store digest (storeAfter store ops) (slotsAfter digest (ops.map Prod.fst)) := by
  induction ops using List.reverseRecOn with
  | nil => exact hkeeps.new
  | append_singleton ops op ih =>
    rw [storeAfter, slotsAfter, List.map_append, List.foldl_append, List.foldl_append]
    obtain ⟨op, orders⟩ := op
    cases op with
    | put artifact => exact hkeeps.put _ _ artifact ih
    | sweep swept => exact holds_sweepArtifacts hkeeps swept orders ih

/-! ### The property -/

/-- After the full history and after the own history of a tenant, the tenant has the same artifacts.
-/
def Isolated {σ : Type} (store : ArtifactStore σ) (tenant : String)
    (full own : List (ArtifactOp × (ℕ → IterationOrder ArtifactDescriptor)))
    (order order' : IterationOrder ArtifactDescriptor) : Prop :=
  (store.listByTenant order (storeAfter store full) tenant).Perm
    (store.listByTenant order' (storeAfter store own) tenant) ∧
  ∀ descriptor ∈ store.listByTenant order (storeAfter store full) tenant,
    store.get (storeAfter store full) descriptor.id = store.get (storeAfter store own) descriptor.id

/-- The tenant has put an artifact which it has not put again, which no sweep has reclaimed since,
and whose digest another tenant has put since. -/
def TakenOver (digest : List UInt8 → String) (tenant : String) (ops : List ArtifactOp) : Prop :=
  ∃ before artifact after, ops = before ++ .put artifact :: after ∧ artifact.tenant = tenant ∧
    (∀ later, .put later ∈ after → digest later.data = digest artifact.data →
      later.tenant ≠ tenant) ∧
    (∀ swept, .sweep swept ∈ after → swept.reclaims digest artifact = false) ∧
    ∃ later, .put later ∈ after ∧ digest later.data = digest artifact.data

/-! ### One slot -/

section Slot

variable {digest : List UInt8 → String} {tenant id : String} {artifact : Artifact}
  {ops : List ArtifactOp}

theorem slotsAfter_snoc (digest : List UInt8 → String) (ops : List ArtifactOp) (op : ArtifactOp) :
    slotsAfter digest (ops ++ [op]) = op.onSlots digest (slotsAfter digest ops) := by
  rw [slotsAfter, List.foldl_append]
  rfl

/-- The operation leaves an artifact in its slot. -/
def Spares (digest : List UInt8 → String) (id : String) (artifact : Artifact) : ArtifactOp → Prop
  | .put other => digest other.data ≠ id
  | .sweep swept => swept.reclaims digest artifact = false

theorem onSlots_of_spares {slots : Slots} {op : ArtifactOp} (h : Spares digest id artifact op) :
    op.onSlots digest slots id = some artifact ↔ slots id = some artifact := by
  cases op with
  | put other => rw [ArtifactOp.onSlots, Function.update_of_ne (Ne.symm h)]
  | sweep swept =>
    rw [ArtifactOp.onSlots, Sweep.cleared, Option.filter_eq_some_iff]
    exact and_iff_left (by rw [show swept.reclaims digest artifact = false from h]; rfl)

theorem foldl_onSlots_of_spares {slots : Slots} (h : ∀ op ∈ ops, Spares digest id artifact op)
    (hslot : slots id = some artifact) :
    ops.foldl (ArtifactOp.onSlots digest) slots id = some artifact := by
  induction ops generalizing slots with
  | nil => exact hslot
  | cons op ops ih =>
    refine ih (fun other hother ↦ h other (List.mem_cons_of_mem _ hother)) ?_
    exact (onSlots_of_spares (h op List.mem_cons_self)).mpr hslot

/-- An artifact that is put and spared since is in its slot. -/
theorem slotsAfter_of_spares {before after : List ArtifactOp}
    (h : ∀ op ∈ after, Spares digest (digest artifact.data) artifact op) :
    slotsAfter digest (before ++ .put artifact :: after) (digest artifact.data) =
      some artifact := by
  rw [slotsAfter, List.foldl_append, List.foldl_cons]
  refine foldl_onSlots_of_spares h ?_
  rw [ArtifactOp.onSlots, Function.update_self]

/-- Once other tenants have put data with a digest, and the tenant has not, the slot is not the
tenant's. -/
theorem tenant_ne_of_puts {slots : Slots}
    (hput : ∃ later, .put later ∈ ops ∧ digest later.data = id)
    (hothers : ∀ later, .put later ∈ ops → digest later.data = id → later.tenant ≠ tenant)
    (hslot : ops.foldl (ArtifactOp.onSlots digest) slots id = some artifact) :
    artifact.tenant ≠ tenant := by
  induction ops using List.reverseRecOn with
  | nil =>
    obtain ⟨later, hmem, -⟩ := hput
    cases hmem
  | append_singleton ops op ih =>
    rw [List.foldl_append] at hslot
    change op.onSlots digest (ops.foldl (ArtifactOp.onSlots digest) slots) id =
      some artifact at hslot
    have hold := fun later hlater ↦ hothers later (List.mem_append_left _ hlater)
    cases op with
    | put other =>
      by_cases hid : digest other.data = id
      · rw [ArtifactOp.onSlots, hid, Function.update_self] at hslot
        obtain rfl := Option.some.inj hslot
        exact hothers other (by simp) hid
      · rw [ArtifactOp.onSlots, Function.update_of_ne (Ne.symm hid)] at hslot
        refine ih ?_ hold hslot
        obtain ⟨later, hmem, hlater⟩ := hput
        refine ⟨later, (List.mem_append.mp hmem).resolve_right fun hlast ↦ hid ?_, hlater⟩
        obtain rfl : later = other := by simpa using hlast
        exact hlater
    | sweep swept =>
      rw [ArtifactOp.onSlots, Sweep.cleared, Option.filter_eq_some_iff] at hslot
      refine ih ?_ hold hslot.1
      obtain ⟨later, hmem, hlater⟩ := hput
      exact ⟨later, (List.mem_append.mp hmem).resolve_right (by simp), hlater⟩

theorem own_snoc (digest : List UInt8 → String) (tenant : String) (ops : List ArtifactOp)
    (op : ArtifactOp) :
    slotsAfter digest ((ops ++ [op]).filter (·.concerns tenant)) =
      if op.concerns tenant then
        op.onSlots digest (slotsAfter digest (ops.filter (·.concerns tenant)))
      else slotsAfter digest (ops.filter (·.concerns tenant)) := by
  rw [List.filter_append, List.filter_singleton]
  cases op.concerns tenant with
  | false => exact congrArg (slotsAfter digest) (List.append_nil _)
  | true => exact slotsAfter_snoc digest _ op

/-- A slot that is the tenant's in the full history is so in its own. -/
theorem own_of_full (hslot : slotsAfter digest ops id = some artifact)
    (htenant : artifact.tenant = tenant) :
    slotsAfter digest (ops.filter (·.concerns tenant)) id = some artifact := by
  induction ops using List.reverseRecOn with
  | nil => exact hslot
  | append_singleton ops op ih =>
    rw [slotsAfter_snoc] at hslot
    rw [own_snoc]
    -- an operation that spares the artifact does so in both histories
    have hspared : Spares digest id artifact op →
        (if op.concerns tenant then
          op.onSlots digest (slotsAfter digest (ops.filter (·.concerns tenant)))
          else slotsAfter digest (ops.filter (·.concerns tenant))) id = some artifact := by
      intro hspares
      have hown := ih ((onSlots_of_spares hspares).mp hslot)
      split_ifs
      · exact (onSlots_of_spares hspares).mpr hown
      · exact hown
    cases op with
    | put other =>
      by_cases hid : digest other.data = id
      · rw [ArtifactOp.onSlots, hid, Function.update_self] at hslot
        obtain rfl := Option.some.inj hslot
        rw [if_pos (ArtifactOp.concerns_put.mpr htenant), ArtifactOp.onSlots, hid,
          Function.update_self]
      · exact hspared hid
    | sweep swept =>
      rw [ArtifactOp.onSlots, Sweep.cleared, Option.filter_eq_some_iff] at hslot
      have hkept : swept.reclaims digest artifact = false := by simpa using hslot.2
      exact hspared hkept

/-- The tenant leaves an artifact of its own in its slot. -/
def Retains (digest : List UInt8 → String) (tenant id : String) (artifact : Artifact) :
    ArtifactOp → Prop
  | .put later => digest later.data = id → later.tenant ≠ tenant
  | .sweep swept => swept.reclaims digest artifact = false

/-- The artifact is the last that the tenant has put into the slot. -/
def LastPut (digest : List UInt8 → String) (tenant id : String) (ops : List ArtifactOp)
    (artifact : Artifact) : Prop :=
  artifact.tenant = tenant ∧ digest artifact.data = id ∧ ∃ before after,
    ops = before ++ .put artifact :: after ∧ ∀ op ∈ after, Retains digest tenant id artifact op

/-- A slot of the own history holds the last artifact that the tenant has put there. -/
theorem lastPut_of_own (hexplicit : ∀ swept, .sweep swept ∈ ops → swept.options.tenants ≠ [])
    (hslot : slotsAfter digest (ops.filter (·.concerns tenant)) id = some artifact) :
    LastPut digest tenant id ops artifact := by
  induction ops using List.reverseRecOn with
  | nil => cases hslot
  | append_singleton ops op ih =>
    -- the artifact was in the slot before the last operation
    have hsnoc : slotsAfter digest (ops.filter (·.concerns tenant)) id = some artifact →
        (artifact.tenant = tenant → Retains digest tenant id artifact op) →
        LastPut digest tenant id (ops ++ [op]) artifact := by
      intro hbefore hop
      obtain ⟨htenant, hid, before, after, rfl, hafter⟩ :=
        ih (fun swept hswept ↦ hexplicit swept (List.mem_append_left _ hswept)) hbefore
      refine ⟨htenant, hid, before, after ++ [op], by simp, ?_⟩
      exact List.forall_mem_append.mpr ⟨hafter, by simpa using hop htenant⟩
    rw [own_snoc] at hslot
    cases op with
    | put other =>
      by_cases hconcerns : other.tenant = tenant
      · rw [if_pos (ArtifactOp.concerns_put.mpr hconcerns)] at hslot
        by_cases hid : digest other.data = id
        · rw [ArtifactOp.onSlots, hid, Function.update_self] at hslot
          obtain rfl := Option.some.inj hslot
          exact ⟨hconcerns, hid, ops, [], rfl, by simp⟩
        · rw [ArtifactOp.onSlots, Function.update_of_ne (Ne.symm hid)] at hslot
          exact hsnoc hslot fun _ hsame ↦ absurd hsame hid
      · rw [if_neg fun h ↦ hconcerns (ArtifactOp.concerns_put.mp h)] at hslot
        exact hsnoc hslot fun _ _ ↦ hconcerns
    | sweep swept =>
      by_cases hconcerns : tenant ∈ swept.options.tenants
      · rw [if_pos (ArtifactOp.concerns_sweep.mpr hconcerns), ArtifactOp.onSlots, Sweep.cleared,
          Option.filter_eq_some_iff] at hslot
        exact hsnoc hslot.1 fun _ ↦ by simpa [Retains] using hslot.2
      · rw [if_neg fun h ↦ hconcerns (ArtifactOp.concerns_sweep.mp h)] at hslot
        refine hsnoc hslot fun htenant ↦ ?_
        have hne := hexplicit swept (by simp)
        simp [Retains, Sweep.reclaims, ArtifactGcOptions.targetTenants, hne, htenant, hconcerns]

end Slot

/-! ### Isolation -/

section Isolation

variable {digest : List UInt8 → String} {tenant : String} {ops : List ArtifactOp}

/-- The slots of the own history are those of the full one exactly if none was taken over. -/
theorem full_of_own_iff (hexplicit : ∀ swept, .sweep swept ∈ ops → swept.options.tenants ≠ []) :
    (∀ id artifact, slotsAfter digest (ops.filter (·.concerns tenant)) id = some artifact →
      slotsAfter digest ops id = some artifact) ↔ ¬ TakenOver digest tenant ops := by
  constructor
  · rintro h ⟨before, artifact, after, rfl, htenant, hlater, hswept, hput⟩
    have hconcerns := ArtifactOp.concerns_put.mpr htenant
    have hown : slotsAfter digest ((before ++ .put artifact :: after).filter (·.concerns tenant))
        (digest artifact.data) = some artifact := by
      rw [List.filter_append, List.filter_cons_of_pos hconcerns]
      refine slotsAfter_of_spares fun op hop ↦ ?_
      obtain ⟨hmem, hop⟩ := List.mem_filter.mp hop
      cases op with
      | put later => exact fun hsame ↦ hlater later hmem hsame (ArtifactOp.concerns_put.mp hop)
      | sweep swept => exact hswept swept hmem
    have hfull := h _ _ hown
    rw [slotsAfter, List.foldl_append, List.foldl_cons] at hfull
    exact tenant_ne_of_puts hput hlater hfull htenant
  · intro hnot id artifact hown
    obtain ⟨htenant, rfl, before, after, rfl, hafter⟩ := lastPut_of_own hexplicit hown
    refine slotsAfter_of_spares fun op hop ↦ ?_
    cases op with
    | put later =>
      intro hsame
      exact hnot ⟨before, artifact, after, rfl, htenant, fun _ h ↦ hafter _ h,
        fun _ h ↦ hafter _ h, later, hop, hsame⟩
    | sweep swept => exact hafter _ hop

/-- On a store that keeps slots, a tenant has the same artifacts after both histories exactly if
none was taken over. -/
theorem isolated_iff_of_keeps {σ : Type} {store : ArtifactStore σ} (hkeeps : store.Keeps digest)
    {full own : List (ArtifactOp × (ℕ → IterationOrder ArtifactDescriptor))}
    (hexplicit : ∀ swept, .sweep swept ∈ full.map Prod.fst → swept.options.tenants ≠ [])
    (hown : own.map Prod.fst = (full.map Prod.fst).filter (·.concerns tenant))
    (order order' : IterationOrder ArtifactDescriptor) :
    Isolated store tenant full own order order' ↔
      ¬ TakenOver digest tenant (full.map Prod.fst) := by
  have hfullHolds := holds_storeAfter hkeeps full
  have hownHolds := holds_storeAfter hkeeps own
  rw [hown] at hownHolds
  rw [← full_of_own_iff hexplicit]
  constructor
  · rintro ⟨hperm, -⟩ id artifact hslot
    obtain ⟨htenant, rfl, -⟩ := lastPut_of_own hexplicit hslot
    have hlisted := (hownHolds.mem_list order' tenant (artifact.descriptor digest)).mpr
      ⟨artifact, hslot, htenant, rfl⟩
    obtain ⟨other, hother, hothers, -⟩ :=
      (hfullHolds.mem_list order tenant _).mp (hperm.mem_iff.mpr hlisted)
    have hsame := own_of_full hother hothers
    obtain rfl : artifact = other := Option.some.inj (hslot.symm.trans hsame)
    exact hother
  · intro h
    have hiff : ∀ id artifact, artifact.tenant = tenant →
        (slotsAfter digest (full.map Prod.fst) id = some artifact ↔
          slotsAfter digest ((full.map Prod.fst).filter (·.concerns tenant)) id = some artifact) :=
      fun id artifact htenant ↦ ⟨fun hslot ↦ own_of_full hslot htenant, h id artifact⟩
    constructor
    · rw [List.perm_ext_iff_of_nodup (hfullHolds.nodup_list order tenant)
        (hownHolds.nodup_list order' tenant)]
      intro descriptor
      rw [hfullHolds.mem_list, hownHolds.mem_list]
      refine exists_congr fun artifact ↦ ?_
      constructor
      · rintro ⟨hslot, htenant, hdescriptor⟩
        exact ⟨(hiff _ _ htenant).mp hslot, htenant, hdescriptor⟩
      · rintro ⟨hslot, htenant, hdescriptor⟩
        exact ⟨(hiff _ _ htenant).mpr hslot, htenant, hdescriptor⟩
    · intro descriptor hdescriptor
      obtain ⟨artifact, hslot, htenant, -⟩ := (hfullHolds.mem_list order tenant _).mp hdescriptor
      rw [hfullHolds.get, hownHolds.get, hslot, (hiff _ _ htenant).mp hslot]

end Isolation

/-- In memory and on disk, a tenant has the same artifacts after all operations and after those that
concern it, exactly if none of its artifacts was taken over. -/
theorem isolated_iff (digest : List UInt8 → String) {tenant : String}
    {full own : List (ArtifactOp × (ℕ → IterationOrder ArtifactDescriptor))}
    (hexplicit : ∀ swept, .sweep swept ∈ full.map Prod.fst → swept.options.tenants ≠ [])
    (hown : own.map Prod.fst = (full.map Prod.fst).filter (·.concerns tenant))
    (order order' : IterationOrder ArtifactDescriptor) :
    (Isolated (memoryArtifacts digest) tenant full own order order' ↔
      ¬ TakenOver digest tenant (full.map Prod.fst)) ∧
    (Isolated (diskArtifacts digest) tenant full own order order' ↔
      ¬ TakenOver digest tenant (full.map Prod.fst)) :=
  ⟨isolated_iff_of_keeps (memoryArtifacts_keeps digest) hexplicit hown order order',
    isolated_iff_of_keeps (diskArtifacts_keeps digest) hexplicit hown order order'⟩

/-! ### Two tenants with the same data -/

def putByte (tenant : String) (byte : UInt8) :
    ArtifactOp × (ℕ → IterationOrder ArtifactDescriptor) :=
  (.put ⟨tenant, "report", [byte], "application/octet-stream", 0⟩, fun _ ↦ .stored)

/-- Two tenants that put different data. -/
theorem isolated_different :
    Isolated (memoryArtifacts plainDigest) "acme" [putByte "acme" 7, putByte "globex" 8]
      [putByte "acme" 7] ⟨id, fun _ ↦ .rfl⟩ ⟨id, fun _ ↦ .rfl⟩ ∧
    Isolated (diskArtifacts plainDigest) "acme" [putByte "acme" 7, putByte "globex" 8]
      [putByte "acme" 7] ⟨id, fun _ ↦ .rfl⟩ ⟨id, fun _ ↦ .rfl⟩ := by
  have hnot : ¬ TakenOver plainDigest "acme"
      ([putByte "acme" 7, putByte "globex" 8].map Prod.fst) := by
    rintro ⟨before, artifact, after, hops, htenant, -, -, later, hlater, hsame⟩
    cases before with
    | nil =>
      obtain ⟨hfirst, rfl⟩ := List.cons.inj hops
      obtain rfl := ArtifactOp.put.inj hfirst
      obtain rfl := ArtifactOp.put.inj (List.mem_singleton.mp hlater)
      exact absurd (plainDigest_injective hsame) (by decide)
    | cons first before =>
      have hmem : (.put artifact : ArtifactOp) ∈ [(putByte "globex" 8).1] := by
        rw [show [(putByte "globex" 8).1] = _ from (List.cons.inj hops).2]
        simp
      obtain rfl := ArtifactOp.put.inj (List.mem_singleton.mp hmem)
      exact absurd htenant (by decide)
  have hexplicit : ∀ swept, .sweep swept ∈ [putByte "acme" 7, putByte "globex" 8].map Prod.fst →
      swept.options.tenants ≠ [] := by
    simp [putByte]
  have hown : [putByte "acme" 7].map Prod.fst =
      ([putByte "acme" 7, putByte "globex" 8].map Prod.fst).filter (·.concerns "acme") := rfl
  have hiff := isolated_iff plainDigest hexplicit hown ⟨id, fun _ ↦ .rfl⟩ ⟨id, fun _ ↦ .rfl⟩
  exact ⟨hiff.1.mpr hnot, hiff.2.mpr hnot⟩

/-- Two tenants that put the same data: it is no longer listed for the first, although it is alone.
-/
theorem not_isolated_same :
    Function.Injective plainDigest ∧
    ¬ Isolated (memoryArtifacts plainDigest) "acme" [putByte "acme" 7, putByte "globex" 7]
      [putByte "acme" 7] ⟨id, fun _ ↦ .rfl⟩ ⟨id, fun _ ↦ .rfl⟩ ∧
    ¬ Isolated (diskArtifacts plainDigest) "acme" [putByte "acme" 7, putByte "globex" 7]
      [putByte "acme" 7] ⟨id, fun _ ↦ .rfl⟩ ⟨id, fun _ ↦ .rfl⟩ := by
  refine ⟨plainDigest_injective, fun h ↦ ?_, fun h ↦ ?_⟩
  · have hlength := h.1.length_eq
    revert hlength
    decide +kernel
  · have hlength := h.1.length_eq
    revert hlength
    decide +kernel

end Runvane.Storage
