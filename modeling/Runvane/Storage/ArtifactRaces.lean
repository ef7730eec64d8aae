import Runvane.Library.Interleaving
import Runvane.Storage.Artifacts

/-!
# Concurrent calls on the artifact store in memory

`put` stores the blob under one lock and then the descriptor under another; `delete` removes both
while it holds both locks. Each section under its locks is one call here, and callers take turns.

A `delete` between the two sections of a `put` of the same digest removes the blob before the
descriptor is stored, which then describes nothing. If no `delete` comes there, and artifacts with
one digest have one length, then blobs and descriptors agree whenever no call is under way
(`agree_of_deletesApart`). The invariant is that under each digest the descriptor has its blob, also
if it is still to be stored, and the blob has its descriptor or a caller that will store it
(`TidyAt`).
-/

set_option autoImplicit false

namespace Runvane.Storage

open Library

/-! ### Sections and callers -/

/-- A section under the locks of the store. -/
inductive ArtifactCall
  | insertBlob (id : String) (data : List UInt8)
  | insertDescriptor (descriptor : ArtifactDescriptor)
  | remove (id : String)
  deriving DecidableEq

/-- What a section yields. -/
abbrev ArtifactCall.Answer : ArtifactCall → Type
  | insertBlob .. | insertDescriptor _ => Unit
  | remove _ => Bool

def serveArtifacts : Server ArtifactCall ArtifactCall.Answer MemoryArtifactStore
  | .insertBlob id data, s => ((), s.insertBlob id data)
  | .insertDescriptor descriptor, s => ((), s.insertDescriptor descriptor)
  | .remove id, s => s.delete id

inductive Caller
  | put (artifact : Artifact)
  | delete (id : String)
  deriving DecidableEq

/-- The sections that a call enters, and what it returns. -/
abbrev CallerProgram :=
  CallProgram ArtifactCall ArtifactCall.Answer ArtifactError (ArtifactDescriptor ⊕ Bool)

/-- A call, and the sections it has still to enter. -/
abbrev CallerProcess :=
  Process Caller ArtifactCall ArtifactCall.Answer ArtifactError (ArtifactDescriptor ⊕ Bool)

/-- What is left of a `put` after its first section. -/
def describeStored (descriptor : ArtifactDescriptor) : CallerProgram :=
  .call (.insertDescriptor descriptor) fun _ ↦ .ret (.inl descriptor)

def Caller.program (digest : List UInt8 → String) : Caller → CallerProgram
  | put artifact => .call (.insertBlob (digest artifact.data) artifact.data) fun _ ↦
      describeStored (artifact.descriptor digest)
  | delete id => .call (.remove id) fun removed ↦ .ret (.inr removed)

/-- Alone, the sections of a `put` are the `put` of the store. -/
theorem run_put (digest : List UInt8 → String) (artifact : Artifact) (s : MemoryArtifactStore) :
    ((Caller.put artifact).program digest).run serveArtifacts s =
      (.ok (.inl (s.put digest artifact).1), (s.put digest artifact).2) := rfl

/-- Alone, the section of a `delete` is the `delete` of the store. -/
theorem run_delete (digest : List UInt8 → String) (id : String) (s : MemoryArtifactStore) :
    ((Caller.delete id).program digest).run serveArtifacts s =
      (.ok (.inr (s.delete id).1), (s.delete id).2) := rfl

abbrev Callers := System Caller ArtifactCall ArtifactCall.Answer ArtifactError
  (ArtifactDescriptor ⊕ Bool) MemoryArtifactStore

/-- The store without artifacts, and no callers. -/
def noCallers : Callers := ⟨⟨∅, .empty⟩, []⟩

/-! ### What is expected -/

def Quiescent (sys : Callers) : Prop := ∀ process ∈ sys.processes, process.rest.next? = none

instance (sys : Callers) : Decidable (Quiescent sys) :=
  inferInstanceAs (Decidable (∀ process ∈ sys.processes, process.rest.next? = none))

/-- An artifact is described exactly if it can be fetched, with its size. -/
structure Agree (s : MemoryArtifactStore) : Prop where
  isSome_iff : ∀ id, (s.describe id).isSome ↔ (s.get id).isSome
  size : ∀ id descriptor data, s.describe id = some descriptor → s.get id = some data →
    descriptor.sizeBytes = data.length

/-- The caller has stored the blob under the digest, and not yet the descriptor. -/
def BetweenSections (id : String) (process : CallerProcess) : Prop :=
  match process.rest.next? with
  | some (.insertDescriptor descriptor) => descriptor.id = id
  | _ => False

instance (id : String) (process : CallerProcess) : Decidable (BetweenSections id process) := by
  unfold BetweenSections
  split <;> infer_instance

/-- No section of a `delete` comes between the two of a `put` with its digest. -/
def DeletesApart (sys : Callers) (turn : Turn Caller) : Prop :=
  match sys.nextCall turn with
  | some (_, .remove id) => ∀ process ∈ sys.processes, ¬ BetweenSections id process
  | _ => True

instance (sys : Callers) (turn : Turn Caller) : Decidable (DeletesApart sys turn) := by
  unfold DeletesApart
  split <;> infer_instance

/-- Artifacts that are put with one digest have one length. -/
def OneLength (digest : List UInt8 → String) (turns : List (Turn Caller)) : Prop :=
  ∀ first second, .start (.put first) ∈ turns → .start (.put second) ∈ turns →
    digest first.data = digest second.data → first.data.length = second.data.length

/-! ### The invariant -/

/-- How far a caller has got. -/
inductive Stage (digest : List UInt8 → String) (known : Artifact → Prop) : CallerProgram → Prop
  | put (artifact : Artifact) (h : known artifact) :
      Stage digest known ((Caller.put artifact).program digest)
  | stored (artifact : Artifact) (h : known artifact) :
      Stage digest known (describeStored (artifact.descriptor digest))
  | delete (id : String) : Stage digest known ((Caller.delete id).program digest)
  | done (value : ArtifactDescriptor ⊕ Bool) : Stage digest known (.ret value)

def Waiting (processes : List CallerProcess) (id : String) : Prop :=
  ∃ process ∈ processes, BetweenSections id process

/-- What is there under a digest. A descriptor has its blob, also if it is still to be stored, and a
blob has its descriptor, or a caller that will store it. -/
structure TidyAt (digest : List UInt8 → String) (known : Artifact → Prop) (id : String)
    (blob : Option (List UInt8)) (descriptor : Option ArtifactDescriptor) (waiting : Prop) :
    Prop where
  blob_known : ∀ data, blob = some data →
    ∃ artifact, known artifact ∧ digest artifact.data = id ∧ artifact.data = data
  descriptor_known : ∀ found, descriptor = some found →
    ∃ artifact, known artifact ∧ digest artifact.data = id ∧ artifact.data.length = found.sizeBytes
  stored_iff : blob.isSome ↔ descriptor.isSome ∨ waiting

structure Tidy (digest : List UInt8 → String) (known : Artifact → Prop) (sys : Callers) : Prop where
  stage : ∀ process ∈ sys.processes, Stage digest known process.rest
  tidyAt : ∀ id, TidyAt digest known id (sys.state.get id) (sys.state.describe id)
    (Waiting sys.processes id)

variable {caller : Caller} {index : ℕ}

section Step

variable {digest : List UInt8 → String} {known : Artifact → Prop} {sys : Callers}

theorem Tidy.start (h : Tidy digest known sys)
    (hknown : ∀ artifact, caller = .put artifact → known artifact) :
    Tidy digest known ⟨sys.state, sys.processes ++ [⟨caller, caller.program digest⟩]⟩ := by
  have hfresh (id : String) : ¬ BetweenSections id ⟨caller, caller.program digest⟩ := by
    intro hbetween
    cases caller with
    | put artifact => exact hbetween
    | delete other => exact hbetween
  refine ⟨fun process hprocess ↦ ?_, fun id ↦ ?_⟩
  · rcases List.mem_append.mp hprocess with hold | hnew
    · exact h.stage process hold
    · obtain rfl := List.mem_singleton.mp hnew
      cases caller with
      | put artifact => exact .put artifact (hknown artifact rfl)
      | delete id => exact .delete id
  · have hwaiting : Waiting (sys.processes ++ [⟨caller, caller.program digest⟩]) id ↔
        Waiting sys.processes id := by
      simp [Waiting, or_and_right, exists_or, hfresh id]
    simpa only [hwaiting] using h.tidyAt id

/-- Who is between the sections of a `put` is still there after the turn of another caller. -/
theorem waiting_set {processes : List CallerProcess} {old new : CallerProcess} {id : String}
    (hprocess : processes[index]? = some old) (hold : ¬ BetweenSections id old)
    (hnew : ¬ BetweenSections id new) :
    Waiting (processes.set index new) id ↔ Waiting processes id := by
  constructor
  · rintro ⟨process, hmem, hbetween⟩
    rcases List.mem_or_eq_of_mem_set hmem with hmem | rfl
    · exact ⟨process, hmem, hbetween⟩
    · exact absurd hbetween hnew
  · rintro ⟨process, hmem, hbetween⟩
    refine ⟨process, System.mem_set_of_ne hmem hprocess ?_, hbetween⟩
    rintro rfl
    exact hold hbetween

/-- A section that concerns one digest. -/
theorem Tidy.step (h : Tidy digest known sys) (id : String) {old new : CallerProcess}
    {s : MemoryArtifactStore} (hprocess : sys.processes[index]? = some old)
    (hstage : Stage digest known new.rest)
    (hold : ∀ other, id ≠ other → ¬ BetweenSections other old)
    (hnew : ∀ other, id ≠ other → ¬ BetweenSections other new)
    (hget : ∀ other, id ≠ other → s.get other = sys.state.get other)
    (hdescribe : ∀ other, id ≠ other → s.describe other = sys.state.describe other)
    (hid : TidyAt digest known id (s.get id) (s.describe id)
      (Waiting (sys.processes.set index new) id)) :
    Tidy digest known ⟨s, sys.processes.set index new⟩ := by
  refine ⟨fun process hmem ↦ ?_, fun other ↦ ?_⟩
  · rcases List.mem_or_eq_of_mem_set hmem with hmem | rfl
    · exact h.stage process hmem
    · exact hstage
  · by_cases hother : id = other
    · exact hother ▸ hid
    · simp only [hget other hother, hdescribe other hother,
        waiting_set hprocess (hold other hother) (hnew other hother)]
      exact h.tidyAt other

/-- The first section of a `put`. -/
theorem Tidy.insertBlob (h : Tidy digest known sys) {artifact : Artifact}
    (hknown : known artifact)
    (hprocess : sys.processes[index]? = some ⟨caller, (Caller.put artifact).program digest⟩) :
    Tidy digest known ⟨sys.state.insertBlob (digest artifact.data) artifact.data,
      sys.processes.set index ⟨caller, describeStored (artifact.descriptor digest)⟩⟩ := by
  have hget (id : String) : (sys.state.insertBlob (digest artifact.data) artifact.data).get id =
      if digest artifact.data = id then some artifact.data else sys.state.get id := by
    simp [MemoryArtifactStore.insertBlob, MemoryArtifactStore.get, Std.ExtTreeMap.getElem?_insert]
  refine h.step (digest artifact.data) hprocess (.stored artifact hknown)
    (fun _ _ hbetween ↦ hbetween) (fun _ hne hbetween ↦ hne hbetween)
    (fun id hne ↦ by rw [hget, if_neg hne]) (fun _ _ ↦ rfl) ?_
  rw [hget, if_pos rfl]
  obtain ⟨hindex, -⟩ := List.getElem?_eq_some_iff.mp hprocess
  exact ⟨fun data hdata ↦ ⟨artifact, hknown, rfl, Option.some.inj hdata⟩,
    (h.tidyAt _).descriptor_known, iff_of_true rfl (.inr ⟨_, List.mem_set hindex _, rfl⟩)⟩

/-- The second section of a `put`. -/
theorem Tidy.insertDescriptor (h : Tidy digest known sys) {artifact : Artifact}
    (hknown : known artifact)
    (hprocess : sys.processes[index]? = some ⟨caller, describeStored (artifact.descriptor digest)⟩)
    (value : ArtifactDescriptor ⊕ Bool) :
    Tidy digest known ⟨sys.state.insertDescriptor (artifact.descriptor digest),
      sys.processes.set index ⟨caller, .ret value⟩⟩ := by
  have hdescribe (id : String) :
      (sys.state.insertDescriptor (artifact.descriptor digest)).describe id =
        if digest artifact.data = id then some (artifact.descriptor digest)
        else sys.state.describe id := KeyedMap.get?_put _ _ id
  refine h.step (digest artifact.data) hprocess (.done value) (fun _ hne hbetween ↦ hne hbetween)
    (fun _ _ hbetween ↦ hbetween) (fun _ _ ↦ rfl) (fun id hne ↦ by rw [hdescribe, if_neg hne]) ?_
  rw [hdescribe, if_pos rfl]
  have hblob := (h.tidyAt _).stored_iff.mpr (.inr ⟨_, List.mem_of_getElem? hprocess, rfl⟩)
  refine ⟨(h.tidyAt _).blob_known, fun found hfound ↦ ⟨artifact, hknown, rfl, ?_⟩,
    iff_of_true hblob (.inl rfl)⟩
  rw [← Option.some.inj hfound]
  rfl

/-- The section of a `delete`, when no `put` of its digest is between its sections. -/
theorem Tidy.remove (h : Tidy digest known sys) {id : String}
    (hprocess : sys.processes[index]? = some ⟨caller, (Caller.delete id).program digest⟩)
    (happart : ∀ process ∈ sys.processes, ¬ BetweenSections id process)
    (value : ArtifactDescriptor ⊕ Bool) :
    Tidy digest known ⟨(sys.state.delete id).2, sys.processes.set index ⟨caller, .ret value⟩⟩ := by
  have hget (other : String) : (sys.state.delete id).2.get other =
      if id = other then none else sys.state.get other := by
    simp [MemoryArtifactStore.delete, MemoryArtifactStore.get, Std.ExtTreeMap.getElem?_erase]
  have hdescribe (other : String) : (sys.state.delete id).2.describe other =
      if id = other then none else sys.state.describe other := KeyedMap.get?_erase _ _ _
  refine h.step id hprocess (.done value) (fun _ _ hbetween ↦ hbetween)
    (fun _ _ hbetween ↦ hbetween) (fun other hne ↦ by rw [hget, if_neg hne])
    (fun other hne ↦ by rw [hdescribe, if_neg hne]) ?_
  rw [hget, hdescribe, if_pos rfl, if_pos rfl]
  refine ⟨by simp, by simp, iff_of_false (by simp) ?_⟩
  rintro (hsome | ⟨process, hmem, hbetween⟩)
  · cases hsome
  · rcases List.mem_or_eq_of_mem_set hmem with hmem | rfl
    · exact happart process hmem hbetween
    · exact hbetween

theorem Tidy.advance (h : Tidy digest known sys) {turn : Turn Caller}
    (hknown : ∀ artifact, turn = .start (.put artifact) → known artifact)
    (happart : DeletesApart sys turn) :
    Tidy digest known (sys.advance serveArtifacts (Caller.program digest) turn) := by
  cases turn with
  | start caller =>
    refine h.start fun artifact hcaller ↦ hknown artifact ?_
    rw [hcaller]
  | call index =>
    cases hprocess : sys.processes[index]? with
    | none => simpa only [System.advance, hprocess] using h
    | some process =>
      obtain ⟨caller, rest⟩ := process
      have hstage := h.stage _ (List.mem_of_getElem? hprocess)
      cases hstage with
      | put artifact hartifact =>
        simp only [System.advance, hprocess]
        exact h.insertBlob hartifact hprocess
      | stored artifact hartifact =>
        simp only [System.advance, hprocess]
        exact h.insertDescriptor hartifact hprocess _
      | delete id =>
        simp only [System.advance, hprocess]
        refine h.remove hprocess ?_ _
        simpa [DeletesApart, System.nextCall, hprocess, Caller.program, CallProgram.next?] using
          happart
      | done value =>
        rw [System.advance_call_of_next?_eq_none _ _ hprocess rfl]
        exact h

/-- Once no call is under way, nothing is waiting. -/
theorem Tidy.agree (h : Tidy digest known sys) (hquiescent : Quiescent sys)
    (hlength : ∀ first second, known first → known second → digest first.data = digest second.data →
      first.data.length = second.data.length) : Agree sys.state where
  isSome_iff id := by
    have hnobody : ¬ Waiting sys.processes id := by
      rintro ⟨process, hprocess, hbetween⟩
      rw [BetweenSections, hquiescent process hprocess] at hbetween
      exact hbetween
    rw [(h.tidyAt id).stored_iff, or_iff_left hnobody]
  size id descriptor data hdescriptor hdata := by
    obtain ⟨first, hfirst, hid, hsize⟩ := (h.tidyAt id).descriptor_known descriptor hdescriptor
    obtain ⟨second, hsecond, hid', hbytes⟩ := (h.tidyAt id).blob_known data hdata
    rw [← hsize, ← hbytes]
    exact hlength first second hfirst hsecond (hid.trans hid'.symm)

end Step

/-- If no `delete` comes between the two sections of a `put` with its digest, and artifacts with one
digest have one length, then descriptors and blobs agree whenever no call is under way. -/
theorem agree_of_deletesApart {digest : List UInt8 → String} {turns : List (Turn Caller)}
    (hlength : OneLength digest turns)
    (happart :
      System.Observes serveArtifacts (Caller.program digest) DeletesApart noCallers turns) :
    ∀ reached ∈ System.trace serveArtifacts (Caller.program digest) noCallers turns,
      Quiescent reached → Agree reached.state := by
  have hstart : Tidy digest (fun artifact ↦ .start (.put artifact) ∈ turns) noCallers := by
    have hget (id : String) : noCallers.state.get id = none := by
      simp [noCallers, MemoryArtifactStore.get]
    have hdescribe (id : String) : noCallers.state.describe id = none := KeyedMap.get?_empty id
    refine ⟨fun process hprocess ↦ (List.not_mem_nil hprocess).elim, fun id ↦ ?_⟩
    rw [hget, hdescribe]
    exact ⟨by simp, by simp, by simp [Waiting, noCallers]⟩
  have htidy : ∀ reached ∈ System.trace serveArtifacts (Caller.program digest) noCallers turns,
      Tidy digest (fun artifact ↦ .start (.put artifact) ∈ turns) reached := by
    refine System.forall_mem_trace_of_observes (fun sys turn hturn h hrule ↦ ?_) hstart happart
    refine h.advance (fun artifact hput ↦ ?_) hrule
    rw [← hput]
    exact hturn
  exact fun reached hreached hquiescent ↦ (htidy reached hreached).agree hquiescent hlength

/-! ### A deletion between the sections -/

def oneByte : Artifact := ⟨"acme", "report", [7], "application/octet-stream", 0⟩

def deletedAfter : List (Turn Caller) :=
  [.start (.put oneByte), .call 0, .call 0, .start (.delete (plainDigest [7])), .call 1]

def deletedBetween : List (Turn Caller) :=
  [.start (.put oneByte), .start (.delete (plainDigest [7])), .call 0, .call 1, .call 0]

theorem agree_deletedAfter :
    System.Observes serveArtifacts (Caller.program plainDigest) DeletesApart noCallers
      deletedAfter ∧
    ∀ reached ∈ System.trace serveArtifacts (Caller.program plainDigest) noCallers deletedAfter,
      Quiescent reached → Agree reached.state := by
  have happart : System.Observes serveArtifacts (Caller.program plainDigest) DeletesApart noCallers
    deletedAfter := by decide
  refine ⟨happart, agree_of_deletesApart (fun first second _ _ hdigest ↦ ?_) happart⟩
  rw [plainDigest_injective hdigest]

/-- With a deletion between the two sections, no call is under way in the end, and the artifact is
described but cannot be fetched. -/
theorem not_agree_deletedBetween :
    Function.Injective plainDigest ∧
    ∃ reached ∈ System.trace serveArtifacts (Caller.program plainDigest) noCallers deletedBetween,
      Quiescent reached ∧ ¬ Agree reached.state := by
  refine ⟨plainDigest_injective, _, System.after_mem_trace _ _ _ _, by decide, fun h ↦ ?_⟩
  have hiff := h.isSome_iff (plainDigest [7])
  revert hiff
  decide

end Runvane.Storage
