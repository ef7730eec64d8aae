import Runvane.Domain.Names
import Runvane.Domain.Validation

/-!
# Events, hooks and deliveries

`events/mod.rs` and the matching of `events/dispatch.rs`: which hooks of a definition an event
reaches, and the deliveries that are made for them. The document of an event and its delivery id go
through two libraries of the code, the JSON serializer and SHA-256, which are parameters
(`EventLibrary`).

A definition's hooks are matched in its order (`fst_matchHooks`), and every matched hook has a URL.
The text of a delivery id joins its parts by slashes, which none of them has if they were accepted
where they came in, so it determines them (`deliveryId_separates`).
-/

set_option autoImplicit false

namespace Runvane.Events

open Domain

/-! ### Events -/

/-- The lifecycle milestones a hook can be attached to. -/
inductive EventKind
  | runStarted
  | runSucceeded
  | runFailed
  | runTimedOut
  | runCancelled
  deriving DecidableEq, Repr

namespace EventKind

def code : EventKind → String
  | runStarted => "run.started"
  | runSucceeded => "run.succeeded"
  | runFailed => "run.failed"
  | runTimedOut => "run.timed_out"
  | runCancelled => "run.cancelled"

def isTerminal (kind : EventKind) : Bool := kind ≠ runStarted

end EventKind

/-- The document delivered to subscribers. -/
structure RunEventDoc where
  kind : String
  runId : String
  tenant : String
  defName : String
  defVersion : ℕ
  runNumber : ℕ
  status : String
  startedAtMs : Option ℤ
  finishedAtMs : Option ℤ
  attempts : ℕ
  error : Option String
  output : Option Json
  createdAtMs : ℤ

namespace RunEventDoc

/-- The event document of a run at the given time. -/
def fromRun (run : Run) (kind : EventKind) (createdAtMs : ℤ) : RunEventDoc where
  kind := kind.code
  runId := run.id.text
  tenant := run.tenant
  defName := run.defName
  defVersion := run.defVersion
  runNumber := run.runNumber
  status := run.status.display
  startedAtMs := run.startedAtMs
  finishedAtMs := run.finishedAtMs
  attempts := run.attempts
  error := run.error.map RunError.message
  output := match kind with
    | .runSucceeded => run.output
    | _ => none
  createdAtMs := createdAtMs

def terminalKindFor : RunStatus → Option EventKind
  | .succeeded => some .runSucceeded
  | .failed => some .runFailed
  | .timedOut => some .runTimedOut
  | .cancelled => some .runCancelled
  | _ => none

/-- Exactly the terminal statuses have a kind. -/
theorem isSome_terminalKindFor (status : RunStatus) :
    (terminalKindFor status).isSome = status.isTerminal := by
  cases status <;> rfl

theorem isTerminal_of_terminalKindFor {status : RunStatus} {kind : EventKind}
    (h : terminalKindFor status = some kind) : kind.isTerminal ∧ status.isTerminal := by
  refine ⟨?_, by rw [← isSome_terminalKindFor, h]; rfl⟩
  cases status with
  | queued | running => cases h
  | succeeded | failed | cancelled | timedOut =>
    obtain rfl := Option.some.inj h
    rfl

end RunEventDoc

/-- What the code uses of its libraries: the hexadecimal SHA-256 digest of a text, and the JSON text
of a document. -/
structure EventLibrary where
  sha256Hex : String → String
  serialize : RunEventDoc → String

/-- Libraries in whose place stand an injective function and a constant one. -/
def plainLibrary : EventLibrary := ⟨id, fun _ ↦ "body"⟩

/-- The id of a delivery, the same for every delivery of a run and kind. -/
def deliveryId (lib : EventLibrary) (runId : RunId) (kind : EventKind) (tenant defName : String) :
    String :=
  lib.sha256Hex s!"{tenant}/{defName}/{runId.text}/{kind.code}"

theorem nameChars_of_isValidName {name : String} (h : isValidName name = true) :
    ∀ c ∈ name.toList, isNameChar c = true := by
  unfold isValidName at h
  split_ifs at h
  split at h
  · cases h
  next first rest hname =>
    rw [Bool.and_eq_true, List.all_eq_true] at h
    rw [hname]
    exact List.forall_mem_cons.mpr ⟨by simp [isNameChar, h.1], h.2⟩

theorem EventKind.code_injective : Function.Injective EventKind.code := by
  intro first second h
  cases first <;> cases second <;> simp_all [EventKind.code]

/-- The text that is hashed, cut at its slashes. -/
theorem splitOn_deliveryText {tenant defName : String} {runId : RunId} (kind : EventKind)
    (htenant : validateTenantId tenant = .ok ()) (hname : isValidName defName = true)
    (hrun : Id.parse .run runId.text = .ok runId) :
    (s!"{tenant}/{defName}/{runId.text}/{kind.code}").toList.splitOn '/' =
      [tenant.toList, defName.toList, runId.text.toList, kind.code.toList] := by
  have hslash {chars : List Char} (h : ∀ c ∈ chars, isNameChar c = true) : '/' ∉ chars :=
    fun hmem ↦ absurd (h '/' hmem) (by decide)
  have hkind : '/' ∉ kind.code.toList := by cases kind <;> decide
  have htext : (s!"{tenant}/{defName}/{runId.text}/{kind.code}").toList =
      tenant.toList ++ '/' :: (defName.toList ++ '/' :: (runId.text.toList ++ '/' ::
        kind.code.toList)) := by
    simp [toString]
  rw [htext,
    List.splitOn_append_cons_self_of_not_mem (hslash (nameChars_of_validateTenantId htenant)),
    List.splitOn_append_cons_self_of_not_mem (hslash (nameChars_of_isValidName hname)),
    List.splitOn_append_cons_self_of_not_mem (separators_not_mem_of_parse hrun).2,
    List.splitOn_eq_singleton hkind]

/-- Events of accepted names have different delivery ids, as long as no digests collide. -/
theorem deliveryId_separates {lib : EventLibrary} (hsha : Function.Injective lib.sha256Hex)
    {tenant tenant' defName defName' : String} {runId runId' : RunId} {kind kind' : EventKind}
    (htenant : validateTenantId tenant = .ok ()) (htenant' : validateTenantId tenant' = .ok ())
    (hname : isValidName defName = true) (hname' : isValidName defName' = true)
    (hrun : Id.parse .run runId.text = .ok runId) (hrun' : Id.parse .run runId'.text = .ok runId')
    (h : deliveryId lib runId kind tenant defName = deliveryId lib runId' kind' tenant' defName') :
    (tenant, defName, runId, kind) = (tenant', defName', runId', kind') := by
  have hsplit := splitOn_deliveryText kind htenant hname hrun
  rw [hsha h, splitOn_deliveryText kind' htenant' hname' hrun'] at hsplit
  simp only [List.cons.injEq, and_true] at hsplit
  obtain ⟨htenants, hnames, hruns, hkinds⟩ := hsplit
  obtain rfl := String.toList_injective htenants
  obtain rfl := String.toList_injective hnames
  obtain rfl := EventKind.code_injective (String.toList_injective hkinds)
  cases runId
  cases runId'
  obtain rfl := String.toList_injective hruns
  rfl

theorem deliveryId_separates_started :
    Id.parse .run "rn_00" = .ok ⟨"rn_00"⟩ ∧
      (("acme", "pipeline", ⟨"rn_00"⟩, .runStarted) : String × String × RunId × EventKind) =
        ("acme", "pipeline", ⟨"rn_00"⟩, .runStarted) := by
  have hsha : Function.Injective plainLibrary.sha256Hex := Function.injective_id
  have hrun : Id.parse .run "rn_00" = .ok ⟨"rn_00"⟩ := by decide
  exact ⟨hrun, deliveryId_separates hsha (by decide) (by decide)
    (by decide) (by decide) hrun hrun rfl⟩

/-! ### Hooks -/

/-- One webhook delivery: destination, headers and payload. -/
structure Delivery where
  id : String
  url : String
  headers : List (String × String)
  bodyJson : String

/-- How many deliveries the hooks of a definition produced. -/
structure MatchStats where
  matched : ℕ := 0
  filtered : ℕ := 0
  noUrl : ℕ := 0
  deriving DecidableEq, Repr

/-- A text without the `run.` that it starts with, however often. -/
def trimRunDot : List Char → List Char
  | 'r' :: 'u' :: 'n' :: '.' :: rest => trimRunDot rest
  | chars => chars

/-- The hooks that are attached to a kind of event. -/
def hooksFor (d : WorkflowDef) : EventKind → List HookSpec
  | .runStarted => d.hooks.onStart
  | .runSucceeded => d.hooks.onSuccess
  | .runFailed | .runTimedOut => d.hooks.onFailure
  | .runCancelled => d.hooks.onCancel

/-- Whether the filter of a hook, if it has one, admits an event: by its code or its status name. -/
def admits (spec : HookSpec) (kind : EventKind) : Bool :=
  match spec.eventFilter with
  | some filter => filter = kind.code || filter.toList = trimRunDot kind.code.toList
  | none => true

/-- One hook in the loop over those attached to the kind. -/
def matchHook (kind : EventKind) (acc : List HookSpec × MatchStats) (spec : HookSpec) :
    List HookSpec × MatchStats :=
  if !admits spec kind then (acc.1, { acc.2 with filtered := acc.2.filtered + 1 })
  else if spec.webhookUrl.isNone then (acc.1, { acc.2 with noUrl := acc.2.noUrl + 1 })
  else (acc.1 ++ [spec], { acc.2 with matched := acc.2.matched + 1 })

/-- The hooks that apply to an event, in the order of the definition. -/
def matchHooks (d : WorkflowDef) (kind : EventKind) : List HookSpec × MatchStats :=
  (hooksFor d kind).foldl (matchHook kind) ([], {})

def deliveryTo (lib : EventLibrary) (kind : EventKind) (ev : RunEventDoc) (spec : HookSpec) :
    Option Delivery :=
  spec.webhookUrl.map fun url ↦
    { id := deliveryId lib ⟨ev.runId⟩ kind ev.tenant ev.defName
      url := url
      headers := spec.headers
      bodyJson := lib.serialize ev }

/-- The deliveries of an event; a matched hook without a URL would panic. -/
def buildDeliveries (lib : EventLibrary) (d : WorkflowDef) (kind : EventKind) (ev : RunEventDoc) :
    Option (List Delivery) × MatchStats :=
  ((matchHooks d kind).1.mapM (deliveryTo lib kind ev), (matchHooks d kind).2)

/-! ### What is matched -/

theorem foldl_matchHook (kind : EventKind) (specs : List HookSpec)
    (acc : List HookSpec × MatchStats) :
    (specs.foldl (matchHook kind) acc).1 =
      acc.1 ++ specs.filter fun spec ↦ admits spec kind && spec.webhookUrl.isSome := by
  induction specs generalizing acc with
  | nil => simp
  | cons spec specs ih =>
    rw [List.foldl_cons, ih]
    unfold matchHook
    split_ifs with hadmits hurl
    · simp_all
    · simp_all
    · have hsome : spec.webhookUrl.isSome = true := by
        simpa [Option.isNone_iff_eq_none, Option.isSome_iff_ne_none] using hurl
      simp_all

/-- The matched hooks are those that admit the event and have a URL, in the order of the definition.
-/
theorem fst_matchHooks (d : WorkflowDef) (kind : EventKind) :
    (matchHooks d kind).1 =
      (hooksFor d kind).filter fun spec ↦ admits spec kind && spec.webhookUrl.isSome := by
  unfold matchHooks
  rw [foldl_matchHook, List.nil_append]

theorem mapM_deliveryTo (lib : EventLibrary) (kind : EventKind) (ev : RunEventDoc)
    {specs : List HookSpec} (hurl : ∀ spec ∈ specs, spec.webhookUrl.isSome) :
    ∃ deliveries, specs.mapM (deliveryTo lib kind ev) = some deliveries ∧
      (∀ delivery ∈ deliveries,
        delivery.id = deliveryId lib ⟨ev.runId⟩ kind ev.tenant ev.defName) ∧
      deliveries.map (fun delivery ↦ (some delivery.url, delivery.headers)) =
        specs.map fun spec ↦ (spec.webhookUrl, spec.headers) := by
  induction specs with
  | nil => exact ⟨[], rfl, by simp, rfl⟩
  | cons spec specs ih =>
    obtain ⟨url, hspec⟩ := Option.isSome_iff_exists.mp (hurl spec List.mem_cons_self)
    obtain ⟨deliveries, hbuilt, hid, hmap⟩ :=
      ih fun other hother ↦ hurl other (List.mem_cons_of_mem _ hother)
    let delivery : Delivery :=
      ⟨deliveryId lib ⟨ev.runId⟩ kind ev.tenant ev.defName, url, spec.headers, lib.serialize ev⟩
    have hdelivery : deliveryTo lib kind ev spec = some delivery := by
      rw [deliveryTo, hspec]
      rfl
    refine ⟨delivery :: deliveries, ?_, ?_, ?_⟩
    · simp [List.mapM_cons, hdelivery, hbuilt]
    · exact List.forall_mem_cons.mpr ⟨rfl, hid⟩
    · rw [List.map_cons, List.map_cons, hmap, hspec]

/-- There is a delivery for each matched hook, to its URL and with its headers. All deliveries of an
event have the same id. -/
theorem exists_buildDeliveries (lib : EventLibrary) (d : WorkflowDef) (kind : EventKind)
    (ev : RunEventDoc) :
    ∃ deliveries, (buildDeliveries lib d kind ev).1 = some deliveries ∧
      (∀ delivery ∈ deliveries,
        delivery.id = deliveryId lib ⟨ev.runId⟩ kind ev.tenant ev.defName) ∧
      deliveries.map (fun delivery ↦ (some delivery.url, delivery.headers)) =
        (matchHooks d kind).1.map fun spec ↦ (spec.webhookUrl, spec.headers) := by
  refine mapM_deliveryTo lib kind ev fun spec hspec ↦ ?_
  rw [fst_matchHooks, List.mem_filter, Bool.and_eq_true] at hspec
  exact hspec.2.2

end Runvane.Events
