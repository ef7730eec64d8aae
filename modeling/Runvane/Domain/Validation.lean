import Runvane.Domain.Dag
import Runvane.Library.Results

/-!
# Validation of definitions and run inputs

`domain/validation.rs`: `validateDefinition` returns the first problem it finds, and
`validateWorkflowPolicy` checks the workflow's own retry policy, which the former leaves out. The
URL parser is a library of the code's and stays a parameter. `validateRunInput` bounds the size and
the nesting of a run's input; it measures a float by its printed form, which is a parameter, too.

`WellFormed` is what the engine relies on in an accepted definition: one task a name, dependencies
that are tasks, a rank that falls along every dependency, and valid task policies.
`wellFormed_of_validateDefinition` connects the two.
-/

set_option autoImplicit false

namespace Runvane.Domain

open Std (ExtTreeSet)
open Library

/-! ### The checks -/

/-- Character pattern for definition names. -/
def isValidName (name : String) : Bool :=
  if name.isEmpty || 64 < name.utf8ByteSize then false
  else
    match name.toList with
    | [] => false
    | first :: rest =>
      first.isLower && rest.all fun c ↦ c.isLower || c.isDigit || c == '-'

/-- Rejects descriptions of more than 512 characters. -/
def sanitizeDescription (description : String) : Except DomainError Unit :=
  if 512 < description.length then .error .descriptionTooLong else .ok ()

/-- The first task whose name was seen before is a duplicate. -/
def checkUniqueNames : NameSet → List TaskSpec → Except DomainError Unit
  | _, [] => .ok ()
  | seen, task :: tasks =>
    if seen.contains task.name then .error (.duplicateTaskName task.name)
    else checkUniqueNames (seen.insert task.name) tasks

/-- Timeout, name length and retry policy of one task. -/
def validateTaskBasics (task : TaskSpec) : Except DomainError Unit :=
  if task.timeoutMs = some 0 then .error .zeroTimeout
  else if maxTaskNameLen < task.name.utf8ByteSize then
    .error (.invalidDefinition (.taskNameTooLong task.name maxTaskNameLen))
  else
    match task.retry with
    | some retry => retry.validate.mapError .invalidPolicy
    | none => .ok ()

structure ParsedUrl where
  scheme : String
  hostStr : Option String

/-- The URL parser of the code, with the text of its error. -/
abbrev UrlParser := String → Except String ParsedUrl

/-- The scheme must be `http` or `https` and a host must be present. -/
def validateWebhookUrl (parse : UrlParser) (url : String) : Except DefinitionProblem Unit :=
  match parse url with
  | .error e => .error (.webhookUrlNotParseable e)
  | .ok parsed =>
    if parsed.scheme ≠ "http" ∧ parsed.scheme ≠ "https" then
      .error (.webhookUrlScheme parsed.scheme)
    else if parsed.hostStr.isNone then .error .webhookUrlNoHost
    else .ok ()

def validateHook (parse : UrlParser) (hook : HookSpec) : Except DomainError Unit :=
  match hook.webhookUrl with
  | some url => (validateWebhookUrl parse url).mapError .invalidDefinition
  | none => .ok ()

/-- Validates a full workflow definition, returning the first problem found. -/
def validateDefinition (parse : UrlParser) (d : WorkflowDef) : Except DomainError Unit :=
  if !isValidName d.name then .error (.invalidName d.name)
  else do
    sanitizeDescription d.description
    if d.tasks.isEmpty then .error .emptyTasks
    else if maxTasks < d.tasks.length then .error .tooManyTasks
    else do
      checkUniqueNames ∅ d.tasks
      d.tasks.forM validateTaskBasics
      validateEdges d.tasks
      if d.timeoutMs = 0 then .error .zeroTimeout
      else d.hooks.all.forM (validateHook parse)

/-- Runs the workflow's default retry policy through validation too. -/
def validateWorkflowPolicy (d : WorkflowDef) : Except DomainError Unit :=
  d.retry.validate.mapError .invalidPolicy

/-! ### Run inputs -/

def maxRunInputBytes : ℕ := 2 ^ 20

/-- Maximum nesting depth of an input. -/
def maxJsonDepth : ℕ := 64

mutual

/-- The size of a JSON value as the platform measures it. -/
def jsonSize (floatText : F64 → String) : Json → ℕ
  | .null => 4
  | .bool _ => 4
  | .number (.int value) => (toString value).utf8ByteSize
  | .number (.float value) => (floatText value).utf8ByteSize
  | .string value => value.utf8ByteSize + 2
  | .array items => itemsSize floatText items
  | .object fields => fieldsSize floatText fields

/-- The sum over the items of an array. -/
def itemsSize (floatText : F64 → String) : List Json → ℕ
  | [] => 0
  | item :: items => jsonSize floatText item + itemsSize floatText items

/-- The sum over the fields of an object. -/
def fieldsSize (floatText : F64 → String) : List (String × Json) → ℕ
  | [] => 0
  | field :: fields => fieldSize floatText field + fieldsSize floatText fields

def fieldSize (floatText : F64 → String) : String × Json → ℕ
  | (key, value) => key.utf8ByteSize + jsonSize floatText value

end

mutual

/-- The nesting depth of a JSON value that stands at a depth itself. An empty array or object counts
as one level. -/
def jsonDepth : Json → ℕ → ℕ
  | .array items, depth => (itemsDepth items (depth + 1)).getD (depth + 1)
  | .object fields, depth => (fieldsDepth fields (depth + 1)).getD (depth + 1)
  | _, depth => depth

/-- The greatest depth among the items of an array, if there are any. -/
def itemsDepth : List Json → ℕ → Option ℕ
  | [], _ => none
  | item :: items, depth => (some (jsonDepth item depth)).merge max (itemsDepth items depth)

/-- The greatest depth among the values of an object, if there are any. -/
def fieldsDepth : List (String × Json) → ℕ → Option ℕ
  | [], _ => none
  | field :: fields, depth => (some (fieldDepth field depth)).merge max (fieldsDepth fields depth)

def fieldDepth : String × Json → ℕ → ℕ
  | (_, value), depth => jsonDepth value depth

end

def validateRunInput (floatText : F64 → String) (input : Json) : Except DomainError Unit :=
  let size := jsonSize floatText input
  if maxRunInputBytes < size then .error (.inputTooLarge size maxRunInputBytes)
  else
    let depth := jsonDepth input 0
    if maxJsonDepth < depth then .error (.inputTooDeep depth maxJsonDepth) else .ok ()

/-! ### What an accepted definition satisfies -/

/-- The part of acceptance the engine rests on. -/
structure WellFormed (d : WorkflowDef) : Prop where
  tasks_ne_nil : d.tasks ≠ []
  nodup : d.names.Nodup
  known : ∀ task ∈ d.tasks, ∀ dep ∈ task.dependsOn, dep ∈ d.names
  rank : ∃ rank : String → ℕ, ∀ task ∈ d.tasks, ∀ dep ∈ task.dependsOn, rank dep < rank task.name
  topo : ∃ order, topoOrder d.tasks = .ok order
  policy : ∀ task ∈ d.tasks, ∀ policy, task.retry = some policy → policy.validate = .ok ()

theorem nodup_of_checkUniqueNames {seen : NameSet} {tasks : List TaskSpec}
    (h : checkUniqueNames seen tasks = .ok ()) :
    (tasks.map TaskSpec.name).Nodup ∧ ∀ task ∈ tasks, task.name ∉ seen := by
  induction tasks generalizing seen with
  | nil => simp
  | cons task tasks ih =>
    unfold checkUniqueNames at h
    split_ifs at h with hseen
    obtain ⟨hnodup, hfresh⟩ := ih h
    simp only [ExtTreeSet.mem_insert, Std.compare_eq_iff_eq, not_or] at hfresh
    rw [ExtTreeSet.contains_iff_mem] at hseen
    refine ⟨List.nodup_cons.mpr ⟨fun hmem ↦ ?_, hnodup⟩, ?_⟩
    · obtain ⟨other, hother, hname⟩ := List.mem_map.mp hmem
      exact (hfresh other hother).1 hname.symm
    · simp only [List.mem_cons, forall_eq_or_imp]
      exact ⟨hseen, fun other hother ↦ (hfresh other hother).2⟩

/-- The policy of a task that passed its check is valid. -/
theorem policy_of_validateTaskBasics {task : TaskSpec} (h : validateTaskBasics task = .ok ())
    {policy : RetryPolicy} (hretry : task.retry = some policy) : policy.validate = .ok () := by
  unfold validateTaskBasics at h
  split_ifs at h
  rw [hretry] at h
  exact mapError_eq_ok h

/-- The checks of `validateDefinition` that the engine and the hooks rely on. -/
theorem checks_of_validateDefinition {parse : UrlParser} {d : WorkflowDef}
    (h : validateDefinition parse d = .ok ()) :
    d.tasks ≠ [] ∧ checkUniqueNames ∅ d.tasks = .ok () ∧
      d.tasks.forM validateTaskBasics = .ok () ∧ validateEdges d.tasks = .ok () ∧
      d.hooks.all.forM (validateHook parse) = .ok () := by
  unfold validateDefinition at h
  split at h
  · cases h
  obtain ⟨_, -, h⟩ := bind_eq_ok h
  split at h
  · cases h
  next hne =>
    split at h
    · cases h
    obtain ⟨_, hunique, h⟩ := bind_eq_ok h
    obtain ⟨_, hbasics, h⟩ := bind_eq_ok h
    obtain ⟨_, hedges, h⟩ := bind_eq_ok h
    split at h
    · cases h
    exact ⟨by simpa using hne, hunique, hbasics, hedges, h⟩

theorem wellFormed_of_validateDefinition {parse : UrlParser} {d : WorkflowDef}
    (h : validateDefinition parse d = .ok ()) : WellFormed d := by
  obtain ⟨hne, hunique, hbasics, hedges, -⟩ := checks_of_validateDefinition h
  obtain ⟨order, horder, -⟩ := map_eq_ok hedges
  obtain ⟨-, -, hdeps⟩ := topoOrder_ok horder
  exact
    { tasks_ne_nil := hne
      nodup := (nodup_of_checkUniqueNames hunique).1
      known := fun task htask dep hdep ↦ by
        obtain ⟨other, hother, hname⟩ := (hdeps task htask dep hdep).1
        exact List.mem_map.mpr ⟨other, hother, hname⟩
      rank := ⟨order.idxOf, fun task htask dep hdep ↦ (hdeps task htask dep hdep).2⟩
      topo := ⟨order, horder⟩
      policy := fun task htask _ ↦ policy_of_validateTaskBasics (forM_eq_ok hbasics task htask) }

/-- The URL of a hook of an accepted definition has a host. -/
theorem parse_of_validateDefinition {parse : UrlParser} {d : WorkflowDef}
    (h : validateDefinition parse d = .ok ()) {hook : HookSpec} (hhook : hook ∈ d.hooks.all)
    {url : String} (hurl : hook.webhookUrl = some url) :
    ∃ parsed host, parse url = .ok parsed ∧ parsed.hostStr = some host := by
  obtain ⟨-, -, -, -, hhooks⟩ := checks_of_validateDefinition h
  have hvalid := forM_eq_ok hhooks hook hhook
  rw [validateHook, hurl] at hvalid
  have hvalid := mapError_eq_ok hvalid
  rw [validateWebhookUrl] at hvalid
  cases hparse : parse url with
  | error e =>
    rw [hparse] at hvalid
    cases hvalid
  | ok parsed =>
    rw [hparse] at hvalid
    dsimp only at hvalid
    split_ifs at hvalid with hscheme hhost
    rw [Option.isNone_iff_eq_none] at hhost
    obtain ⟨host, hhost⟩ := Option.ne_none_iff_exists'.mp hhost
    exact ⟨parsed, host, rfl, hhost⟩

/-- Under one task a name, the policy found for a task's name is the task's own. -/
theorem WellFormed.policyOf_eq {d : WorkflowDef} (h : WellFormed d) {task : TaskSpec}
    (htask : task ∈ d.tasks) : d.policyOf task.name = task.effectiveRetry d.retry := by
  unfold WorkflowDef.policyOf
  cases hfind : d.tasks.find? (·.name = task.name) with
  | none => simpa using List.find?_eq_none.mp hfind task htask
  | some other =>
    have hname : other.name = task.name := by simpa using List.find?_some hfind
    have hmem : other ∈ d.tasks := List.mem_of_find?_eq_some hfind
    obtain rfl : other = task := List.inj_on_of_nodup_map h.nodup hmem htask hname
    rfl

theorem retry_of_validateWorkflowPolicy {d : WorkflowDef} (h : validateWorkflowPolicy d = .ok ()) :
    d.retry.validate = .ok () :=
  mapError_eq_ok h

end Runvane.Domain
