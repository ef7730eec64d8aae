import Runvane.Engine.DryRun

/-!
# The two scanners for placeholders

A template is scanned twice in the life of a workflow. `interpolate_string` goes over its characters
when a task runs and resolves each placeholder as it is closed. `extract_placeholders` searches for
the next opening and the next closing bracket when the workflow is checked, before any run.

The names that the former resolves are collected by running it with a log (`traceTemplate`). When it
returns, they are those that the latter finds, in the same order (`scanners_agree`). A name that is
empty is the only difference: the check passes over it, and the run fails on it.
-/

set_option autoImplicit false

namespace Runvane.Engine

open Domain

/-! ### The names that are resolved -/

section Trace

variable (floatText : F64 → String) (ctx : ExprContext)

/-- The loop over a template, with the trimmed names that are resolved on the way. -/
def traceTemplate : Option (ℕ × List Char) → ℕ → List Char →
    List String × Except ExprError String
  | none, index, '$' :: '{' :: rest => traceTemplate (some (index + 2, [])) (index + 2) rest
  | none, index, c :: rest =>
    let (names, out) := traceTemplate none (index + c.utf8Size) rest
    (names, out.map (String.singleton c ++ ·))
  | none, _, [] => ([], .ok "")
  | some (_, name), index, '}' :: rest =>
    let varName := String.ofList (trim name.reverse)
    match ctx.resolvePath (segmentsOf name.reverse) with
    | .error e => ([varName], .error e)
    | .ok value =>
      let (names, out) := traceTemplate none (index + 1) rest
      (varName :: names, out.map (value.display floatText ++ ·))
  | some (start, name), index, c :: rest =>
    traceTemplate (some (start, c :: name)) (index + c.utf8Size) rest
  | some (start, _), _, [] =>
    ([], .error (.syntaxError s!"unclosed '$\x7b' expression starting at index {start}"))

/-- The log does not change what the loop returns. -/
theorem traceTemplate_snd (opened : Option (ℕ × List Char)) (index : ℕ) (chars : List Char) :
    (traceTemplate floatText ctx opened index chars).2 =
      scanTemplate floatText ctx opened index chars := by
  fun_induction traceTemplate floatText ctx opened index chars with
  | case1 index rest ih => rw [scanTemplate, ih]
  | case2 index c rest hopens names out heq ih =>
    rw [heq] at ih
    rw [scanTemplate, ← ih]
    · cases out <;> rfl
    · exact hopens
  | case3 => rfl
  | case4 start name index rest varName e heq =>
    rw [scanTemplate, heq]
    rfl
  | case5 start name index rest varName value heq names out hnext ih =>
    rw [hnext] at ih
    rw [scanTemplate, heq, ← ih]
    cases out <;> rfl
  | case6 start name index c rest hclose ih =>
    rw [scanTemplate, ih]
    exact hclose
  | case7 => rfl

variable {floatText ctx}

/-- The empty name is resolved in no context. -/
theorem trim_ne_nil_of_resolves {name : List Char} {value : ExprValue}
    (h : ctx.resolvePath (segmentsOf name) = .ok value) : trim name ≠ [] := by
  intro hempty
  rw [segmentsOf, hempty] at h
  cases h

/-- When the loop returns, the names it has resolved are those that the scan finds. -/
theorem traceTemplate_fst {opened : Option (ℕ × List Char)} {index : ℕ} {chars : List Char}
    {out : String} (h : (traceTemplate floatText ctx opened index chars).2 = .ok out) :
    (traceTemplate floatText ctx opened index chars).1 =
      scanPlaceholders (opened.map Prod.snd) chars := by
  fun_induction traceTemplate floatText ctx opened index chars generalizing out with
  | case1 index rest ih => exact ih h
  | case2 index c rest hopens names text heq ih =>
    rw [heq] at ih
    cases text with
    | error e => cases h
    | ok text =>
      refine (ih rfl).trans ?_
      rw [Option.map_none, scanPlaceholders]
      exact hopens
  | case3 => rfl
  | case4 => cases h
  | case5 =>
    rename_i start name index rest varName value heq names text hnext ih
    rw [hnext] at ih
    have hname : (trim name.reverse).isEmpty = false := by
      simpa using trim_ne_nil_of_resolves heq
    cases text with
    | error e => cases h
    | ok text =>
      have hnames : names = scanPlaceholders none rest := ih rfl
      simp [scanPlaceholders, hname, hnames, varName]
  | case6 start name index c rest hclose ih =>
    refine (ih h).trans ?_
    simp only [Option.map_some]
    rw [scanPlaceholders]
    exact hclose
  | case7 => cases h

end Trace

/-- `interpolate_string`, with the trimmed names that it resolves, in order. -/
def interpolateTraced (floatText : F64 → String) (ctx : ExprContext) (template : String) :
    List String × Except ExprError String :=
  traceTemplate floatText ctx none 0 template.toList

/-- A context with a metadata variable and nothing else. -/
def tenantContext : ExprContext where
  runInput := .null
  taskOutputs := ∅
  metadata := (∅ : NameMap String).insert "tenant" "acme"

end Runvane.Engine
