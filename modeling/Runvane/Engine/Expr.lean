import Runvane.Domain.Dag

/-!
# Template interpolation

`engine/expr.rs`: the `${...}` expressions in the inputs of tasks. A path is resolved against the
input of the run, the outputs of tasks and some metadata (`ExprContext.resolvePath`); the resolved
value takes the place of the expression in a text (`interpolateString`), or of the whole string when
that is a single expression (`interpolateJson`). Numbers go through 64-bit floats.

A document in which no string opens an expression is left as it is, whatever the context
(`interpolateJson_of_isLiteral`).
-/

set_option autoImplicit false

namespace Runvane.Engine

open Domain

/-! ### Texts -/

/-- White space as `char::is_whitespace` has it. -/
def isWhitespace (c : Char) : Bool :=
  let n := c.toNat
  (9 ≤ n && n ≤ 13) || n = 32 || n = 0x85 || n = 0xA0 || n = 0x1680 ||
    (0x2000 ≤ n && n ≤ 0x200A) || n = 0x2028 || n = 0x2029 || n = 0x202F || n = 0x205F || n = 0x3000

/-- The characters without white space at both ends. -/
def trim (chars : List Char) : List Char :=
  ((chars.dropWhile isWhitespace).reverse.dropWhile isWhitespace).reverse

/-- White space is dropped up to a character that is none. -/
theorem dropWhile_append_cons {c : Char} (h : isWhitespace c = false) (front rest : List Char) :
    (front ++ c :: rest).dropWhile isWhitespace = front.dropWhile isWhitespace ++ c :: rest := by
  rw [List.dropWhile_append]
  split_ifs with hempty
  · rw [List.isEmpty_iff.mp hempty, List.nil_append, List.dropWhile_cons_of_neg (by simp [h])]
  · rfl

/-- A character that is no white space keeps what follows it in place. -/
theorem trim_cons {c : Char} {rest : List Char} (h : isWhitespace c = false) :
    ∃ kept, kept <+: rest ∧ trim (c :: rest) = c :: kept := by
  refine ⟨(rest.reverse.dropWhile isWhitespace).reverse, ?_, ?_⟩
  · rw [← List.reverse_suffix, List.reverse_reverse]
    exact List.dropWhile_suffix _
  · rw [trim, List.dropWhile_cons_of_neg (by simp [h]), List.reverse_cons,
      dropWhile_append_cons h]
    simp

/-- A text that begins and ends with something else than white space has nothing to trim. -/
theorem trim_eq_self {c last : Char} {middle : List Char} (hc : isWhitespace c = false)
    (hlast : isWhitespace last = false) :
    trim (c :: (middle ++ [last])) = c :: (middle ++ [last]) := by
  rw [trim, List.dropWhile_cons_of_neg (by simp [hc]), List.reverse_cons, List.reverse_append,
    List.reverse_singleton, List.singleton_append, List.cons_append,
    List.dropWhile_cons_of_neg (by simp [hlast])]
  simp

/-- The pieces between dots. -/
def splitDots : List Char → List (List Char)
  | [] => [[]]
  | '.' :: rest => [] :: splitDots rest
  | c :: rest =>
    match splitDots rest with
    | [] => [[c]]
    | piece :: pieces => (c :: piece) :: pieces

/-- The segments of a variable name, without white space at its ends. -/
def segmentsOf (name : List Char) : List String := (splitDots (trim name)).map String.ofList

def opensExpr : List Char → Bool
  | '$' :: '{' :: _ => true
  | _ :: rest => opensExpr rest
  | [] => false

/-! ### Values -/

inductive ExprError
  | syntaxError (message : String)
  | undefinedVariable (path : String)
  | typeMismatch (message : String)
  | nestingLimitExceeded
  deriving DecidableEq, Repr

/-- The value of an expression. The fields of an object are kept in the order of their keys. -/
inductive ExprValue
  | null
  | bool (value : Bool)
  | number (value : F64)
  | string (value : String)
  | array (items : List ExprValue)
  | object (fields : List (String × ExprValue))

/-- A natural number rounded to 53 significant bits, ties to even. -/
def roundToF64 (n : ℕ) : ℕ :=
  let unit := 2 ^ (n.log2 + 1 - 53)
  let quotient := n / unit
  let rest := n % unit
  if unit < 2 * rest ∨ 2 * rest = unit ∧ quotient % 2 = 1 then (quotient + 1) * unit
  else quotient * unit

/-- An integer as a float. -/
def f64OfInt (n : ℤ) : F64 := .finite (n.sign * roundToF64 n.natAbs)

/-- `Number::as_f64`. -/
def asF64 : JsonNumber → F64
  | .int value => f64OfInt value
  | .float value => value

/-- `Number::from_f64`, with null for what is no JSON number. -/
def jsonOfF64 (value : F64) : Json := if value.isFinite then .number (.float value) else .null

mutual

def ExprValue.ofJson : Json → ExprValue
  | .null => .null
  | .bool b => .bool b
  | .number n => .number (asF64 n)
  | .string s => .string s
  | .array items => .array (valuesOfItems items)
  | .object fields => .object (valuesOfFields fields)

def valuesOfItems : List Json → List ExprValue
  | [] => []
  | item :: items => .ofJson item :: valuesOfItems items

def valuesOfFields : List (String × Json) → List (String × ExprValue)
  | [] => []
  | (key, value) :: fields => (key, .ofJson value) :: valuesOfFields fields

end

mutual

def ExprValue.toJson : ExprValue → Json
  | .null => .null
  | .bool b => .bool b
  | .number n => jsonOfF64 n
  | .string s => .string s
  | .array items => .array (itemsOfValues items)
  | .object fields => .object (fieldsOfValues fields)

def itemsOfValues : List ExprValue → List Json
  | [] => []
  | item :: items => item.toJson :: itemsOfValues items

def fieldsOfValues : List (String × ExprValue) → List (String × Json)
  | [] => []
  | (key, value) :: fields => (key, value.toJson) :: fieldsOfValues fields

end

section Display

variable (floatText : F64 → String)

mutual

/-- The text of a value. How a float is written is left open. -/
def ExprValue.display : ExprValue → String
  | .null => "null"
  | .bool b => if b then "true" else "false"
  | .number n => floatText n
  | .string s => s
  | .array items => "[" ++ ", ".intercalate (displayItems items) ++ "]"
  | .object fields => "\x7b" ++ ", ".intercalate (displayFields fields) ++ "\x7d"

def displayItems : List ExprValue → List String
  | [] => []
  | item :: items => item.display :: displayItems items

def displayFields : List (String × ExprValue) → List String
  | [] => []
  | (key, value) :: fields => ("\"" ++ key ++ "\": " ++ value.display) :: displayFields fields

end

end Display

/-! ### Paths -/

structure ExprContext where
  runInput : Json
  taskOutputs : NameMap Json
  metadata : NameMap String

/-- Follows field names into a document. A missing field is null, and so is a field of anything but
an object. -/
def descend : Json → List String → ExprValue
  | curr, [] => .ofJson curr
  | .object fields, segment :: segments => descend ((fields.lookup segment).getD .null) segments
  | _, _ :: _ => .null

namespace ExprContext

variable (ctx : ExprContext)

/-- `run.input` and what is below it. -/
def resolveRun (full : String) : List String → Except ExprError ExprValue
  | [] => .error (.undefinedVariable full)
  | field :: segments =>
    if field = "input" then .ok (descend ctx.runInput segments)
    else .error (.undefinedVariable full)

/-- The output of a task and what is below it; the word `output` may be left out. -/
def resolveTask (full : String) : List String → Except ExprError ExprValue
  | [] => .error (.syntaxError "incomplete tasks path")
  | name :: rest =>
    match ctx.taskOutputs[name]? with
    | none => .error (.undefinedVariable full)
    | some output =>
      match rest with
      | [] => .ok (descend output [])
      | field :: segments =>
        .ok (descend output (if field = "output" then segments else field :: segments))

def resolveMeta (full : String) : List String → Except ExprError ExprValue
  | [key] =>
    match ctx.metadata[key]? with
    | some value => .ok (.string value)
    | none => .ok .null
  | _ => .error (.undefinedVariable full)

def resolvePath : List String → Except ExprError ExprValue
  | [] => .error (.syntaxError "empty variable path")
  | root :: segments =>
    let full := ".".intercalate (root :: segments)
    if root = "run" then ctx.resolveRun full segments
    else if root = "tasks" then ctx.resolveTask full segments
    else if root = "meta" then ctx.resolveMeta full segments
    else .error (.undefinedVariable s!"unknown root domain '{root}' in '{full}'")

end ExprContext

/-! ### Interpolation -/

section Interpolation

variable (floatText : F64 → String) (ctx : ExprContext)

/-- The loop over a template, outside (`none`) or within an expression that was opened, with the
byte at which the expression starts and its characters so far, the last one first. -/
def scanTemplate : Option (ℕ × List Char) → ℕ → List Char → Except ExprError String
  | none, index, '$' :: '{' :: rest => scanTemplate (some (index + 2, [])) (index + 2) rest
  | none, index, c :: rest => do
    let out ← scanTemplate none (index + c.utf8Size) rest
    pure (String.singleton c ++ out)
  | none, _, [] => .ok ""
  | some (_, name), index, '}' :: rest => do
    let value ← ctx.resolvePath (segmentsOf name.reverse)
    let out ← scanTemplate none (index + 1) rest
    pure (value.display floatText ++ out)
  | some (start, name), index, c :: rest =>
    scanTemplate (some (start, c :: name)) (index + c.utf8Size) rest
  | some (start, _), _, [] =>
    .error (.syntaxError s!"unclosed '$\x7b' expression starting at index {start}")

def interpolateString (template : String) : Except ExprError String :=
  scanTemplate floatText ctx none 0 template.toList

/-- The text of the only expression, if a string has the form of one: it opens one at its start and
not again, and it ends with a closing brace. -/
def exactExpr (chars : List Char) : Option (List Char) :=
  match trim chars with
  | '$' :: '{' :: rest =>
    if rest.getLast? = some '}' ∧ opensExpr rest.dropLast = false then some rest.dropLast else none
  | _ => none

def interpolateText (s : String) : Except ExprError Json :=
  match exactExpr s.toList with
  | some name => return (← ctx.resolvePath (segmentsOf name)).toJson
  | none => return .string (← interpolateString floatText ctx s)

mutual

def interpolateJson : Json → Except ExprError Json
  | .string s => interpolateText floatText ctx s
  | .array items => return .array (← interpolateItems items)
  | .object fields => return .object (← interpolateFields fields)
  | other => .ok other

def interpolateItems : List Json → Except ExprError (List Json)
  | [] => .ok []
  | item :: items => return (← interpolateJson item) :: (← interpolateItems items)

def interpolateFields : List (String × Json) → Except ExprError (List (String × Json))
  | [] => .ok []
  | (key, value) :: fields => return (key, ← interpolateJson value) :: (← interpolateFields fields)

end

end Interpolation

/-! ### Literals -/

mutual

def isLiteral : Json → Bool
  | .string s => !opensExpr s.toList
  | .array items => itemsLiteral items
  | .object fields => fieldsLiteral fields
  | _ => true

def itemsLiteral : List Json → Bool
  | [] => true
  | item :: items => isLiteral item && itemsLiteral items

def fieldsLiteral : List (String × Json) → Bool
  | [] => true
  | (_, value) :: fields => isLiteral value && fieldsLiteral fields

end

theorem opensExpr_iff (chars : List Char) :
    opensExpr chars = true ↔ ['$', '{'] <:+: chars := by
  fun_induction opensExpr chars with
  | case1 rest => exact iff_of_true rfl (List.prefix_append ['$', '{'] rest).isInfix
  | case2 c rest hopens ih =>
    rw [ih, List.infix_cons_iff]
    refine (or_iff_right ?_).symm
    rintro ⟨tail, htail⟩
    injection htail with hc hrest
    exact hopens tail hc.symm hrest.symm
  | case3 => simp

theorem isInfix_trim (chars : List Char) : trim chars <:+: chars := by
  have hleft : chars.dropWhile isWhitespace <:+: chars := (List.dropWhile_suffix _).isInfix
  have hright : trim chars <+: chars.dropWhile isWhitespace := by
    rw [← List.reverse_suffix]
    simpa [trim] using List.dropWhile_suffix isWhitespace
  exact hright.isInfix.trans hleft

theorem exactExpr_of_not_opensExpr {chars : List Char} (h : opensExpr chars = false) :
    exactExpr chars = none := by
  unfold exactExpr
  split
  · next rest htrim =>
    have hopens : opensExpr (trim chars) = true := by
      rw [htrim]
      rfl
    have hinfix := ((opensExpr_iff _).mp hopens).trans (isInfix_trim chars)
    rw [(opensExpr_iff _).mpr hinfix] at h
    cases h
  · rfl

section Literals

variable (floatText : F64 → String) (ctx : ExprContext)

theorem scanTemplate_of_not_opensExpr {chars : List Char} (h : opensExpr chars = false)
    (index : ℕ) : scanTemplate floatText ctx none index chars = .ok (String.ofList chars) := by
  fun_induction opensExpr chars generalizing index with
  | case1 rest => cases h
  | case2 c rest hopens ih =>
    rw [scanTemplate, ih h]
    · exact congrArg Except.ok String.ofList_cons.symm
    · exact hopens
  | case3 => rfl

theorem interpolateText_of_not_opensExpr {s : String} (h : opensExpr s.toList = false) :
    interpolateText floatText ctx s = .ok (.string s) := by
  unfold interpolateText interpolateString
  rw [exactExpr_of_not_opensExpr h, scanTemplate_of_not_opensExpr floatText ctx h]
  exact congrArg (fun text ↦ Except.ok (Json.string text)) s.ofList_toList

mutual

/-- A document in which no string opens an expression is left as it is. -/
theorem interpolateJson_of_isLiteral : (value : Json) → isLiteral value = true →
    interpolateJson floatText ctx value = .ok value
  | .null, _ | .bool _, _ | .number _, _ => rfl
  | .string s, h => by
    rw [interpolateJson]
    exact interpolateText_of_not_opensExpr floatText ctx (by simpa [isLiteral] using h)
  | .array items, h => by
    rw [interpolateJson, interpolateItems_of_literal items h]
    rfl
  | .object fields, h => by
    rw [interpolateJson, interpolateFields_of_literal fields h]
    rfl

theorem interpolateItems_of_literal : (items : List Json) → itemsLiteral items = true →
    interpolateItems floatText ctx items = .ok items
  | [], _ => rfl
  | item :: items, h => by
    rw [itemsLiteral, Bool.and_eq_true] at h
    rw [interpolateItems, interpolateJson_of_isLiteral item h.1,
      interpolateItems_of_literal items h.2]
    rfl

theorem interpolateFields_of_literal : (fields : List (String × Json)) →
    fieldsLiteral fields = true → interpolateFields floatText ctx fields = .ok fields
  | [], _ => rfl
  | (key, value) :: fields, h => by
    rw [fieldsLiteral, Bool.and_eq_true] at h
    rw [interpolateFields, interpolateJson_of_isLiteral value h.1,
      interpolateFields_of_literal fields h.2]
    rfl

end

end Literals

end Runvane.Engine
