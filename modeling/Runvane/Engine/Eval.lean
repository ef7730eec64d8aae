import Runvane.Engine.Expr

/-!
# Evaluation of expressions

`Expr::eval` evaluates a syntax tree against a context and gives up on a node that lies more than 32
levels below the root. The evaluator without that limit (`evalRef`) has the same rules. The limit
only ever takes answers away (`evalDepth_agrees`), and it takes none from a tree of height at most
32 (`evalDepth_eq_of_height`). Both follow from what each operator does with the results of its
operands, so an operator is defined on results: it fails with the first operand that fails, and `&&`
and `||` do not look at the second one when the first decides.
-/

set_option autoImplicit false

namespace Runvane.Engine

open Domain

/-! ### Values -/

/-- The comparison `==` of floats, false as soon as one side is not a number. -/
def floatEq (a b : F64) : Bool := a == b && a != .nan

mutual

/-- The comparison `==` of values. -/
def ExprValue.valueEq : ExprValue → ExprValue → Bool
  | .null, .null => true
  | .bool a, .bool b => a == b
  | .number a, .number b => floatEq a b
  | .string a, .string b => a == b
  | .array a, .array b => itemsEq a b
  | .object a, .object b => fieldsEq a b
  | _, _ => false

def itemsEq : List ExprValue → List ExprValue → Bool
  | [], [] => true
  | a :: as, b :: bs => a.valueEq b && itemsEq as bs
  | _, _ => false

def fieldsEq : List (String × ExprValue) → List (String × ExprValue) → Bool
  | [], [] => true
  | (key, a) :: as, (key', b) :: bs => key == key' && a.valueEq b && fieldsEq as bs
  | _, _ => false

end

/-! ### Operators on results -/

abbrev EvalResult := Except ExprError ExprValue

/-- Applies an operation to two operands; the failure of the left one comes first. -/
def onBoth (operation : ExprValue → ExprValue → EvalResult) (left right : EvalResult) :
    EvalResult := do
  let l ← left
  let r ← right
  operation l r

/-- `a == b`. -/
def eqOp (l r : ExprValue) : EvalResult := .ok (.bool (l.valueEq r))

/-- `a != b`. -/
def neOp (l r : ExprValue) : EvalResult := .ok (.bool (!l.valueEq r))

/-- `a < b`, of two numbers or two strings. -/
def ltOp : ExprValue → ExprValue → EvalResult
  | .number a, .number b => .ok (.bool (a.lt b))
  | .string a, .string b => .ok (.bool (a < b))
  | _, _ => .error (.typeMismatch "< requires comparable operands")

/-- `a > b`, of two numbers or two strings. -/
def gtOp : ExprValue → ExprValue → EvalResult
  | .number a, .number b => .ok (.bool (b.lt a))
  | .string a, .string b => .ok (.bool (b < a))
  | _, _ => .error (.typeMismatch "> requires comparable operands")

/-- A logical operator: the left operand decides if it is the one boolean, and the right one if it
is the other. -/
def shortCircuit (deciding : Bool) (message : String) (left right : EvalResult) : EvalResult := do
  match ← left with
  | .bool l =>
    if l = deciding then .ok (.bool l)
    else
      match ← right with
      | .bool r => .ok (.bool r)
      | _ => .error (.typeMismatch message)
  | _ => .error (.typeMismatch message)

/-- `a && b`. -/
def andOp : EvalResult → EvalResult → EvalResult :=
  shortCircuit false "&& requires boolean operands"

/-- `a || b`. -/
def orOp : EvalResult → EvalResult → EvalResult := shortCircuit true "|| requires boolean operands"

/-- `!a`. -/
def notOp (operand : EvalResult) : EvalResult := do
  match ← operand with
  | .bool b => .ok (.bool (!b))
  | _ => .error (.typeMismatch "! requires boolean operand")

/-! ### Expressions -/

/-- The syntax tree of an expression. -/
inductive Expr
  | literal (value : ExprValue)
  | variable (path : List String)
  | eq (left right : Expr)
  | ne (left right : Expr)
  | lt (left right : Expr)
  | gt (left right : Expr)
  | and (left right : Expr)
  | or (left right : Expr)
  | not (inner : Expr)

namespace Expr

/-- The depth up to which nodes are evaluated. -/
def maxDepth : ℕ := 32

def evalDepth (ctx : ExprContext) (e : Expr) (depth : ℕ) : EvalResult :=
  if maxDepth < depth then .error .nestingLimitExceeded
  else
    match e with
    | literal value => .ok value
    | .variable path => ctx.resolvePath path
    | eq left right =>
      onBoth eqOp (left.evalDepth ctx (depth + 1)) (right.evalDepth ctx (depth + 1))
    | ne left right =>
      onBoth neOp (left.evalDepth ctx (depth + 1)) (right.evalDepth ctx (depth + 1))
    | lt left right =>
      onBoth ltOp (left.evalDepth ctx (depth + 1)) (right.evalDepth ctx (depth + 1))
    | gt left right =>
      onBoth gtOp (left.evalDepth ctx (depth + 1)) (right.evalDepth ctx (depth + 1))
    | and left right => andOp (left.evalDepth ctx (depth + 1)) (right.evalDepth ctx (depth + 1))
    | or left right => orOp (left.evalDepth ctx (depth + 1)) (right.evalDepth ctx (depth + 1))
    | not inner => notOp (inner.evalDepth ctx (depth + 1))

def eval (ctx : ExprContext) (e : Expr) : EvalResult := e.evalDepth ctx 0

/-- The evaluator with the same rules and without the limit. -/
def evalRef (ctx : ExprContext) : Expr → EvalResult
  | literal value => .ok value
  | .variable path => ctx.resolvePath path
  | eq left right => onBoth eqOp (left.evalRef ctx) (right.evalRef ctx)
  | ne left right => onBoth neOp (left.evalRef ctx) (right.evalRef ctx)
  | lt left right => onBoth ltOp (left.evalRef ctx) (right.evalRef ctx)
  | gt left right => onBoth gtOp (left.evalRef ctx) (right.evalRef ctx)
  | and left right => andOp (left.evalRef ctx) (right.evalRef ctx)
  | or left right => orOp (left.evalRef ctx) (right.evalRef ctx)
  | not inner => notOp (inner.evalRef ctx)

/-- The number of edges on the longest way from the root to a leaf. -/
def height : Expr → ℕ
  | literal _ | .variable _ => 0
  | eq left right | ne left right | lt left right | gt left right | and left right
  | or left right => max left.height right.height + 1
  | not inner => inner.height + 1

end Expr

/-! ### The limit -/

/-- The result under the limit is the one without it, or that the limit was exceeded. -/
def Agrees (limited unlimited : EvalResult) : Prop :=
  limited = unlimited ∨ limited = .error .nestingLimitExceeded

section Agrees

variable {left left' right right' : EvalResult}

/-- An operator that fails where its left operand does, and agrees when only the right one may have
exceeded the limit, agrees. -/
theorem Agrees.lift {operator : EvalResult → EvalResult → EvalResult} (hleft : Agrees left left')
    (hfail : ∀ r, operator (.error .nestingLimitExceeded) r = .error .nestingLimitExceeded)
    (hright : Agrees (operator left' right) (operator left' right')) :
    Agrees (operator left right) (operator left' right') := by
  rcases hleft with rfl | rfl
  · exact hright
  · exact .inr (hfail right)

theorem Agrees.onBoth (operation : ExprValue → ExprValue → EvalResult) (hleft : Agrees left left')
    (hright : Agrees right right') :
    Agrees (onBoth operation left right) (onBoth operation left' right') := by
  refine hleft.lift (fun r ↦ rfl) ?_
  cases left' with
  | error e => exact .inl rfl
  | ok l =>
    rcases hright with rfl | rfl
    · exact .inl rfl
    · exact .inr rfl

theorem Agrees.shortCircuit (deciding : Bool) (message : String) (hleft : Agrees left left')
    (hright : Agrees right right') :
    Agrees (shortCircuit deciding message left right)
      (shortCircuit deciding message left' right') := by
  refine hleft.lift (fun r ↦ rfl) ?_
  rcases hright with rfl | rfl
  · exact .inl rfl
  · -- The right operand has exceeded the limit: it is looked at, or it is not.
    cases left' with
    | error e => exact .inl rfl
    | ok l =>
      cases l with
      | bool l =>
        by_cases hdecides : l = deciding
        · left
          simp [Engine.shortCircuit, hdecides, bind, Except.bind]
        · right
          simp [Engine.shortCircuit, hdecides, bind, Except.bind]
      | null | number | string | array | object => exact .inl rfl

theorem Agrees.notOp {operand operand' : EvalResult} (h : Agrees operand operand') :
    Agrees (notOp operand) (notOp operand') := by
  rcases h with rfl | rfl
  · exact .inl rfl
  · exact .inr rfl

end Agrees

namespace Expr

variable (ctx : ExprContext)

/-- At every depth the limit only takes answers away. -/
theorem evalDepth_agrees (e : Expr) (depth : ℕ) :
    Agrees (e.evalDepth ctx depth) (e.evalRef ctx) := by
  induction e generalizing depth with
  | literal | «variable» =>
    unfold evalDepth
    split_ifs
    · exact .inr rfl
    · exact .inl rfl
  | eq left right hleft hright | ne left right hleft hright | lt left right hleft hright
  | gt left right hleft hright =>
    unfold evalDepth
    split_ifs
    · exact .inr rfl
    · exact (hleft (depth + 1)).onBoth _ (hright (depth + 1))
  | and left right hleft hright | or left right hleft hright =>
    unfold evalDepth
    split_ifs
    · exact .inr rfl
    · exact (hleft (depth + 1)).shortCircuit _ _ (hright (depth + 1))
  | not inner hinner =>
    unfold evalDepth
    split_ifs
    · exact .inr rfl
    · exact (hinner (depth + 1)).notOp

/-- A node whose leaves are all within the limit is evaluated as without it. -/
theorem evalDepth_eq_of_height {e : Expr} {depth : ℕ} (h : e.height + depth ≤ maxDepth) :
    e.evalDepth ctx depth = e.evalRef ctx := by
  induction e generalizing depth with
  | literal | «variable» =>
    unfold evalDepth
    rw [if_neg (by omega)]
    rfl
  | eq left right hleft hright | ne left right hleft hright | lt left right hleft hright
  | gt left right hleft hright | and left right hleft hright | or left right hleft hright =>
    rw [height] at h
    unfold evalDepth
    rw [if_neg (by omega)]
    have hl : left.evalDepth ctx (depth + 1) = left.evalRef ctx := hleft (by omega)
    have hr : right.evalDepth ctx (depth + 1) = right.evalRef ctx := hright (by omega)
    simp only [hl, hr]
    rfl
  | not inner hinner =>
    rw [height] at h
    unfold evalDepth
    rw [if_neg (by omega)]
    have hi : inner.evalDepth ctx (depth + 1) = inner.evalRef ctx := hinner (by omega)
    simp only [hi]
    rfl

/-- The evaluator with the limit yields a value only if it is the one without the limit, is the same
on trees of height at most 32, and differs elsewhere only by reporting that the limit is exceeded.
-/
theorem eval_restricts_evalRef (e : Expr) :
    (∀ value, e.eval ctx = .ok value → e.evalRef ctx = .ok value) ∧
    (e.height ≤ 32 → e.eval ctx = e.evalRef ctx) ∧
    (e.eval ctx ≠ e.evalRef ctx →
      e.eval ctx = .error .nestingLimitExceeded ∧ 32 < e.height) := by
  have hagrees := evalDepth_agrees ctx e 0
  have hsame : e.height ≤ 32 → e.eval ctx = e.evalRef ctx := fun h ↦
    evalDepth_eq_of_height ctx h
  refine ⟨fun value hvalue ↦ ?_, hsame, fun hne ↦ ⟨?_, ?_⟩⟩
  · rcases hagrees with heq | hlimit
    · rw [← heq]
      exact hvalue
    · cases hlimit.symm.trans hvalue
  · exact hagrees.resolve_left hne
  · by_contra hle
    exact hne (hsame (not_lt.mp hle))

end Expr

end Runvane.Engine
