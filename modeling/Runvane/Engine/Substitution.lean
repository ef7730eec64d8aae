import Runvane.Engine.Expr

/-!
# Interpolation is substitution

A template is a literal, then placeholders each followed by a literal (`Template`); a literal opens
no placeholder, and the name in a placeholder does not close it. `interpolate_string` puts in the
place of each placeholder the text of the value its name resolves to, and what it has put there is
not scanned again (`interpolate_substitutes`).
-/

set_option autoImplicit false

namespace Runvane.Engine

open Domain

/-! ### Templates -/

/-- The number of bytes of a text. -/
def byteLength (chars : List Char) : ℕ := (chars.map Char.utf8Size).sum

@[simp] theorem byteLength_nil : byteLength [] = 0 := rfl

@[simp] theorem byteLength_cons (c : Char) (chars : List Char) :
    byteLength (c :: chars) = c.utf8Size + byteLength chars := rfl

@[simp] theorem byteLength_append (left right : List Char) :
    byteLength (left ++ right) = byteLength left + byteLength right := by
  simp [byteLength]

/-- A placeholder by its name, and the literal after it. -/
structure TemplatePart where
  name : List Char
  literal : List Char
  closed : '}' ∉ name
  plain : opensExpr literal = false

/-- A literal, and placeholders each followed by a literal. -/
structure Template where
  first : List Char
  parts : List TemplatePart
  plain : opensExpr first = false

def TemplatePart.text (part : TemplatePart) : List Char :=
  '$' :: '{' :: (part.name ++ '}' :: part.literal)

/-- The text of placeholders with their literals. -/
def partsText (parts : List TemplatePart) : List Char := parts.flatMap TemplatePart.text

def Template.text (template : Template) : List Char := template.first ++ partsText template.parts

def TemplatePart.Resolves (ctx : ExprContext) (part : TemplatePart) (value : ExprValue) : Prop :=
  ctx.resolvePath (segmentsOf part.name) = .ok value

/-- The placeholders with their values in their places. -/
def filledParts (floatText : F64 → String) (parts : List TemplatePart) (values : List ExprValue) :
    String :=
  String.join (List.zipWith
    (fun part value ↦ value.display floatText ++ String.ofList part.literal) parts values)

/-! ### The scan of a template -/

/-- A text after which no bracket can be opened across the boundary: it is empty or begins with the
first character of one. -/
def Opens (rest : List Char) : Prop := rest = [] ∨ ∃ tail, rest = '$' :: tail

section Scan

variable (floatText : F64 → String) (ctx : ExprContext)

/-- A literal is copied. -/
theorem scanTemplate_literal {literal rest : List Char} (h : opensExpr literal = false)
    (hrest : Opens rest) (index : ℕ) :
    scanTemplate floatText ctx none index (literal ++ rest) =
      (scanTemplate floatText ctx none (index + byteLength literal) rest).map
        (String.ofList literal ++ ·) := by
  fun_induction opensExpr literal generalizing index with
  | case1 tail => cases h
  | case2 c tail hopens ih =>
    rw [List.cons_append, scanTemplate, ih h, byteLength_cons, Nat.add_assoc]
    · cases scanTemplate floatText ctx none _ rest with
      | error e => rfl
      | ok out => simp [Except.map, bind, Except.bind, pure, Except.pure, String.ofList_cons,
          String.append_assoc]
    · -- the character opens nothing, also together with what follows the literal
      intro more hc htail
      cases tail with
      | cons next tail' =>
        obtain ⟨rfl, -⟩ := List.cons.inj htail
        exact hopens tail' hc rfl
      | nil =>
        rcases hrest with rfl | ⟨tail', rfl⟩
        · cases htail
        · cases htail
  | case3 =>
    cases hscan : scanTemplate floatText ctx none index rest with
    | error e => simp [hscan, Except.map]
    | ok out => simp [hscan, Except.map]

/-- A name that is closed is resolved. -/
theorem scanTemplate_name {body : List Char} (h : '}' ∉ body) (start : ℕ) (name : List Char)
    (index : ℕ) (rest : List Char) :
    scanTemplate floatText ctx (some (start, name)) index (body ++ '}' :: rest) = (do
      let value ← ctx.resolvePath (segmentsOf (name.reverse ++ body))
      let out ← scanTemplate floatText ctx none (index + byteLength body + 1) rest
      pure (value.display floatText ++ out)) := by
  induction body generalizing name index with
  | nil => simp [scanTemplate]
  | cons c body ih =>
    rw [List.mem_cons, not_or] at h
    rw [List.cons_append, scanTemplate, ih h.2, byteLength_cons, Nat.add_assoc index]
    · simp
    · exact fun hc ↦ absurd hc.symm h.1

/-- A name that is not closed is an error. -/
theorem scanTemplate_unclosed {body : List Char} (h : '}' ∉ body) (start : ℕ) (name : List Char)
    (index : ℕ) :
    scanTemplate floatText ctx (some (start, name)) index body =
      .error (.syntaxError s!"unclosed '$\x7b' expression starting at index {start}") := by
  induction body generalizing name index with
  | nil => rfl
  | cons c body ih =>
    rw [List.mem_cons, not_or] at h
    rw [scanTemplate, ih h.2]
    exact fun hc ↦ absurd hc.symm h.1

variable {floatText ctx}

/-- The scan goes over the part of a template whose names resolve, and on with what follows. -/
theorem scanTemplate_resolved {parts : List TemplatePart} {values : List ExprValue}
    (hvalues : List.Forall₂ (TemplatePart.Resolves ctx) parts values) {first rest : List Char}
    (hfirst : opensExpr first = false) (hrest : Opens rest) (index : ℕ) :
    scanTemplate floatText ctx none index (first ++ partsText parts ++ rest) =
      (scanTemplate floatText ctx none (index + byteLength (first ++ partsText parts)) rest).map
        (String.ofList first ++ filledParts floatText parts values ++ ·) := by
  induction hvalues generalizing first index with
  | nil =>
    rw [partsText, List.flatMap_nil, List.append_nil,
      scanTemplate_literal floatText ctx hfirst hrest]
    simp [filledParts]
  | @cons part value parts values hvalue _ ih =>
    have hsplit : first ++ partsText (part :: parts) ++ rest =
        first ++ '$' :: '{' :: (part.name ++ '}' :: (part.literal ++ partsText parts ++ rest)) := by
      simp [partsText, TemplatePart.text]
    have hlength : index + byteLength (first ++ partsText (part :: parts)) =
        index + byteLength first + 2 + byteLength part.name + 1 +
          byteLength (part.literal ++ partsText parts) := by
      simp [partsText, TemplatePart.text, Char.utf8Size]
      omega
    rw [hsplit, hlength, scanTemplate_literal floatText ctx hfirst (.inr ⟨_, rfl⟩), scanTemplate,
      scanTemplate_name floatText ctx part.closed, List.reverse_nil, List.nil_append,
      show ctx.resolvePath (segmentsOf part.name) = .ok value from hvalue]
    simp only [bind, Except.bind]
    rw [ih part.plain]
    cases scanTemplate floatText ctx none _ rest with
    | error e => rfl
    | ok out => simp [Except.map, filledParts, pure, Except.pure, String.append_assoc]

end Scan

/-- Interpolation puts the texts of the values in the places of the placeholders. It fails as the
first name that does not resolve, and with a syntax error if all do up to a bracket that is never
closed. -/
theorem interpolate_substitutes (floatText : F64 → String) (ctx : ExprContext)
    (template : Template) :
    (∀ values, List.Forall₂ (TemplatePart.Resolves ctx) template.parts values →
      interpolateString floatText ctx (String.ofList template.text) =
        .ok (String.ofList template.first ++ filledParts floatText template.parts values)) ∧
    (∀ before part after values e, template.parts = before ++ part :: after →
      List.Forall₂ (TemplatePart.Resolves ctx) before values →
      ctx.resolvePath (segmentsOf part.name) = .error e →
      interpolateString floatText ctx (String.ofList template.text) = .error e) ∧
    (∀ name values, '}' ∉ name →
      List.Forall₂ (TemplatePart.Resolves ctx) template.parts values →
      interpolateString floatText ctx (String.ofList (template.text ++ '$' :: '{' :: name)) =
        .error (.syntaxError
          s!"unclosed '$\x7b' expression starting at index {byteLength template.text + 2}")) := by
  refine ⟨fun values hvalues ↦ ?_, fun before part after values e hparts hvalues he ↦ ?_,
    fun name values hname hvalues ↦ ?_⟩
  · rw [interpolateString, String.toList_ofList, Template.text,
      ← List.append_nil (template.first ++ partsText template.parts),
      scanTemplate_resolved hvalues template.plain (.inl rfl), scanTemplate]
    simp [Except.map]
  · have hsplit : template.text = template.first ++ partsText before ++
        '$' :: '{' :: (part.name ++ '}' :: (part.literal ++ partsText after)) := by
      simp [Template.text, hparts, partsText, TemplatePart.text]
    rw [interpolateString, String.toList_ofList, hsplit,
      scanTemplate_resolved hvalues template.plain (.inr ⟨_, rfl⟩), scanTemplate,
      scanTemplate_name floatText ctx part.closed, List.reverse_nil, List.nil_append, he]
    rfl
  · rw [interpolateString, String.toList_ofList, Template.text,
      scanTemplate_resolved hvalues template.plain (.inr ⟨_, rfl⟩), scanTemplate,
      scanTemplate_unclosed floatText ctx hname, Nat.zero_add]
    rfl

end Runvane.Engine
