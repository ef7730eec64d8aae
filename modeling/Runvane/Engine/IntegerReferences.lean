import Runvane.Engine.ExactReference

/-!
# References to integers

The output of a task is a document, and a reference to it turns the document into a value of the
expression language and back. Numbers are 64-bit floats on the way. An integer comes back with its
value if it has at most 53 significant bits (`ExactInt`), and with another value otherwise;
everything else in the document comes back as it was. The reference reads the right output if the
name of the task has no dot in it, which would end the segment, and no opening bracket, which would
make the string a text (`preserved_iff`).
-/

set_option autoImplicit false

namespace Runvane.Engine

open Domain

/-! ### Integers as floats -/

/-- At most 53 significant bits. -/
def ExactInt (n : ℤ) : Prop := ∃ m k : ℕ, n.natAbs = m * 2 ^ k ∧ m < 2 ^ 53

theorem roundToF64_eq_self_iff_dvd (n : ℕ) :
    roundToF64 n = n ↔ 2 ^ (n.log2 + 1 - 53) ∣ n := by
  unfold roundToF64
  simp only
  set unit := 2 ^ (n.log2 + 1 - 53)
  have hpos : 0 < unit := by positivity
  constructor
  · intro h
    split_ifs at h
    · exact ⟨n / unit + 1, by rw [mul_comm]; exact h.symm⟩
    · exact ⟨n / unit, by rw [mul_comm]; exact h.symm⟩
  · intro h
    have hrest : n % unit = 0 := Nat.mod_eq_zero_of_dvd h
    rw [hrest, if_neg (by omega)]
    exact Nat.div_mul_cancel h

/-- Rounding leaves a number as it is exactly if it has at most 53 significant bits. -/
theorem roundToF64_eq_self_iff (n : ℕ) :
    roundToF64 n = n ↔ ∃ m k : ℕ, n = m * 2 ^ k ∧ m < 2 ^ 53 := by
  rw [roundToF64_eq_self_iff_dvd]
  constructor
  · rintro ⟨m, hm⟩
    refine ⟨m, n.log2 + 1 - 53, by rw [mul_comm]; exact hm, ?_⟩
    by_contra hlarge
    have hlt : n < 2 ^ (n.log2 + 1) := Nat.lt_log2_self
    have hle : 2 ^ (n.log2 + 1) ≤ 2 ^ (n.log2 + 1 - 53) * 2 ^ 53 := by
      rw [← pow_add]
      exact Nat.pow_le_pow_right (by norm_num) (by omega)
    have hge : 2 ^ (n.log2 + 1 - 53) * 2 ^ 53 ≤ 2 ^ (n.log2 + 1 - 53) * m :=
      Nat.mul_le_mul_left _ (not_lt.mp hlarge)
    omega
  · rintro ⟨m, k, rfl, hm⟩
    rcases Nat.eq_zero_or_pos m with rfl | hpos
    · simp
    · refine Dvd.dvd.mul_left (Nat.pow_dvd_pow 2 ?_) m
      have hlt : m * 2 ^ k < 2 ^ (53 + k) := by
        rw [pow_add]
        exact Nat.mul_lt_mul_of_pos_right hm (by positivity)
      have hlog : (m * 2 ^ k).log2 < 53 + k := (Nat.log2_lt (by positivity)).mpr hlt
      omega

/-- An integer becomes the float of its value exactly if it has at most 53 significant bits. -/
theorem f64OfInt_eq_iff (n : ℤ) : f64OfInt n = .finite n ↔ ExactInt n := by
  rw [ExactInt, ← roundToF64_eq_self_iff, f64OfInt, F64.finite.injEq]
  constructor
  · intro h
    have hint : n.sign * (roundToF64 n.natAbs : ℤ) = n := by exact_mod_cast h
    rcases eq_or_ne n 0 with rfl | hne
    · rfl
    · have habs := congrArg Int.natAbs hint
      rwa [Int.natAbs_mul, Int.natAbs_sign_of_ne_zero hne, one_mul, Int.natAbs_natCast] at habs
  · intro h
    rw [h]
    have hint : n.sign * (n.natAbs : ℤ) = n := Int.sign_mul_natAbs n
    rw [← Int.cast_natCast n.natAbs, ← Int.cast_mul, hint]

/-! ### Documents of the same value -/

def numericValue : JsonNumber → Option ℚ
  | .int value => some value
  | .float (.finite value) => some value
  | .float _ => none

mutual

/-- The documents are the same up to how their numbers are written. -/
def SameValue : Json → Json → Prop
  | .null, .null => True
  | .bool a, .bool b => a = b
  | .number a, .number b => numericValue a = numericValue b
  | .string a, .string b => a = b
  | .array a, .array b => SameItems a b
  | .object a, .object b => SameFields a b
  | _, _ => False

def SameItems : List Json → List Json → Prop
  | [], [] => True
  | a :: as, b :: bs => SameValue a b ∧ SameItems as bs
  | _, _ => False

def SameFields : List (String × Json) → List (String × Json) → Prop
  | [], [] => True
  | (key, a) :: as, (key', b) :: bs => key = key' ∧ SameValue a b ∧ SameFields as bs
  | _, _ => False

end

mutual

/-- The condition holds of every number of the document, and none of them is a float. -/
def Integers (holds : ℤ → Prop) : Json → Prop
  | .number (.int n) => holds n
  | .number (.float _) => False
  | .array items => ItemIntegers holds items
  | .object fields => FieldIntegers holds fields
  | _ => True

def ItemIntegers (holds : ℤ → Prop) : List Json → Prop
  | [] => True
  | item :: items => Integers holds item ∧ ItemIntegers holds items

def FieldIntegers (holds : ℤ → Prop) : List (String × Json) → Prop
  | [] => True
  | (_, value) :: fields => Integers holds value ∧ FieldIntegers holds fields

end

mutual

/-- A document without floats comes back with its value exactly if all its integers do. -/
theorem sameValue_toJson_ofJson : (v : Json) → Integers (fun _ ↦ True) v →
    (SameValue v (ExprValue.ofJson v).toJson ↔ Integers ExactInt v)
  | .null, _ | .bool _, _ | .string _, _ => by
    simp [ExprValue.ofJson, ExprValue.toJson, SameValue, Integers]
  | .number (.int n), _ => by
    simp only [ExprValue.ofJson, asF64, ExprValue.toJson, Integers, ← f64OfInt_eq_iff]
    rw [f64OfInt, jsonOfF64, F64.isFinite, if_pos rfl, SameValue, numericValue, numericValue,
      Option.some.injEq, F64.finite.injEq, eq_comm]
  | .number (.float _), h => h.elim
  | .array items, h => by
    simp only [ExprValue.ofJson, ExprValue.toJson, SameValue, Integers]
    exact sameItems_itemsOfValues items h
  | .object fields, h => by
    simp only [ExprValue.ofJson, ExprValue.toJson, SameValue, Integers]
    exact sameFields_fieldsOfValues fields h

theorem sameItems_itemsOfValues : (items : List Json) → ItemIntegers (fun _ ↦ True) items →
    (SameItems items (itemsOfValues (valuesOfItems items)) ↔ ItemIntegers ExactInt items)
  | [], _ => by simp [valuesOfItems, itemsOfValues, SameItems, ItemIntegers]
  | item :: items, h => by
    rw [valuesOfItems, itemsOfValues, SameItems, ItemIntegers, sameValue_toJson_ofJson item h.1,
      sameItems_itemsOfValues items h.2]

theorem sameFields_fieldsOfValues : (fields : List (String × Json)) →
    FieldIntegers (fun _ ↦ True) fields →
    (SameFields fields (fieldsOfValues (valuesOfFields fields)) ↔ FieldIntegers ExactInt fields)
  | [], _ => by simp [valuesOfFields, fieldsOfValues, SameFields, FieldIntegers]
  | (key, value) :: fields, h => by
    rw [valuesOfFields, fieldsOfValues, SameFields, FieldIntegers,
      sameValue_toJson_ofJson value h.1,
      sameFields_fieldsOfValues fields h.2]
    exact and_iff_right rfl

end

/-! ### The path of a reference -/

theorem splitDots_append_cons {piece : List Char} (h : '.' ∉ piece) (rest : List Char) :
    splitDots (piece ++ '.' :: rest) = piece :: splitDots rest := by
  induction piece with
  | nil => rfl
  | cons c piece ih =>
    rw [List.mem_cons, not_or] at h
    rw [List.cons_append, splitDots, ih h.2]
    exact fun hc ↦ absurd hc.symm h.1

theorem splitDots_of_notMem {piece : List Char} (h : '.' ∉ piece) : splitDots piece = [piece] := by
  induction piece with
  | nil => rfl
  | cons c piece ih =>
    rw [List.mem_cons, not_or] at h
    rw [splitDots, ih h.2]
    exact fun hc ↦ absurd hc.symm h.1

/-- The first segment of a text has no dot, and only characters of the text. -/
theorem exists_first_segment (chars : List Char) :
    ∃ segment segments, splitDots chars = segment :: segments ∧ '.' ∉ segment ∧
      segment ⊆ chars := by
  by_cases hdot : '.' ∈ chars
  · obtain ⟨piece, rest, rfl, hpiece⟩ := List.eq_append_cons_of_mem hdot
    exact ⟨piece, _, splitDots_append_cons hpiece rest, hpiece, List.subset_append_left _ _⟩
  · exact ⟨chars, [], splitDots_of_notMem hdot, hdot, fun _ hc ↦ hc⟩

/-- Nothing is trimmed before a character that is no white space, if the text begins with one. -/
theorem exists_trim_append {first last : Char} (hfirst : isWhitespace first = false)
    (hlast : isWhitespace last = false) (middle rest : List Char) :
    ∃ kept, kept ⊆ rest ∧
      trim (first :: (middle ++ last :: rest)) = first :: (middle ++ last :: kept) := by
  refine ⟨(rest.reverse.dropWhile isWhitespace).reverse, ?_, ?_⟩
  · intro c hc
    rw [List.mem_reverse] at hc
    exact List.mem_reverse.mp ((List.dropWhile_suffix _).subset hc)
  · have hflip : (first :: (middle ++ last :: rest)).reverse =
        rest.reverse ++ last :: (middle.reverse ++ [first]) := by simp
    rw [trim, List.dropWhile_cons_of_neg (by simp [hfirst]), hflip,
      dropWhile_append_cons hlast]
    simp

/-- The segments of a name that begins with `tasks` and a dot. -/
theorem exists_segmentsOf_tasks (rest : List Char) :
    ∃ segment segments, segmentsOf ("tasks.".toList ++ rest) =
        "tasks" :: String.ofList segment :: segments ∧ '.' ∉ segment ∧ segment ⊆ rest := by
  have ht : isWhitespace 't' = false := by decide
  have hdot : isWhitespace '.' = false := by decide
  obtain ⟨kept, hkept, htrim⟩ := exists_trim_append ht hdot "asks".toList rest
  obtain ⟨segment, segments, hsplit, hsegment, hsub⟩ := exists_first_segment kept
  have hname : trim ("tasks.".toList ++ rest) = "tasks".toList ++ '.' :: kept := htrim
  refine ⟨segment, segments.map String.ofList, ?_, hsegment, fun c hc ↦ hkept (hsub hc)⟩
  rw [segmentsOf, hname, splitDots_append_cons (by decide), hsplit]
  rfl

/-! ### References -/

def outputReference (task : String) : String := s!"$\x7btasks.{task}.output\x7d"

def outputName (task : String) : List Char :=
  "tasks.".toList ++ (task.toList ++ ".output".toList)

theorem toList_outputReference (task : String) :
    (outputReference task).toList = '$' :: '{' :: (outputName task ++ ['}']) := by
  unfold outputReference outputName
  simp [toString]

theorem trim_outputReference (task : String) :
    trim (outputReference task).toList = '$' :: '{' :: (outputName task ++ ['}']) := by
  rw [toList_outputReference, ← List.cons_append]
  exact trim_eq_self (by decide) (by decide)

/-- The name opens a bracket if the task's does. -/
theorem opensExpr_outputName (task : String) :
    opensExpr (outputName task) = opensExpr task.toList := by
  have hsplit :
      outputName task = "tasks".toList ++ '.' :: (task.toList ++ '.' :: "output".toList) :=
    rfl
  have hdot : ∀ rest, opensExpr ('.' :: rest) = opensExpr rest := by
    intro rest
    rw [opensExpr]
    exact fun _ hdollar ↦ absurd hdollar (by decide)
  rw [hsplit, opensExpr_append_cons (by decide), hdot, opensExpr_append_cons (by decide), hdot]
  simp [opensExpr]

theorem segmentsOf_outputName {task : String} (h : '.' ∉ task.toList) :
    segmentsOf (outputName task) = ["tasks", task, "output"] := by
  have htrim : trim (outputName task) = outputName task := by
    have hsplit : outputName task =
        't' :: (("asks.".toList ++ (task.toList ++ ".outpu".toList)) ++ ['t']) := by
      unfold outputName
      simp
    rw [hsplit]
    exact trim_eq_self (by decide) (by decide)
  have hsplit :
      outputName task = "tasks".toList ++ '.' :: (task.toList ++ '.' :: "output".toList) :=
    rfl
  rw [segmentsOf, htrim, hsplit, splitDots_append_cons (by decide), splitDots_append_cons h,
    splitDots_of_notMem (by decide)]
  simp

/-- A reference to the output of a task gives a document with its value, in every context that has
it. -/
def Preserved (floatText : F64 → String) (task : String) (v : Json) : Prop :=
  ∀ ctx : ExprContext, ctx.taskOutputs[task]? = some v →
    ∃ result, interpolateJson floatText ctx (.string (outputReference task)) = .ok result ∧
      SameValue v result

/-- The name of the task has no dot in it. It opens no bracket, and the integers of the output have
at most 53 significant bits; or it opens a bracket and closes none, and the output is a string. -/
def Referable (task : String) (v : Json) : Prop :=
  '.' ∉ task.toList ∧
    (opensExpr task.toList = false ∧ Integers ExactInt v ∨
      opensExpr task.toList = true ∧ '}' ∉ task.toList ∧ ∃ text, v = .string text)

def onlyTask (task : String) (v : Json) : ExprContext where
  runInput := .null
  taskOutputs := (∅ : NameMap Json).insert task v
  metadata := ∅

theorem taskOutputs_onlyTask (task : String) (v : Json) :
    (onlyTask task v).taskOutputs[task]? = some v := by
  simp [onlyTask]

section References

variable (floatText : F64 → String) {ctx : ExprContext} {task : String} {v : Json}

theorem resolvePath_output (h : '.' ∉ task.toList) (hv : ctx.taskOutputs[task]? = some v) :
    ctx.resolvePath (segmentsOf (outputName task)) = .ok (.ofJson v) := by
  rw [segmentsOf_outputName h]
  simp [ExprContext.resolvePath, ExprContext.resolveTask, hv, descend]

/-- Without a bracket in the name of the task the reference is one exact expression. -/
theorem exactExpr_outputReference (hopens : opensExpr task.toList = false) :
    exactExpr (outputReference task).toList = some (outputName task) :=
  exactExpr_eq_some_iff.mpr ⟨trim_outputReference task, by rw [opensExpr_outputName, hopens]⟩

/-- With an opening bracket in the name of the task it is not. -/
theorem exactExpr_outputReference_none (hopens : opensExpr task.toList = true) :
    exactExpr (outputReference task).toList = none :=
  exactExpr_eq_none_of_opens (trim_outputReference task) (by rw [opensExpr_outputName, hopens])

/-- Without a bracket in the name of the task the reference is to the output itself. -/
theorem interpolate_output (h : '.' ∉ task.toList) (hopens : opensExpr task.toList = false)
    (hv : ctx.taskOutputs[task]? = some v) :
    interpolateJson floatText ctx (.string (outputReference task)) =
      .ok (ExprValue.ofJson v).toJson := by
  rw [interpolateJson_of_exact floatText ctx (exactExpr_outputReference hopens),
    resolvePath_output h hv]
  rfl

/-- With an opening bracket in the name of the task the reference is to the text of the output. -/
theorem interpolate_output_text (h : '.' ∉ task.toList) (hopens : opensExpr task.toList = true)
    (hclose : '}' ∉ task.toList) (hv : ctx.taskOutputs[task]? = some v) :
    interpolateJson floatText ctx (.string (outputReference task)) =
      .ok (.string ((ExprValue.ofJson v).display floatText)) := by
  have hnot := exactExpr_outputReference_none hopens
  have hname : '}' ∉ outputName task := by
    unfold outputName
    simp [hclose]
  rw [interpolateJson_of_not_exact floatText ctx hnot, interpolateString, toList_outputReference,
    scanTemplate, scanTemplate_name floatText ctx hname, List.reverse_nil, List.nil_append,
    resolvePath_output h hv, scanTemplate]
  simp [bind, Except.bind, Except.map, pure, Except.pure]

/-- A name does not resolve if there is only one task, and the segment for the task has not all of
its characters. -/
theorem resolvePath_other {c : Char} (hc : c ∈ task.toList) {rest : List Char}
    (hrest : c = '.' ∨ c ∉ rest) :
    ∃ e, (onlyTask task v).resolvePath (segmentsOf ("tasks.".toList ++ rest)) = .error e := by
  obtain ⟨segment, segments, hsegments, hdot, hsub⟩ := exists_segmentsOf_tasks rest
  have hne : String.ofList segment ≠ task := by
    rintro rfl
    rw [String.toList_ofList] at hc
    rcases hrest with rfl | hnot
    · exact hdot hc
    · exact hnot (hsub hc)
  have hnone : (onlyTask task v).taskOutputs[String.ofList segment]? = none := by
    simp [onlyTask, Ne.symm hne]
  rw [hsegments]
  simp [ExprContext.resolvePath, ExprContext.resolveTask, hnone]

/-- With a dot in the name of the task, or with both brackets, the reference is to another task. -/
theorem interpolate_other (h : '.' ∈ task.toList ∨
      opensExpr task.toList = true ∧ '}' ∈ task.toList) :
    ∃ e, interpolateJson floatText (onlyTask task v) (.string (outputReference task)) =
      .error e := by
  cases hopens : opensExpr task.toList with
  | false =>
    have hdot : '.' ∈ task.toList := h.resolve_right fun hboth ↦ by simp [hopens] at hboth
    have hexact := exactExpr_outputReference hopens
    obtain ⟨e, he⟩ : ∃ e, (onlyTask task v).resolvePath (segmentsOf (outputName task)) = .error e :=
      resolvePath_other hdot (.inl rfl)
    refine ⟨e, ?_⟩
    rw [interpolateJson_of_exact floatText _ hexact, he]
    rfl
  | true =>
    have hnot := exactExpr_outputReference_none hopens
    -- the name ends at the first closing bracket, which may be one of the task's
    obtain ⟨name, rest, hsplit, hname⟩ : ∃ name rest,
        task.toList ++ ".output".toList ++ ['}'] = name ++ '}' :: rest ∧ '}' ∉ name :=
      List.eq_append_cons_of_mem (by simp)
    have htrim : trim (outputReference task).toList =
        '$' :: '{' :: (("tasks.".toList ++ name) ++ '}' :: rest) := by
      rw [trim_outputReference]
      unfold outputName
      rw [List.append_assoc, hsplit, List.append_assoc]
    have hclosed : '}' ∉ "tasks.".toList ++ name := by simp [hname]
    obtain ⟨e, he⟩ : ∃ e, (onlyTask task v).resolvePath (segmentsOf ("tasks.".toList ++ name)) =
        .error e := by
      rcases h with hdot | ⟨-, hclose⟩
      · exact resolvePath_other hdot (.inl rfl)
      · exact resolvePath_other hclose (.inr hname)
    refine ⟨e, ?_⟩
    rw [interpolateJson_of_not_exact floatText _ hnot,
      interpolateString_eq_error floatText htrim hclosed he]
    rfl

end References

theorem preserved_of_referable (floatText : F64 → String) {task : String} {v : Json}
    (hv : Integers (fun _ ↦ True) v) (h : Referable task v) : Preserved floatText task v := by
  intro ctx hctx
  obtain ⟨hdot, ⟨hopens, hexact⟩ | ⟨hopens, hclose, text, rfl⟩⟩ := h
  · exact ⟨_, interpolate_output floatText hdot hopens hctx,
      (sameValue_toJson_ofJson v hv).mpr hexact⟩
  · exact ⟨_, interpolate_output_text floatText hdot hopens hclose hctx, rfl⟩

/-- A reference to an output without floats gives its value, in every context that has it, exactly
if the output can be referred to in this way. -/
theorem preserved_iff (floatText : F64 → String) (task : String) {v : Json}
    (hv : Integers (fun _ ↦ True) v) : Preserved floatText task v ↔ Referable task v := by
  refine ⟨fun h ↦ ?_, preserved_of_referable floatText hv⟩
  obtain ⟨result, hresult, hsame⟩ := h (onlyTask task v) (taskOutputs_onlyTask task v)
  have hreads : ¬ ('.' ∈ task.toList ∨ opensExpr task.toList = true ∧ '}' ∈ task.toList) := by
    intro hother
    obtain ⟨e, he⟩ := interpolate_other floatText (v := v) hother
    cases he.symm.trans hresult
  rw [not_or] at hreads
  refine ⟨hreads.1, ?_⟩
  cases hopens : opensExpr task.toList with
  | false =>
    rw [interpolate_output floatText hreads.1 hopens (taskOutputs_onlyTask task v)] at hresult
    obtain rfl := Except.ok.inj hresult
    exact .inl ⟨rfl, (sameValue_toJson_ofJson v hv).mp hsame⟩
  | true =>
    have hclose : '}' ∉ task.toList := fun hmem ↦ hreads.2 ⟨hopens, hmem⟩
    rw [interpolate_output_text floatText hreads.1 hopens hclose
      (taskOutputs_onlyTask task v)] at hresult
    obtain rfl := Except.ok.inj hresult
    refine .inr ⟨rfl, hclose, ?_⟩
    cases v with
    | string text => exact ⟨text, rfl⟩
    | null | bool | number | array | object => simp [SameValue] at hsame

/-- Two integers that are floats: a small one, and the least of 64 bits. -/
theorem preserved_small :
    Preserved (fun _ ↦ "") "a" (.array [.number (.int 5), .number (.int (-2 ^ 63))]) := by
  refine (preserved_iff _ _ ?_).mpr ⟨by decide, .inl ⟨by decide, ?_, ?_, trivial⟩⟩
  · exact ⟨trivial, trivial, trivial⟩
  · exact ⟨5, 0, by decide, by decide⟩
  · exact ⟨1, 63, by decide, by decide⟩

/-- The least integer that is no float comes back as its neighbour. -/
theorem not_preserved_next : ¬ Preserved (fun _ ↦ "") "a" (.number (.int (2 ^ 53 + 1))) := by
  intro h
  obtain ⟨result, hresult, hsame⟩ := h (onlyTask "a" _) (taskOutputs_onlyTask "a" _)
  rw [interpolate_output _ (by decide) (by decide) (taskOutputs_onlyTask "a" _)] at hresult
  obtain rfl := Except.ok.inj hresult
  have hexact : ExactInt (2 ^ 53 + 1) :=
    (sameValue_toJson_ofJson (.number (.int (2 ^ 53 + 1))) trivial).mp hsame
  rw [← f64OfInt_eq_iff] at hexact
  revert hexact
  decide +kernel

end Runvane.Engine
