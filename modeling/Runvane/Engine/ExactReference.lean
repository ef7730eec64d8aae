import Runvane.Engine.Substitution

/-!
# Strings that are a single placeholder

A string that is a single placeholder stands for the value its name resolves to, and not for a text.
`interpolate_json` recognises it by how it begins and ends and by the absence of a second opening
bracket. That is not the same: a text that begins with one placeholder and ends with a bracket of
its own is taken for a placeholder, and one with an opening bracket in its name is not. The mode is
right on exactly the other strings (`exactOnly_iff`).

For the strings that are misread the two modes are told apart by a context in which all values are
null, and by the names that their errors mention.
-/

set_option autoImplicit false

namespace Runvane.Engine

open Domain

/-! ### The mode -/

/-- A string that is a single placeholder, white space aside, stands for the value its name resolves
to, and every other string for the text that interpolation makes of it. -/
def ExactOnly (floatText : F64 → String) (ctx : ExprContext) (s : String) : Prop :=
  (∀ name, '}' ∉ name → trim s.toList = '$' :: '{' :: (name ++ ['}']) →
    interpolateJson floatText ctx (.string s) =
      (ctx.resolvePath (segmentsOf name)).map ExprValue.toJson) ∧
  ((∀ name, '}' ∉ name → trim s.toList ≠ '$' :: '{' :: (name ++ ['}'])) →
    interpolateJson floatText ctx (.string s) = (interpolateString floatText ctx s).map Json.string)

/-- If a string begins and ends as a placeholder does, then what stands in between holds a closing
bracket only if it holds an opening one, and if it holds only opening ones then it resolves in no
context. -/
def Unambiguous (s : String) : Prop :=
  ∀ inner, trim s.toList = '$' :: '{' :: (inner ++ ['}']) →
    (opensExpr inner = false → '}' ∉ inner) ∧
    (opensExpr inner = true → '}' ∉ inner →
      ¬ ∃ (ctx : ExprContext) (value : ExprValue), ctx.resolvePath (segmentsOf inner) = .ok value)

variable {chars : List Char}

theorem exactExpr_eq_some_iff {inner : List Char} :
    exactExpr chars = some inner ↔
      trim chars = '$' :: '{' :: (inner ++ ['}']) ∧ opensExpr inner = false := by
  unfold exactExpr
  split
  · next rest htrim =>
    rw [htrim]
    constructor
    · intro h
      split_ifs at h with hlast
      obtain rfl := Option.some.inj h
      refine ⟨?_, hlast.2⟩
      rw [List.dropLast_append_getLast? '}' hlast.1]
    · rintro ⟨heq, hopens⟩
      obtain rfl : rest = inner ++ ['}'] := by simpa using heq
      simp [hopens]
  · next hno =>
    refine iff_of_false (by simp) ?_
    rintro ⟨heq, -⟩
    exact hno _ heq

theorem inner_unique {inner inner' : List Char} (h : trim chars = '$' :: '{' :: (inner ++ ['}']))
    (h' : trim chars = '$' :: '{' :: (inner' ++ ['}'])) : inner = inner' := by
  simpa using h.symm.trans h'

theorem exactExpr_eq_none_of_opens {inner : List Char}
    (htrim : trim chars = '$' :: '{' :: (inner ++ ['}'])) (hopens : opensExpr inner = true) :
    exactExpr chars = none := by
  rw [Option.eq_none_iff_forall_ne_some]
  intro other hother
  obtain ⟨hform, hplain⟩ := exactExpr_eq_some_iff.mp hother
  rw [inner_unique hform htrim, hopens] at hplain
  cases hplain

section ExactOnly

variable (floatText : F64 → String) (ctx : ExprContext) {s : String} {inner : List Char}

theorem interpolateJson_of_exact (h : exactExpr s.toList = some inner) :
    interpolateJson floatText ctx (.string s) =
      (ctx.resolvePath (segmentsOf inner)).map ExprValue.toJson := by
  rw [interpolateJson, interpolateText, h]
  dsimp only
  cases ctx.resolvePath (segmentsOf inner) <;> rfl

theorem interpolateJson_of_not_exact (h : exactExpr s.toList = none) :
    interpolateJson floatText ctx (.string s) =
      (interpolateString floatText ctx s).map Json.string := by
  rw [interpolateJson, interpolateText, h]
  dsimp only
  cases interpolateString floatText ctx s <;> rfl

end ExactOnly

/-! ### Names in error messages -/

theorem opensExpr_of_notMem (h : '$' ∉ chars) : opensExpr chars = false := by
  rw [← Bool.not_eq_true, opensExpr_iff]
  intro hopens
  exact h (hopens.subset List.mem_cons_self)

/-- A text is its trimmed text with white space around it. -/
theorem exists_trim (chars : List Char) :
    ∃ before after, chars = before ++ trim chars ++ after ∧
      (∀ c ∈ before, isWhitespace c = true) ∧ ∀ c ∈ after, isWhitespace c = true := by
  refine ⟨chars.takeWhile isWhitespace,
    ((chars.dropWhile isWhitespace).reverse.takeWhile isWhitespace).reverse, ?_, ?_, ?_⟩
  · rw [trim, List.append_assoc, ← List.reverse_append, List.takeWhile_append_dropWhile,
      List.reverse_reverse, List.takeWhile_append_dropWhile]
  · exact fun c hc ↦ List.mem_takeWhile_imp hc
  · intro c hc
    rw [List.mem_reverse] at hc
    exact List.mem_takeWhile_imp hc

theorem mem_trim {c : Char} (hc : c ∈ chars) (hspace : isWhitespace c = false) :
    c ∈ trim chars := by
  obtain ⟨before, after, hsplit, hbefore, hafter⟩ := exists_trim chars
  rw [hsplit, List.mem_append, List.mem_append] at hc
  rcases hc with (hc | hc) | hc
  · rw [hbefore c hc] at hspace
    cases hspace
  · exact hc
  · rw [hafter c hc] at hspace
    cases hspace

/-- White space opens nothing. -/
theorem opensExpr_of_whitespace (h : ∀ c ∈ chars, isWhitespace c = true) :
    opensExpr chars = false := by
  refine opensExpr_of_notMem fun hmem ↦ ?_
  have hdollar := h '$' hmem
  revert hdollar
  decide

/-- A character that is not the second one of an opening bracket separates. -/
theorem opensExpr_append_cons {c : Char} (hc : c ≠ '{') (left right : List Char) :
    opensExpr (left ++ c :: right) = (opensExpr left || opensExpr (c :: right)) := by
  fun_induction opensExpr left with
  | case1 rest => rfl
  | case2 d rest hopens ih =>
    rw [List.cons_append, opensExpr, ih]
    intro more hd hrest
    cases rest with
    | nil => exact hc (List.cons.inj hrest).1
    | cons next rest =>
      obtain ⟨rfl, -⟩ := List.cons.inj hrest
      exact hopens rest hd rfl
  | case3 => rfl

theorem splitDots_ne_nil (chars : List Char) : splitDots chars ≠ [] := by
  fun_induction splitDots chars <;> simp

/-- The segments of a name make up the name. -/
theorem intercalate_splitDots (chars : List Char) :
    ".".intercalate ((splitDots chars).map String.ofList) = String.ofList chars := by
  fun_induction splitDots chars with
  | case1 => rfl
  | case2 rest ih =>
    rw [List.map_cons, String.intercalate_cons_of_ne_nil, ih, String.ofList_cons]
    · rfl
    · simpa using splitDots_ne_nil rest
  | case3 c rest _ hrest => exact absurd hrest (splitDots_ne_nil rest)
  | case4 c rest _ piece pieces hrest ih =>
    rw [List.map_cons, String.ofList_cons, String.intercalate_cons_append, ← List.map_cons, ← hrest,
      ih, String.ofList_cons]

/-- Resolution fails because a path is not complete, or names a path that is not there. -/
theorem resolvePath_eq_error {ctx : ExprContext} {root full : String} {segments : List String}
    {e : ExprError} (hfull : ".".intercalate (root :: segments) = full)
    (h : ctx.resolvePath (root :: segments) = .error e) :
    (e = .syntaxError "incomplete tasks path" ∧ root = "tasks" ∧ segments = []) ∨
    ∃ text, e = .undefinedVariable text ∧
      (text = full ∨ text = s!"unknown root domain '{root}' in '{full}'") := by
  subst hfull
  simp only [ExprContext.resolvePath] at h
  split_ifs at h with hrun htasks hmeta
  · right
    cases segments with
    | nil => exact ⟨_, (Except.error.inj h).symm, .inl rfl⟩
    | cons field segments =>
      simp only [ExprContext.resolveRun] at h
      split_ifs at h
      exact ⟨_, (Except.error.inj h).symm, .inl rfl⟩
  · cases segments with
    | nil => exact .inl ⟨(Except.error.inj h).symm, htasks, rfl⟩
    | cons name rest =>
      right
      simp only [ExprContext.resolveTask] at h
      split at h
      · exact ⟨_, (Except.error.inj h).symm, .inl rfl⟩
      · cases rest <;> cases h
  · right
    unfold ExprContext.resolveMeta at h
    split at h
    · split at h <;> cases h
    · exact ⟨_, (Except.error.inj h).symm, .inl rfl⟩
  · exact .inr ⟨_, (Except.error.inj h).symm, .inr rfl⟩

/-- The error for a name holds a closing bracket exactly if the name does. -/
theorem close_mem_error_iff {ctx : ExprContext} {name : List Char} {e : ExprError}
    (h : ctx.resolvePath (segmentsOf name) = .error e) :
    '}' ∈ trim name ↔ ∃ text, e = .undefinedVariable text ∧ '}' ∈ text.toList := by
  obtain ⟨root, segments, hsegments⟩ := List.exists_cons_of_ne_nil (splitDots_ne_nil (trim name))
  have hfull := intercalate_splitDots (trim name)
  rw [hsegments, List.map_cons] at hfull
  rw [segmentsOf, hsegments, List.map_cons] at h
  rcases resolvePath_eq_error hfull h with ⟨rfl, hroot, hnil⟩ | ⟨text, rfl, htext⟩
  · rw [hroot, hnil] at hfull
    have hname : trim name = "tasks".toList := by
      rw [← String.toList_ofList (l := trim name), ← hfull]
      rfl
    simp [hname]
  · simp only [ExprError.undefinedVariable.injEq, exists_eq_left']
    rcases htext with rfl | rfl
    · rw [String.toList_ofList]
    · -- the root of the path is a part of the name, and the words around have no brackets
      have hroot : '}' ∈ root → '}' ∈ trim name := by
        intro hmem
        rw [← String.toList_ofList (l := trim name), ← hfull]
        cases segments with
        | nil => simpa using hmem
        | cons segment segments => simp [hmem]
      simpa [toString] using hroot

/-! ### When the mode is right -/

/-- A context in which everything that resolves is null: one task has no output to speak of. -/
def nullContext (task : String) : ExprContext where
  runInput := .null
  taskOutputs := (∅ : NameMap Json).insert task .null
  metadata := ∅

theorem descend_null (segments : List String) : descend .null segments = .null := by
  cases segments <;> rfl

theorem eq_null_of_resolves {task : String} {path : List String} {value : ExprValue}
    (h : (nullContext task).resolvePath path = .ok value) : value = .null := by
  cases path with
  | nil => cases h
  | cons root segments =>
    simp only [ExprContext.resolvePath] at h
    split_ifs at h
    · unfold ExprContext.resolveRun at h
      split at h
      · cases h
      · split_ifs at h
        rw [← Except.ok.inj h]
        exact descend_null _
    · unfold ExprContext.resolveTask at h
      split at h
      · cases h
      · next name rest =>
        have houtput : ∀ output, (nullContext task).taskOutputs[name]? = some output →
            output = .null := by
          intro output houtput
          simp only [nullContext, Std.ExtTreeMap.getElem?_insert] at houtput
          split_ifs at houtput
          · exact (Option.some.inj houtput).symm
          · simp at houtput
        split at h
        · cases h
        · next output hfound =>
          rw [houtput output hfound] at h
          cases rest with
          | nil => exact (Except.ok.inj h).symm
          | cons field segments =>
            rw [← Except.ok.inj h]
            exact descend_null _
    · unfold ExprContext.resolveMeta at h
      split at h
      · next key =>
        have hnone : (nullContext task).metadata[key]? = none := by simp [nullContext]
        rw [hnone] at h
        exact (Except.ok.inj h).symm
      · cases h

/-- A path that resolves in some context resolves in one in which it is null. -/
theorem exists_resolves_null {ctx : ExprContext} {path : List String} {value : ExprValue}
    (h : ctx.resolvePath path = .ok value) :
    ∃ task, (nullContext task).resolvePath path = .ok .null := by
  have hsome : ∃ task value, (nullContext task).resolvePath path = .ok value := by
    cases path with
    | nil => cases h
    | cons root segments =>
      simp only [ExprContext.resolvePath] at h ⊢
      split_ifs at h ⊢
      · unfold ExprContext.resolveRun at h ⊢
        split at h
        · cases h
        · next field segments =>
          split_ifs at h with hfield
          exact ⟨"", descend .null segments, by simp only [hfield, if_true, nullContext]⟩
      · unfold ExprContext.resolveTask at h ⊢
        split at h
        · cases h
        · next name rest =>
          refine ⟨name, ?_⟩
          have hfound : (nullContext name).taskOutputs[name]? = some .null := by
            simp [nullContext]
          simp only [hfound]
          cases rest with
          | nil => exact ⟨_, rfl⟩
          | cons field segments => exact ⟨_, rfl⟩
      · unfold ExprContext.resolveMeta at h ⊢
        split at h
        · next key =>
          have hnone : (nullContext "").metadata[key]? = none := by simp [nullContext]
          exact ⟨"", .null, by simp only [hnone]⟩
        · cases h
  obtain ⟨task, found, hfound⟩ := hsome
  rw [eq_null_of_resolves hfound] at hfound
  exact ⟨task, hfound⟩

section Mode

variable (floatText : F64 → String) {s : String} {inner : List Char}

/-- A string that begins with a placeholder, white space aside: its name is resolved first. -/
theorem interpolateString_begin (ctx : ExprContext) {name rest : List Char}
    (htrim : trim s.toList = '$' :: '{' :: (name ++ '}' :: rest)) (hname : '}' ∉ name) :
    ∃ before after index, (∀ c ∈ after, isWhitespace c = true) ∧
      interpolateString floatText ctx s = (do
        let value ← ctx.resolvePath (segmentsOf name)
        let out ← scanTemplate floatText ctx none index (rest ++ after)
        pure (value.display floatText ++ out)).map (before ++ ·) := by
  obtain ⟨before, after, hsplit, hbefore, hafter⟩ := exists_trim s.toList
  refine ⟨String.ofList before, after, 0 + byteLength before + 2 + byteLength name + 1, hafter, ?_⟩
  rw [htrim] at hsplit
  rw [interpolateString, hsplit, List.append_assoc, List.cons_append, List.cons_append,
    List.append_assoc, List.cons_append,
    scanTemplate_literal floatText ctx (opensExpr_of_whitespace hbefore) (.inr ⟨_, rfl⟩),
    scanTemplate, scanTemplate_name floatText ctx hname, List.reverse_nil, List.nil_append]

theorem interpolateString_eq_error {ctx : ExprContext} {name rest : List Char}
    (htrim : trim s.toList = '$' :: '{' :: (name ++ '}' :: rest)) (hname : '}' ∉ name)
    {e : ExprError} (he : ctx.resolvePath (segmentsOf name) = .error e) :
    interpolateString floatText ctx s = .error e := by
  obtain ⟨before, after, index, -, hscan⟩ :=
    interpolateString_begin floatText ctx htrim hname
  rw [hscan, he]
  rfl

theorem interpolateString_eq_ok {ctx : ExprContext} {name rest : List Char}
    (htrim : trim s.toList = '$' :: '{' :: (name ++ '}' :: (rest ++ ['}']))) (hname : '}' ∉ name)
    (hrest : opensExpr rest = false) {value : ExprValue}
    (hvalue : ctx.resolvePath (segmentsOf name) = .ok value) :
    ∃ out, interpolateString floatText ctx s = .ok out := by
  obtain ⟨before, after, index, hafter, hscan⟩ :=
    interpolateString_begin floatText ctx htrim hname
  have hplain : opensExpr (rest ++ ['}'] ++ after) = false := by
    rw [List.append_assoc, List.singleton_append, opensExpr_append_cons (by decide), hrest,
      Bool.false_or, opensExpr, opensExpr_of_whitespace hafter]
    intro more hclose
    exact absurd hclose (by decide)
  rw [hscan, hvalue, scanTemplate_of_not_opensExpr floatText ctx hplain]
  exact ⟨_, rfl⟩

/-- A string that is taken for a placeholder although its name is closed earlier is not read as one
text. -/
theorem not_exactOnly_of_close (htrim : trim s.toList = '$' :: '{' :: (inner ++ ['}']))
    (hopens : opensExpr inner = false) (hclose : '}' ∈ inner) :
    ¬ ExactOnly floatText (nullContext "") s := by
  rintro ⟨-, htext⟩
  have hno : ∀ name, '}' ∉ name → trim s.toList ≠ '$' :: '{' :: (name ++ ['}']) := by
    intro name hname heq
    rw [inner_unique heq htrim] at hname
    exact hname hclose
  have hsame := htext hno
  rw [interpolateJson_of_exact floatText _ (exactExpr_eq_some_iff.mpr ⟨htrim, hopens⟩)] at hsame
  obtain ⟨name, rest, rfl, hname⟩ := List.eq_append_cons_of_mem hclose
  have hrest : opensExpr rest = false := by
    rw [opensExpr_append_cons (by decide), Bool.or_eq_false_iff, opensExpr] at hopens
    · exact hopens.2
    · intro more hdollar
      exact absurd hdollar (by decide)
  rw [List.append_assoc, List.cons_append] at htrim
  cases hinner : (nullContext "").resolvePath (segmentsOf (name ++ '}' :: rest)) with
  | ok value =>
    rw [hinner, eq_null_of_resolves hinner] at hsame
    cases hout : interpolateString floatText (nullContext "") s <;> rw [hout] at hsame <;>
      cases hsame
  | error e =>
    rw [hinner] at hsame
    cases hfirst : (nullContext "").resolvePath (segmentsOf name) with
    | ok value =>
      obtain ⟨out, hout⟩ := interpolateString_eq_ok floatText htrim hname hrest hfirst
      rw [hout] at hsame
      cases hsame
    | error e' =>
      rw [interpolateString_eq_error floatText htrim hname hfirst] at hsame
      obtain rfl := Except.error.inj hsame
      have hmentions := (close_mem_error_iff hinner).mp (mem_trim hclose (by decide))
      exact hname ((isInfix_trim name).subset ((close_mem_error_iff hfirst).mpr hmentions))

end Mode

/-- The mode for single placeholders is used for these only, in every context, exactly if the string
is not ambiguous. -/
theorem exactOnly_iff (floatText : F64 → String) (s : String) :
    (∀ ctx, ExactOnly floatText ctx s) ↔ Unambiguous s := by
  constructor
  · intro h inner htrim
    refine ⟨fun hopens hclose ↦ not_exactOnly_of_close floatText htrim hopens hclose (h _), ?_⟩
    rintro hopens hclose ⟨ctx, value, hvalue⟩
    obtain ⟨task, hnull⟩ := exists_resolves_null hvalue
    have hresult := (h (nullContext task)).1 inner hclose htrim
    have hnot := exactExpr_eq_none_of_opens htrim hopens
    rw [hnull, interpolateJson_of_not_exact floatText _ hnot] at hresult
    cases hout : interpolateString floatText (nullContext task) s <;> rw [hout] at hresult <;>
      cases hresult
  · intro h ctx
    refine ⟨fun name hname htrim ↦ ?_, fun hno ↦ ?_⟩
    · cases hopens : opensExpr name with
      | false =>
        exact interpolateJson_of_exact floatText ctx (exactExpr_eq_some_iff.mpr ⟨htrim, hopens⟩)
      | true =>
        have hnot := exactExpr_eq_none_of_opens htrim hopens
        rw [interpolateJson_of_not_exact floatText ctx hnot]
        cases hresolved : ctx.resolvePath (segmentsOf name) with
        | ok value => exact absurd ⟨ctx, value, hresolved⟩ ((h name htrim).2 hopens hname)
        | error e =>
          rw [interpolateString_eq_error floatText htrim hname hresolved]
          rfl
    · refine interpolateJson_of_not_exact floatText ctx ?_
      rw [Option.eq_none_iff_forall_ne_some]
      intro inner hinner
      obtain ⟨htrim, hopens⟩ := exactExpr_eq_some_iff.mp hinner
      exact hno inner ((h inner htrim).1 hopens) htrim

/-- A placeholder, and a text that ends with a bracket. -/
def greeting : String := "$\x7brun.input.user\x7d \x7bdraft\x7d"

def adaContext : ExprContext where
  runInput := .object [("user", .string "ada")]
  taskOutputs := ∅
  metadata := ∅

/-- The text is taken for a single placeholder, and null comes out in its place. -/
theorem exact_mode_drops_text : ¬ ExactOnly (fun _ ↦ "") adaContext greeting := by
  rintro ⟨-, htext⟩
  have htrim : trim greeting.toList =
      '$' :: '{' :: ("run.input.user\x7d \x7bdraft".toList ++ ['}']) := by decide +kernel
  have hno : ∀ name, '}' ∉ name → trim greeting.toList ≠ '$' :: '{' :: (name ++ ['}']) := by
    intro name hname heq
    rw [inner_unique heq htrim] at hname
    revert hname
    decide +kernel
  have hnull := congrArg (fun result ↦ match result with
    | .ok .null => true
    | _ => false) (htext hno)
  revert hnull
  decide +kernel

end Runvane.Engine
