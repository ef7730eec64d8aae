import Runvane.Scheduler.Cron

/-!
# The grammar of cron expressions

The parts of a field as the documentation of `scheduler/cron.rs` lists them (`CronPart`): the
wildcard, steps, single values and inclusive ranges, with numbers that are made of digits. A list of
them is parsed to the set it denotes, as long as its steps fit in 32 bits
(`CronField.parse_denotes`).

The parser takes more than that. A plus in front of a number is read over, and so is everything
after a second hyphen. These are all the ways out of the grammar (`grammar_iff_plain`).
-/

set_option autoImplicit false

namespace Runvane.Scheduler.Cron

open Engine (trim isWhitespace)
open Library

/-! ### Values -/

theorem mem_inclusive {first last v : ℕ} : v ∈ inclusive first last ↔ first ≤ v ∧ v ≤ last := by
  unfold inclusive
  rw [List.mem_range'_1]
  omega

/-- The loop lists the multiples of the step over its start, given a turn for every value left. -/
theorem mem_stepLoop {max step fuel value v : ℕ} (hstep : 1 ≤ step) (hmax : max < 2 ^ 32)
    (hfuel : max + 1 - value ≤ fuel) :
    v ∈ stepLoop max step fuel value ↔ value ≤ v ∧ v ≤ max ∧ step ∣ v - value := by
  induction fuel generalizing value with
  | zero =>
    simp only [stepLoop, List.not_mem_nil, false_iff]
    omega
  | succ fuel ih =>
    unfold stepLoop
    by_cases hvalue : value ≤ max
    · rw [if_pos hvalue, List.mem_cons]
      have hrest :
          (v ∈ if value + step < 2 ^ 32 then stepLoop max step fuel (value + step) else []) ↔
          value + step ≤ v ∧ v ≤ max ∧ step ∣ v - (value + step) := by
        split_ifs with hfits
        · exact ih (by omega)
        · simp only [List.not_mem_nil, false_iff]
          omega
      rw [hrest]
      constructor
      · rintro (rfl | ⟨hle, hv, hdvd⟩)
        · exact ⟨le_rfl, hvalue, by simp⟩
        · have hsplit : v - value = v - (value + step) + step := by omega
          exact ⟨by omega, hv, hsplit ▸ Nat.dvd_add hdvd (dvd_refl step)⟩
      · rintro ⟨hle, hv, hdvd⟩
        rcases Nat.eq_or_lt_of_le hle with rfl | hlt
        · exact .inl rfl
        · have hfar : step ≤ v - value := Nat.le_of_dvd (by omega) hdvd
          have hsplit : v - (value + step) = v - value - step := by omega
          exact .inr ⟨by omega, hv, hsplit ▸ Nat.dvd_sub hdvd (dvd_refl step)⟩
    · rw [if_neg hvalue]
      simp only [List.not_mem_nil, false_iff]
      omega

/-! ### White space -/

/-- A text without white space has nothing to trim. -/
theorem trim_of_forall {chars : List Char} (h : ∀ c ∈ chars, isWhitespace c = false) :
    trim chars = chars := by
  have hkeep : ∀ l : List Char, (∀ c ∈ l, isWhitespace c = false) →
      l.dropWhile isWhitespace = l := by
    intro l hl
    cases l with
    | nil => rfl
    | cons c rest => exact List.dropWhile_cons_of_neg (by simp [hl c List.mem_cons_self])
  unfold trim
  rw [hkeep chars h, hkeep chars.reverse fun c hc ↦ h c (List.mem_reverse.mp hc),
    List.reverse_reverse]

theorem isWhitespace_of_isDigit {c : Char} (h : c.isDigit = true) : isWhitespace c = false := by
  have hrange : 48 ≤ c.toNat ∧ c.toNat ≤ 57 := by
    simpa [Char.isDigit, UInt32.le_iff_toNat_le] using h
  simp only [isWhitespace, Bool.or_eq_false_iff, Bool.and_eq_false_iff, decide_eq_false_iff_not]
  omega

/-! ### Parts -/

/-- A part of a list, with the digits of its numbers. -/
inductive CronPart
  | every
  | step (digits : List Char)
  | value (digits : List Char)
  | range (first last : List Char)

namespace CronPart

variable {min max : ℕ} {p : CronPart}

def text : CronPart → List Char
  | every => ['*']
  | step digits => '*' :: '/' :: digits
  | value digits => digits
  | range first last => first ++ '-' :: last

/-- The numbers are numbers, and in the range of the field. -/
def WellFormed (min max : ℕ) : CronPart → Prop
  | every => True
  | step digits => IsNumber digits ∧ 1 ≤ decimal digits
  | value digits => IsNumber digits ∧ min ≤ decimal digits ∧ decimal digits ≤ max
  | range first last => IsNumber first ∧ IsNumber last ∧ min ≤ decimal first ∧
      decimal first ≤ decimal last ∧ decimal last ≤ max

/-- A step is a 32-bit number. -/
def StepFits : CronPart → Prop
  | step digits => decimal digits ≤ 4294967295
  | _ => True

/-- The values of the range of the field that a part stands for. -/
def Denotes (min : ℕ) : CronPart → ℕ → Prop
  | every, _ => True
  | step digits, v => decimal digits ∣ v - min
  | value digits, v => v = decimal digits
  | range first last, v => decimal first ≤ v ∧ v ≤ decimal last

/-- The characters of a part. -/
theorem WellFormed.isDigit_or (h : p.WellFormed min max) {c : Char} (hc : c ∈ p.text) :
    c.isDigit = true ∨ c = '*' ∨ c = '/' ∨ c = '-' := by
  cases p with
  | every => exact .inr (.inl (List.mem_singleton.mp hc))
  | step digits =>
    rcases List.mem_cons.mp hc with hc | hc
    · exact .inr (.inl hc)
    · rcases List.mem_cons.mp hc with hc | hc
      · exact .inr (.inr (.inl hc))
      · exact .inl (h.1.2 c hc)
  | value digits => exact .inl (h.1.2 c hc)
  | range first last =>
    rcases List.mem_append.mp hc with hc | hc
    · exact .inl (h.1.2 c hc)
    · rcases List.mem_cons.mp hc with hc | hc
      · exact .inr (.inr (.inr hc))
      · exact .inl (h.2.1.2 c hc)

theorem WellFormed.not_mem (h : p.WellFormed min max) {c : Char} (hdigit : c.isDigit = false)
    (hother : c ≠ '*' ∧ c ≠ '/' ∧ c ≠ '-') : c ∉ p.text := by
  intro hc
  rcases h.isDigit_or hc with hc | hc | hc | hc
  · rw [hdigit] at hc
    cases hc
  · exact hother.1 hc
  · exact hother.2.1 hc
  · exact hother.2.2 hc

theorem WellFormed.isWhitespace (h : p.WellFormed min max) {c : Char} (hc : c ∈ p.text) :
    isWhitespace c = false := by
  rcases h.isDigit_or hc with hdigit | rfl | rfl | rfl
  · exact isWhitespace_of_isDigit hdigit
  · decide
  · decide
  · decide

/-- A part of the grammar is read as the values it denotes. -/
theorem exists_partReads (h : p.WellFormed min max) (hfits : p.StepFits) (hmax : max < 2 ^ 32) :
    ∃ values, PartReads min max p.text values ∧
      ∀ v, v ∈ values ↔ min ≤ v ∧ v ≤ max ∧ p.Denotes min v := by
  cases p with
  | every =>
    refine ⟨_, .every, fun v ↦ ?_⟩
    rw [mem_inclusive]
    simp [Denotes]
  | step digits =>
    have hlt : decimal digits < 2 ^ 32 := Nat.lt_of_le_of_lt hfits (by norm_num)
    exact ⟨_, .step h.1.readsAs hlt h.2, fun v ↦ mem_stepLoop h.2 hmax le_rfl⟩
  | value digits =>
    refine ⟨_, .value h.1.readsAs h.2.1 h.2.2, fun v ↦ ?_⟩
    rw [List.mem_singleton]
    constructor
    · rintro rfl
      exact ⟨h.2.1, h.2.2, rfl⟩
    · exact fun hv ↦ hv.2.2
  | range first last =>
    obtain ⟨hfirst, hlast, hlow, hle, hhigh⟩ := h
    have hsplit : (first ++ '-' :: last).splitOn '-' = [first, last] := by
      have hpieces : ∀ piece ∈ [first, last], '-' ∉ piece := by
        intro piece hpiece
        rcases List.mem_pair.mp hpiece with rfl | rfl
        · exact hfirst.readsAs.not_mem (by decide) (by decide)
        · exact hlast.readsAs.not_mem (by decide) (by decide)
      have htwo := List.splitOn_intercalate '-' hpieces (List.cons_ne_nil _ _)
      simpa [List.intercalate] using htwo
    refine ⟨_, .range hsplit hfirst.readsAs hlast.readsAs hlow hle hhigh, fun v ↦ ?_⟩
    rw [mem_inclusive]
    simp only [Denotes]
    omega

end CronPart

/-! ### Lists of parts -/

def fieldText (parts : List CronPart) : List Char := [','].intercalate (parts.map CronPart.text)

theorem splitOn_fieldText {min max : ℕ} {parts : List CronPart} (hne : parts ≠ [])
    (hparts : ∀ p ∈ parts, p.WellFormed min max) :
    (fieldText parts).splitOn ',' = parts.map CronPart.text := by
  refine List.splitOn_intercalate ',' (fun text htext ↦ ?_) (by simpa using hne)
  obtain ⟨p, hp, rfl⟩ := List.mem_map.mp htext
  exact (hparts p hp).not_mem (by decide) (by decide)

/-- What is in a list of lists, from what is in each. -/
theorem mem_flatten_of_forall₂ {α β : Type} {Stands : α → β → Prop} {sources : List α}
    {lists : List (List β)}
    (h : List.Forall₂ (fun source list ↦ ∀ b, b ∈ list ↔ Stands source b) sources lists) (b : β) :
    b ∈ lists.flatten ↔ ∃ source ∈ sources, Stands source b := by
  induction h with
  | nil => simp
  | cons hsource _ ih => simp [hsource b, ih]

/-- A list of parts of the grammar is parsed to the set of values it denotes, if its steps are
32-bit numbers. -/
theorem CronField.parse_denotes (field : String) {min max : ℕ} (hmax : max ≤ 4294967295)
    {parts : List CronPart} (hne : parts ≠ []) (hparts : ∀ p ∈ parts, p.WellFormed min max)
    (hfits : ∀ p ∈ parts, p.StepFits) :
    ∃ f, CronField.parse (String.ofList (fieldText parts)) field min max = .ok f ∧
      ∀ v, f.contains v = true ↔ min ≤ v ∧ v ≤ max ∧ ∃ p ∈ parts, p.Denotes min v := by
  have hlt : max < 2 ^ 32 := Nat.lt_of_le_of_lt hmax (by norm_num)
  have hpart : ∀ p ∈ parts, ∃ vs, (parsePart field min max ∘ CronPart.text) p = .ok vs ∧
      ∀ v, v ∈ vs ↔ min ≤ v ∧ v ≤ max ∧ p.Denotes min v := by
    intro p hp
    obtain ⟨vs, hreads, hmem⟩ := CronPart.exists_partReads (hparts p hp) (hfits p hp) hlt
    refine ⟨vs, ?_, hmem⟩
    rw [Function.comp_apply, parsePart, trim_of_forall fun c hc ↦ (hparts p hp).isWhitespace hc]
    exact (parseTrimmed_eq_ok_iff hlt).mpr hreads
  obtain ⟨values, hvalues, hall⟩ := exists_mapM_eq_ok hpart
  refine ⟨⟨sortDedup values.flatten, pairwise_lt_sortDedup values.flatten⟩, ?_, fun v ↦ ?_⟩
  · unfold CronField.parse
    rw [String.toList_ofList, splitOn_fieldText hne hparts, List.mapM_map, hvalues]
    rfl
  · rw [CronField.contains_iff, mem_sortDedup, mem_flatten_of_forall₂ hall]
    constructor
    · rintro ⟨p, hp, hlow, hhigh, hdenotes⟩
      exact ⟨hlow, hhigh, p, hp, hdenotes⟩
    · rintro ⟨hlow, hhigh, p, hp, hdenotes⟩
      exact ⟨p, hp, hlow, hhigh, hdenotes⟩

theorem CronField.parse_denotes_quarters :
    ∃ f, CronField.parse "*/15,7,40-42" "minute" 0 59 = .ok f ∧ f.contains 7 = true ∧
      f.contains 41 = true ∧ f.contains 8 = false := by
  have hparts : ∀ p ∈ [CronPart.step ['1', '5'], .value ['7'], .range ['4', '0'] ['4', '2']],
      p.WellFormed 0 59 ∧ p.StepFits := by
    simp [CronPart.WellFormed, CronPart.StepFits, IsNumber, decimal, decimalFrom]
  obtain ⟨f, hf, hmem⟩ := CronField.parse_denotes "minute" (by norm_num) (by simp)
    (fun p hp ↦ (hparts p hp).1) fun p hp ↦ (hparts p hp).2
  refine ⟨f, hf, (hmem 7).mpr ?_, (hmem 41).mpr ?_, ?_⟩
  · simp [CronPart.Denotes, decimal, decimalFrom]
  · simp [CronPart.Denotes, decimal, decimalFrom]
  · rw [← Bool.not_eq_true, hmem 8]
    simp [CronPart.Denotes, decimal, decimalFrom]

/-- A step over the 32-bit range is refused. -/
theorem CronField.parse_wide_step :
    (CronPart.step "4294967296".toList).WellFormed 0 59 ∧
      CronField.parse (String.ofList (fieldText [.step "4294967296".toList])) "minute" 0 59 =
        .error (.malformedField "minute"
          "invalid step: number too large to fit in target type") := by
  have hvalue : decimal "4294967296".toList = 4294967296 := by decide
  have hdigits : "4294967296".toList.all Char.isDigit = true := by decide
  refine ⟨⟨⟨by decide, List.all_eq_true.mp hdigits⟩, by omega⟩, ?_⟩
  decide

/-! ### What the parser takes -/

section Taken

variable {min max : ℕ} {part field : List Char}

/-- A part the parser takes, in the grammar or not. -/
def Taken (min max : ℕ) (part : List Char) : Prop := ∃ values, PartReads min max part values

/-- A part without a plus and with one hyphen at most. -/
def Plain (part : List Char) : Prop := '+' ∉ part ∧ part.count '-' ≤ 1

theorem ReadsAs.isNumber {text : List Char} {n : ℕ} (h : ReadsAs text n) (hplus : '+' ∉ text) :
    IsNumber text ∧ decimal text = n := by
  obtain ⟨digits, rfl | rfl, hnumber, hvalue⟩ := h
  · exact ⟨hnumber, hvalue⟩
  · exact absurd List.mem_cons_self hplus

theorem IsNumber.count_hyphen {digits : List Char} (h : IsNumber digits) :
    digits.count '-' = 0 :=
  List.count_eq_zero.mpr (h.readsAs.not_mem (by decide) (by decide))

theorem CronPart.WellFormed.plain {p : CronPart} (h : p.WellFormed min max) : Plain p.text := by
  refine ⟨h.not_mem (by decide) (by decide), ?_⟩
  cases p with
  | every => simp [CronPart.text]
  | step digits => simp [CronPart.text, h.1.count_hyphen]
  | value digits => simp [CronPart.text, h.1.count_hyphen]
  | range first last => simp [CronPart.text, h.1.count_hyphen, h.2.1.count_hyphen]

/-- Of the parts the parser takes, the plain ones are in the grammar. -/
theorem Taken.wellFormed_iff (h : Taken min max part) :
    (∃ p : CronPart, p.WellFormed min max ∧ p.text = part) ↔ Plain part := by
  constructor
  · rintro ⟨p, hp, rfl⟩
    exact hp.plain
  · rintro ⟨hplus, hhyphens⟩
    obtain ⟨values, hreads⟩ := h
    cases hreads with
    | every => exact ⟨.every, trivial, rfl⟩
    | @step text step hread _ hpos =>
      obtain ⟨hnumber, rfl⟩ := hread.isNumber fun hmem ↦ hplus (by simp [hmem])
      exact ⟨.step text, ⟨hnumber, hpos⟩, rfl⟩
    | @range part start stop more first last hsplit hfirst hlast hmin hle hmax =>
      have htext := @List.intercalate_splitOn _ part _ _ '-'
      rw [hsplit] at htext
      cases more with
      | nil =>
        have hpart : part = start ++ '-' :: stop := by simpa [List.intercalate] using htext.symm
        subst hpart
        obtain ⟨hstart, rfl⟩ := hfirst.isNumber fun hmem ↦ hplus (by simp [hmem])
        obtain ⟨hstop, rfl⟩ := hlast.isNumber fun hmem ↦ hplus (by simp [hmem])
        exact ⟨.range start stop, ⟨hstart, hstop, hmin, hle, hmax⟩, rfl⟩
      | cons third more =>
        -- a third piece comes after a second hyphen
        rw [← htext] at hhyphens
        simp [List.intercalate, List.count_append] at hhyphens
        omega
    | value hread hmin hmax =>
      obtain ⟨hnumber, rfl⟩ := hread.isNumber hplus
      exact ⟨.value part, ⟨hnumber, hmin, hmax⟩, rfl⟩

def FieldGrammar (min max : ℕ) (field : List Char) : Prop :=
  ∃ parts : List CronPart, parts ≠ [] ∧ (∀ p ∈ parts, p.WellFormed min max) ∧
    fieldText parts = field

/-- A field the parser takes. -/
def FieldTaken (min max : ℕ) (field : List Char) : Prop :=
  ∀ part ∈ field.splitOn ',', Taken min max part

def FieldPlain (field : List Char) : Prop := ∀ part ∈ field.splitOn ',', Plain part

theorem FieldGrammar.plain (h : FieldGrammar min max field) : FieldPlain field := by
  obtain ⟨parts, hne, hparts, rfl⟩ := h
  intro part hpart
  rw [splitOn_fieldText hne hparts] at hpart
  obtain ⟨p, hp, rfl⟩ := List.mem_map.mp hpart
  exact (hparts p hp).plain

theorem FieldTaken.grammar_iff (h : FieldTaken min max field) :
    FieldGrammar min max field ↔ FieldPlain field := by
  constructor
  · exact FieldGrammar.plain
  · intro hplain
    have hlift : ∀ pieces : List (List Char), (∀ piece ∈ pieces, ∃ p : CronPart,
        p.WellFormed min max ∧ p.text = piece) →
        ∃ parts : List CronPart, (∀ p ∈ parts, p.WellFormed min max) ∧
          parts.map CronPart.text = pieces := by
      intro pieces hpieces
      induction pieces with
      | nil => exact ⟨[], by simp, rfl⟩
      | cons piece pieces ih =>
        obtain ⟨⟨p, hp, rfl⟩, hrest⟩ := List.forall_mem_cons.mp hpieces
        obtain ⟨parts, hparts, rfl⟩ := ih hrest
        exact ⟨p :: parts, List.forall_mem_cons.mpr ⟨hp, hparts⟩, rfl⟩
    obtain ⟨parts, hparts, htexts⟩ := hlift (field.splitOn ',') fun part hpart ↦
      (h part hpart).wellFormed_iff.mpr (hplain part hpart)
    refine ⟨parts, ?_, hparts, ?_⟩
    · rintro rfl
      exact List.splitOn_ne_nil ',' field htexts.symm
    · rw [fieldText, htexts, List.intercalate_splitOn]

end Taken

/-! ### Expressions -/

section Expressions

def fieldRanges : List (ℕ × ℕ) := [(0, 59), (0, 23), (1, 31), (1, 12), (0, 6)]

/-- An expression of the documented grammar: five fields with white space between them. -/
def InGrammar (expr : String) : Prop :=
  List.Forall₂ (fun range field ↦ FieldGrammar range.1 range.2 field) fieldRanges
    (splitWhitespace expr.toList)

/-- An expression the parser takes. -/
def ExprTaken (expr : String) : Prop :=
  List.Forall₂ (fun range field ↦ FieldTaken range.1 range.2 field) fieldRanges
    (splitWhitespace expr.toList)

/-- A piece between separators has no separator in it. -/
theorem splitOnP_not {α : Type} {p : α → Bool} {l : List α} :
    ∀ piece ∈ l.splitOnP p, ∀ a ∈ piece, p a = false := by
  induction l with
  | nil => simp
  | cons b l ih =>
    rw [List.splitOnP_cons_eq_if_modifyHead]
    split_ifs with hb
    · simpa using ih
    · cases hsplit : l.splitOnP p with
      | nil => exact absurd hsplit (List.splitOnP_ne_nil p l)
      | cons first rest =>
        rw [hsplit] at ih
        obtain ⟨hfirst, hrest⟩ := List.forall_mem_cons.mp ih
        refine List.forall_mem_cons.mpr ⟨?_, hrest⟩
        exact List.forall_mem_cons.mpr ⟨Bool.eq_false_of_not_eq_true hb, hfirst⟩

/-- The pieces of a text have the characters of the text. -/
theorem mem_of_mem_splitOn {separator c : Char} {text piece : List Char}
    (hpiece : piece ∈ text.splitOn separator) (hc : c ∈ piece) : c ∈ text := by
  rw [← @List.intercalate_splitOn _ text _ _ separator]
  generalize text.splitOn separator = pieces at hpiece
  induction pieces with
  | nil => cases hpiece
  | cons first pieces ih =>
    cases pieces with
    | nil => simpa [List.intercalate, List.mem_singleton.mp hpiece] using hc
    | cons second pieces =>
      have hcons : [separator].intercalate (first :: second :: pieces) =
          first ++ separator :: [separator].intercalate (second :: pieces) := by
        simp [List.intercalate]
      rw [hcons]
      rcases List.mem_cons.mp hpiece with rfl | hrest
      · exact List.mem_append_left _ hc
      · exact List.mem_append_right _ (List.mem_cons_of_mem _ (ih hrest))

/-- A field without white space is parsed exactly if all its parts are taken. -/
theorem CronField.exists_parse_iff (name : String) {min max : ℕ} (hmax : max < 2 ^ 32)
    {field : List Char} (hspace : ∀ c ∈ field, isWhitespace c = false) :
    (∃ f, CronField.parse (String.ofList field) name min max = .ok f) ↔
      FieldTaken min max field := by
  have hpart : ∀ part ∈ field.splitOn ',', ∀ values,
      parsePart name min max part = .ok values ↔ PartReads min max part values := by
    intro part hpart values
    rw [parsePart, trim_of_forall fun c hc ↦ hspace c (mem_of_mem_splitOn hpart hc)]
    exact parseTrimmed_eq_ok_iff hmax
  unfold CronField.parse
  rw [String.toList_ofList]
  constructor
  · rintro ⟨f, hf⟩ part hmem
    obtain ⟨values, hvalues, -⟩ := bind_eq_ok hf
    obtain ⟨vs, -, hvs⟩ := mapM_eq_ok hvalues part hmem
    exact ⟨vs, (hpart part hmem vs).mp hvs⟩
  · intro htaken
    obtain ⟨values, hvalues, -⟩ := exists_mapM_eq_ok fun part hmem ↦ by
      obtain ⟨vs, hreads⟩ := htaken part hmem
      exact ⟨vs, (hpart part hmem vs).mpr hreads, trivial⟩
    exact ⟨_, bind_ok_iff.mpr ⟨values, hvalues, rfl⟩⟩

/-- The parser returns a schedule exactly for the expressions it is said to take. -/
theorem CronSchedule.exists_parse_iff (expr : String) :
    (∃ schedule, CronSchedule.parse expr = .ok schedule) ↔ ExprTaken expr := by
  have hspace : ∀ field ∈ splitWhitespace expr.toList, ∀ c ∈ field, isWhitespace c = false :=
    fun field hfield ↦ splitOnP_not field (List.mem_of_mem_filter hfield)
  unfold CronSchedule.parse ExprTaken
  generalize splitWhitespace expr.toList = fields at hspace
  split
  · next minute hour day month weekday =>
    simp only [fieldRanges, List.forall₂_cons, List.forall₂_nil_left_iff, and_true]
    simp only [List.forall_mem_cons] at hspace
    obtain ⟨hminute, hhour, hday, hmonth, hweekday, -⟩ := hspace
    rw [← CronField.exists_parse_iff "minute" (by norm_num) hminute,
      ← CronField.exists_parse_iff "hour" (by norm_num) hhour,
      ← CronField.exists_parse_iff "day_of_month" (by norm_num) hday,
      ← CronField.exists_parse_iff "month" (by norm_num) hmonth,
      ← CronField.exists_parse_iff "day_of_week" (by norm_num) hweekday]
    simp only [bind_ok_iff]
    constructor
    · rintro ⟨_, minutes, hminutes, hours, hhours, days, hdays, months, hmonths, weekdays,
        hweekdays, -⟩
      exact ⟨⟨minutes, hminutes⟩, ⟨hours, hhours⟩, ⟨days, hdays⟩, ⟨months, hmonths⟩,
        ⟨weekdays, hweekdays⟩⟩
    · rintro ⟨⟨minutes, hminutes⟩, ⟨hours, hhours⟩, ⟨days, hdays⟩, ⟨months, hmonths⟩,
        ⟨weekdays, hweekdays⟩⟩
      exact ⟨_, minutes, hminutes, hours, hhours, days, hdays, months, hmonths, weekdays,
        hweekdays, rfl⟩
  · next hcount =>
    constructor
    · rintro ⟨schedule, hschedule⟩
      cases hschedule
    · intro htaken
      simp only [fieldRanges, List.forall₂_cons_left_iff, List.forall₂_nil_left_iff] at htaken
      obtain ⟨minute, _, -, ⟨hour, _, -, ⟨day, _, -, ⟨month, _, -, ⟨weekday, _, -, rfl, rfl⟩, rfl⟩,
        rfl⟩, rfl⟩, rfl⟩ := htaken
      exact absurd rfl (hcount minute hour day month weekday)

/-- That what is parsed is in the documented grammar holds of an expression
exactly if it is not taken or has plain parts only. -/
theorem grammar_iff_plain (expr : String) :
    ((∃ schedule, CronSchedule.parse expr = .ok schedule) → InGrammar expr) ↔
      (ExprTaken expr → ∀ field ∈ splitWhitespace expr.toList, FieldPlain field) := by
  rw [CronSchedule.exists_parse_iff]
  refine forall_congr' fun htaken ↦ ?_
  unfold InGrammar
  unfold ExprTaken at htaken
  generalize fieldRanges = ranges at htaken ⊢
  generalize splitWhitespace expr.toList = fields at htaken ⊢
  induction htaken with
  | nil => simp
  | cons hfield _ ih =>
    rw [List.forall₂_cons, List.forall_mem_cons, ih, hfield.grammar_iff]

theorem InGrammar.plain {expr : String} (h : InGrammar expr) {field : List Char}
    (hfield : field ∈ splitWhitespace expr.toList) : FieldPlain field := by
  unfold InGrammar at h
  generalize fieldRanges = ranges at h
  generalize splitWhitespace expr.toList = fields at h hfield
  induction h with
  | nil => cases hfield
  | cons hfirst _ ih =>
    rcases List.mem_cons.mp hfield with rfl | hrest
    · exact hfirst.plain
    · exact ih hrest

/-- What follows a second hyphen, and a plus before a number, are read over. -/
theorem parse_outside_grammar :
    ((∃ schedule, CronSchedule.parse "1-5-9 * * * *" = .ok schedule) ∧
      ¬ InGrammar "1-5-9 * * * *") ∧
    (∃ schedule, CronSchedule.parse "+5 * * * *" = .ok schedule) ∧ ¬ InGrammar "+5 * * * *" := by
  refine ⟨⟨exists_of_isOk (by decide), fun h ↦ ?_⟩, exists_of_isOk (by decide),
    fun h ↦ ?_⟩
  · have hplain : FieldPlain "1-5-9".toList := h.plain (by decide)
    exact absurd (hplain "1-5-9".toList (by decide)).2 (by decide)
  · have hplain : FieldPlain "+5".toList := h.plain (by decide)
    exact absurd (by decide) (hplain "+5".toList (by decide)).1

end Expressions

end Runvane.Scheduler.Cron
