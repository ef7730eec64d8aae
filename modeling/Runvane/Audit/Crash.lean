import Runvane.Audit.Loggers

/-!
# The audit log after a crash

A crash while a record is written leaves the beginning of its line at the end of the file. The
logger that opens the file again appends to it as it is, so that the next record continues the line.
What was left of the record and the next record are then read as one line, which is no record.

The records that were complete and all further ones are returned exactly if the cut left nothing of
the line, or nothing is written after it and what is left is a text that is not the whole record
(`recovers_of_cleanCut`, `cleanCut_of_recovers`).
-/

set_option autoImplicit false

namespace Runvane.Audit

open Library Domain Engine FileAuditLogger

/-! ### What is expected -/

/-- The file with the records, cut after so many bytes of the line of the last one. -/
def crashed (codec : AuditCodec) (before : List AuditRecord) (last : AuditRecord) (cut : ℕ) :
    List UInt8 :=
  ((⟨[]⟩ : FileAuditLogger).recordAll codec (before ++ [last])).file.take
    ((framed 10 codec.bytesOf before).length + cut)

/-- After the crash and further records, a query without conditions returns the further records and
the complete ones before the cut, newest first. -/
def Recovers (codec : AuditCodec) (before : List AuditRecord) (last : AuditRecord) (cut : ℕ)
    (further : List AuditRecord) : Prop :=
  ∀ limit, before.length + 1 + further.length ≤ limit →
    ((⟨crashed codec before last cut⟩ : FileAuditLogger).recordAll codec further).query codec
      { limit := limit } = .ok (further.reverse ++ before.reverse)

/-- No beginning of the text of the record is read as a record. -/
def AuditCodec.WholeOnly (codec : AuditCodec) (r : AuditRecord) : Prop :=
  ∀ start : String, start.toList <+: (codec.textOf r).toList → start ≠ codec.textOf r →
    ∃ message, codec.fromStr start = .error message

/-- A beginning of one record before the text of another is not read as the latter. -/
def AuditCodec.Separates (codec : AuditCodec) (last next : AuditRecord) : Prop :=
  ∀ start : String, start ≠ "" → start.toList <+: (codec.textOf last).toList →
    codec.fromStr (start ++ codec.textOf next) ≠ .ok next

/-- The cut leaves nothing of the line, or nothing is written after it and it leaves a text that is
not the whole record. -/
def CleanCut (codec : AuditCodec) (last : AuditRecord) (cut : ℕ)
    (further : List AuditRecord) : Prop :=
  cut = 0 ∨ further = [] ∧ cut < (codec.bytesOf last).length ∧
    (textOf? ((codec.bytesOf last).take cut)).isSome

variable {start : String}

section Crash

variable {codec : AuditCodec} {before further : List AuditRecord} {last : AuditRecord} {cut : ℕ}

theorem crashed_eq (hcut : cut ≤ (codec.bytesOf last).length)
    (h : ∀ r ∈ before ++ [last], codec.RoundTrips r) :
    crashed codec before last cut =
      framed 10 codec.bytesOf before ++ (codec.bytesOf last).take cut := by
  rw [crashed, file_recordAll _ h, framed_append, List.nil_append, List.take_length_add_append]
  simp [framed, List.take_append_of_le_length hcut]

/-- The loop over what is left of the last line and the further lines, after the complete ones. -/
def readRest (codec : AuditCodec) (before : List AuditRecord) (last : AuditRecord) (cut : ℕ)
    (further : List AuditRecord) (limit : ℕ) : Except AuditError (List AuditRecord) :=
  (pieces 10 ((codec.bytesOf last).take cut ++ framed 10 codec.bytesOf further)).foldlM
    (readLine codec { limit := limit }) before

theorem filter_unconstrained (limit : ℕ) (records : List AuditRecord) :
    records.filter ({ limit := limit } : AuditFilter).matchesRecord = records := by
  simp [AuditFilter.matchesRecord]

/-! ### The rest of the last line -/

theorem newline_notMem_take (h : codec.RoundTrips last) : 10 ∉ (codec.bytesOf last).take cut :=
  fun hmem ↦ h.newline_notMem (List.mem_of_mem_take hmem)

theorem take_ne_nil (h : codec.RoundTrips last) (hne : cut ≠ 0) :
    (codec.bytesOf last).take cut ≠ [] := by
  intro hnil
  obtain hcut | hbytes := List.take_eq_nil_iff.mp hnil
  · exact hne hcut
  · exact h.textOf_ne_empty (utf8_inj.mp hbytes)

/-- What is left of a record begins its text. -/
theorem start_of_textOf? (hstart : textOf? ((codec.bytesOf last).take cut) = some start) :
    start.toList <+: (codec.textOf last).toList := by
  refine isPrefix_of_utf8 ?_
  rw [textOf?_eq_some_iff.mp hstart]
  exact List.take_prefix _ _

theorem start_ne_textOf (hcut : cut < (codec.bytesOf last).length)
    (hstart : textOf? ((codec.bytesOf last).take cut) = some start) :
    start ≠ codec.textOf last := by
  rintro rfl
  have hbytes : codec.bytesOf last = (codec.bytesOf last).take cut := textOf?_eq_some_iff.mp hstart
  have hlength := congrArg List.length hbytes
  rw [List.length_take] at hlength
  omega

/-- The first character of a record is the brace. -/
theorem brace_of_isPrefix (h : codec.RoundTrips last)
    (hbegins : start.toList <+: (codec.textOf last).toList) (hne : start ≠ "") :
    ∃ rest, start.toList = '\x7b' :: rest := by
  obtain ⟨fields, hfields⟩ := h.object
  rw [hfields] at hbegins
  cases hchars : start.toList with
  | nil => exact absurd (String.toList_eq_nil_iff.mp hchars) hne
  | cons c rest =>
    rw [hchars, List.cons_prefix_cons] at hbegins
    exact ⟨rest, by rw [hbegins.1]⟩

theorem start_ne_empty (h : codec.RoundTrips last) (hne : cut ≠ 0)
    (hstart : utf8Bytes start = (codec.bytesOf last).take cut) : start ≠ "" := by
  rintro rfl
  exact take_ne_nil h hne hstart.symm

/-- What is left of a record, if it is a text and not the whole record, is passed over. -/
theorem readLine_start (h : codec.RoundTrips last) (hwhole : codec.WholeOnly last)
    (hcut : cut < (codec.bytesOf last).length) (hne : cut ≠ 0)
    (hstart : textOf? ((codec.bytesOf last).take cut) = some start) (f : AuditFilter)
    (matching : List AuditRecord) :
    readLine codec f matching ((codec.bytesOf last).take cut) = .ok matching := by
  have hbegins := start_of_textOf? hstart
  have hnonempty := start_ne_empty h hne (textOf?_eq_some_iff.mp hstart)
  obtain ⟨rest, hrest⟩ := brace_of_isPrefix h hbegins hnonempty
  -- only the end of the text can be trimmed
  obtain ⟨kept, hkept, htrim⟩ : ∃ kept, kept <+: rest ∧ trim ('\x7b' :: rest) = '\x7b' :: kept :=
    trim_cons rfl
  have htrimmed : trim start.toList <+: start.toList := by
    rw [hrest, htrim, List.cons_prefix_cons]
    exact ⟨rfl, hkept⟩
  have hwholeNot : String.ofList (trim start.toList) ≠ codec.textOf last := by
    intro heq
    rw [← heq, String.toList_ofList] at hbegins
    have hsame := htrimmed.eq_of_length_le hbegins.length_le
    rw [hsame, String.ofList_toList] at heq
    exact start_ne_textOf hcut hstart heq
  obtain ⟨message, hmessage⟩ := hwhole (String.ofList (trim start.toList))
    (by rw [String.toList_ofList]; exact htrimmed.trans hbegins) hwholeNot
  simp only [readLine, hstart, hmessage]
  split_ifs <;> rfl

/-- A line that begins with what is left of a record and goes on with the next one. -/
theorem readLine_start_append {next : AuditRecord} (hlast : codec.RoundTrips last)
    (hnext : codec.RoundTrips next) (hne : cut ≠ 0) (hsep : codec.Separates last next) :
    (∃ e, ∀ f matching,
      readLine codec f matching ((codec.bytesOf last).take cut ++ codec.bytesOf next) = .error e) ∨
    ∃ found, found ≠ [next] ∧ found.length ≤ 1 ∧ ∀ limit matching,
      readLine codec { limit := limit } matching
        ((codec.bytesOf last).take cut ++ codec.bytesOf next) = .ok (matching ++ found) := by
  cases htext : textOf? ((codec.bytesOf last).take cut ++ codec.bytesOf next) with
  | none => exact .inl ⟨_, fun f matching ↦ by rw [readLine, htext]⟩
  | some text =>
    obtain ⟨start, hstart, rfl⟩ :=
      exists_text_of_append hnext.textOf_ne_empty (textOf?_eq_some_iff.mp htext)
    have hnonempty := start_ne_empty hlast hne hstart
    have hbegins := start_of_textOf? (textOf?_eq_some_iff.mpr hstart)
    have htrim : trim (start ++ codec.textOf next).toList =
        (start ++ codec.textOf next).toList := by
      obtain ⟨rest, hrest⟩ := brace_of_isPrefix hlast hbegins hnonempty
      obtain ⟨fields, hfields⟩ := hnext.object
      have hchars : (start ++ codec.textOf next).toList =
          '\x7b' :: ((rest ++ '\x7b' :: fields) ++ ['\x7d']) := by
        rw [String.toList_append, hrest, hfields]
        simp
      rw [hchars]
      exact trim_eq_self rfl rfl
    right
    cases hread : codec.fromStr (start ++ codec.textOf next) with
    | error message =>
      refine ⟨[], (List.cons_ne_nil next []).symm, by simp, fun limit matching ↦ ?_⟩
      simp only [readLine, htext, htrim, String.ofList_toList, hread, List.append_nil]
      split_ifs <;> rfl
    | ok other =>
      have hother : other ≠ next := by
        rintro rfl
        exact hsep start hnonempty hbegins hread
      refine ⟨[other], by simpa using hother, by simp, fun limit matching ↦ ?_⟩
      have htextNe : start ++ codec.textOf next ≠ "" := by
        simp [hnonempty]
      rw [readLine_of_ok _ matching (textOf?_eq_some_iff.mp htext) htextNe htrim hread,
        filter_unconstrained]

theorem readRest_nil (before : List AuditRecord) (h : codec.RoundTrips last) (hne : cut ≠ 0)
    (limit : ℕ) :
    readRest codec before last cut [] limit =
      readLine codec { limit := limit } before ((codec.bytesOf last).take cut) := by
  rw [readRest, framed, List.flatMap_nil, List.append_nil,
    pieces_of_notMem (newline_notMem_take h) (take_ne_nil h hne), List.foldlM_cons]
  cases readLine codec { limit := limit } before ((codec.bytesOf last).take cut) with
  | error e => rfl
  | ok matching => rfl

/-- What is left of the last line and the first further record are one line. -/
theorem readRest_cons (before : List AuditRecord) (cut : ℕ) {next : AuditRecord}
    {more : List AuditRecord} (hlast : codec.RoundTrips last) (hnext : codec.RoundTrips next)
    (hmore : ∀ r ∈ more, codec.RoundTrips r) (limit : ℕ) :
    readRest codec before last cut (next :: more) limit =
      (do
        let matching ← readLine codec { limit := limit } before
          ((codec.bytesOf last).take cut ++ codec.bytesOf next)
        return matching ++ more) := by
  have hline : 10 ∉ (codec.bytesOf last).take cut ++ codec.bytesOf next := by
    rw [List.mem_append, not_or]
    exact ⟨newline_notMem_take hlast, hnext.newline_notMem⟩
  have hfile : (codec.bytesOf last).take cut ++ framed 10 codec.bytesOf (next :: more) =
      ((codec.bytesOf last).take cut ++ codec.bytesOf next) ++
        10 :: (framed 10 codec.bytesOf more ++ []) := by
    simp [framed]
  rw [readRest, hfile, pieces_append_cons hline,
    pieces_framed_append fun r hr ↦ (hmore r hr).newline_notMem, List.foldlM_cons]
  refine congrArg (readLine codec { limit := limit } before _ >>= ·) (funext fun matching ↦ ?_)
  rw [pieces, List.append_nil, foldlM_readLine _ hmore, filter_unconstrained]
  rfl

/-! ### Recovery -/

variable (hcut : cut ≤ (codec.bytesOf last).length)
  (h : ∀ r ∈ before ++ last :: further, codec.RoundTrips r)
include hcut h

/-- What a query reads after the crash: the complete records first, then the rest of the file. -/
theorem query_crashed (limit : ℕ) :
    ((⟨crashed codec before last cut⟩ : FileAuditLogger).recordAll codec further).query codec
        { limit := limit } =
      (do
        let matching ← readRest codec before last cut further limit
        return matching.reverse.take limit) := by
  have hbefore : ∀ r ∈ before, codec.RoundTrips r := fun r hr ↦ h r (List.mem_append_left _ hr)
  have hlast : ∀ r ∈ before ++ [last], codec.RoundTrips r := by
    intro r hr
    refine h r ?_
    simp only [List.mem_append, List.mem_cons] at hr ⊢
    tauto
  have hfurther : ∀ r ∈ further, codec.RoundTrips r := fun r hr ↦ h r (by simp [hr])
  have hfile := file_recordAll ⟨crashed codec before last cut⟩ hfurther
  rw [crashed_eq hcut hlast, List.append_assoc] at hfile
  have hlogger : (⟨crashed codec before last cut⟩ : FileAuditLogger).recordAll codec further =
      ⟨framed 10 codec.bytesOf before ++
        ((codec.bytesOf last).take cut ++ framed 10 codec.bytesOf further)⟩ := by
    rw [← hfile, crashed_eq hcut hlast]
  rw [FileAuditLogger.query, hlogger, readAllMatching_framed_append _ hbefore, filter_unconstrained]
  unfold readRest
  cases (pieces 10 ((codec.bytesOf last).take cut ++ framed 10 codec.bytesOf further)).foldlM
    (readLine codec { limit := limit }) before with
  | error e => rfl
  | ok matching => simp [AuditFilter.page, bind, Except.bind, pure, Except.pure]

theorem recovers_iff_of_ok {found : List AuditRecord}
    (hfound : found.length ≤ further.length + 1)
    (hread : ∀ limit, readRest codec before last cut further limit = .ok (before ++ found)) :
    Recovers codec before last cut further ↔ found = further := by
  have hquery : ∀ limit, before.length + 1 + further.length ≤ limit →
      ((⟨crashed codec before last cut⟩ : FileAuditLogger).recordAll codec further).query codec
        { limit := limit } = .ok (found.reverse ++ before.reverse) := by
    intro limit hlimit
    rw [query_crashed hcut h, hread, ← List.reverse_append]
    refine congrArg Except.ok (List.take_of_length_le ?_)
    rw [List.length_reverse, List.length_append]
    omega
  constructor
  · intro hrecovers
    have heq := (hquery _ le_rfl).symm.trans (hrecovers _ le_rfl)
    rw [Except.ok.injEq] at heq
    exact List.reverse_injective (List.append_cancel_right heq)
  · rintro rfl
    exact hquery

theorem not_recovers_of_error (e : AuditError)
    (hread : ∀ limit, readRest codec before last cut further limit = .error e) :
    ¬ Recovers codec before last cut further := by
  intro hrecovers
  have hquery := hrecovers _ le_rfl
  rw [query_crashed hcut h, hread] at hquery
  cases hquery

theorem recovers_of_cleanCut (hwhole : codec.WholeOnly last)
    (hclean : CleanCut codec last cut further) : Recovers codec before last cut further := by
  have hlast := h last (by simp)
  have hfurther : ∀ r ∈ further, codec.RoundTrips r := fun r hr ↦ h r (by simp [hr])
  refine (recovers_iff_of_ok hcut h (Nat.le_succ _) fun limit ↦ ?_).mpr rfl
  by_cases hne : cut = 0
  · have hlines : ∀ r ∈ further, 10 ∉ codec.bytesOf r := fun r hr ↦ (hfurther r hr).newline_notMem
    have hpieces := pieces_framed_append hlines []
    rw [List.append_nil] at hpieces
    rw [readRest, hne, List.take_zero, List.nil_append, hpieces, pieces, List.append_nil,
      foldlM_readLine _ hfurther, filter_unconstrained]
  · obtain hzero | ⟨rfl, hlt, hsome⟩ := hclean
    · exact absurd hzero hne
    · obtain ⟨start, hstart⟩ := Option.isSome_iff_exists.mp hsome
      rw [readRest_nil before hlast hne, readLine_start hlast hwhole hlt hne hstart,
        List.append_nil]

theorem cleanCut_of_recovers (hsep : ∀ next ∈ further, codec.Separates last next)
    (hrecovers : Recovers codec before last cut further) : CleanCut codec last cut further := by
  have hlast := h last (by simp)
  by_cases hne : cut = 0
  · exact .inl hne
  right
  cases further with
  | nil =>
    have hrest := readRest_nil before hlast hne
    have hlt : cut < (codec.bytesOf last).length := by
      refine lt_of_le_of_ne hcut fun heq ↦ ?_
      -- only the newline is missing, and the record is read
      have hread : ∀ limit, readRest codec before last cut [] limit = .ok (before ++ [last]) := by
        intro limit
        rw [hrest, heq, List.take_length, readLine_bytesOf _ _ hlast, filter_unconstrained]
      have hfound := (recovers_iff_of_ok hcut h (by simp) hread).mp hrecovers
      cases hfound
    refine ⟨rfl, hlt, ?_⟩
    rw [Option.isSome_iff_ne_none]
    intro hnone
    have herror : ∀ limit, readRest codec before last cut [] limit =
        .error (.io "stream did not contain valid UTF-8") := by
      intro limit
      rw [hrest, readLine, hnone]
    exact not_recovers_of_error hcut h _ herror hrecovers
  | cons next more =>
    exfalso
    have hnext := h next (by simp)
    have hmore : ∀ r ∈ more, codec.RoundTrips r := fun r hr ↦ h r (by simp [hr])
    have hrest := readRest_cons before cut hlast hnext hmore
    obtain ⟨e, herror⟩ | ⟨found, hfound, hlength, hok⟩ :=
      readLine_start_append hlast hnext hne (hsep next (by simp))
    · refine not_recovers_of_error hcut h e (fun limit ↦ ?_) hrecovers
      rw [hrest, herror]
      rfl
    · have hread : ∀ limit, readRest codec before last cut (next :: more) limit =
          .ok (before ++ (found ++ more)) := by
        intro limit
        rw [hrest, hok, ← List.append_assoc]
        rfl
      have heq := (recovers_iff_of_ok hcut h (by simp; omega) hread).mp hrecovers
      exact hfound (List.append_cancel_right (heq.trans (List.singleton_append).symm))

end Crash

/-- After a clean cut all complete and all further records are returned; and they are returned after
no other cut, if what is left of the last record before a further one is not read as the latter. -/
theorem recovers_iff_cleanCut {codec : AuditCodec} {before further : List AuditRecord}
    {last : AuditRecord} {cut : ℕ} (hcut : cut ≤ (codec.bytesOf last).length)
    (hcodec : ∀ r ∈ before ++ last :: further, codec.RoundTrips r)
    (hwhole : codec.WholeOnly last) :
    (CleanCut codec last cut further → Recovers codec before last cut further) ∧
    ((∀ next ∈ further, codec.Separates last next) →
      Recovers codec before last cut further → CleanCut codec last cut further) :=
  ⟨recovers_of_cleanCut hcut hcodec hwhole, cleanCut_of_recovers hcut hcodec⟩

/-- The crash left the brace of the last record, and nothing was written after it. -/
theorem recovers_after_brace :
    CleanCut sampleCodec (sampleRecord "é") 1 [] ∧
    Recovers sampleCodec [sampleRecord "b"] (sampleRecord "é") 1 [] := by
  have hclean : CleanCut sampleCodec (sampleRecord "é") 1 [] :=
    .inr ⟨rfl, by decide, by decide⟩
  have hwhole : sampleCodec.WholeOnly (sampleRecord "é") := by
    intro start hstart hne
    have hother : start ≠ "\x7bb\x7d" := by
      rintro rfl
      revert hstart
      decide
    refine ⟨"expected value at line 1 column 1", ?_⟩
    have hself : start ≠ "\x7bé\x7d" := hne
    simp [sampleCodec, hself, hother]
  refine ⟨hclean, (recovers_iff_cleanCut (by decide) (fun r hr ↦ ?_) hwhole).1 hclean⟩
  refine roundTrips_sample r ?_
  simp only [List.mem_append, List.mem_cons] at hr ⊢
  tauto

/-- After a cut behind the brace the first further record is lost; if only the newline is missing,
the record whose line is not complete is returned; and after a cut inside a character every query
fails. -/
theorem crash_loses_records :
    ¬ Recovers sampleCodec [] (sampleRecord "é") 1 [sampleRecord "b"] ∧
    ¬ Recovers sampleCodec [] (sampleRecord "é") 4 [] ∧
    ¬ Recovers sampleCodec [] (sampleRecord "é") 2 [] := by
  refine ⟨fun h ↦ ?_, fun h ↦ ?_, fun h ↦ ?_⟩
  · have hlength := congrArg (fun answer ↦ answer.toOption.map List.length) (h 2 le_rfl)
    revert hlength
    decide
  · have hlength := congrArg (fun answer ↦ answer.toOption.map List.length) (h 1 le_rfl)
    revert hlength
    decide
  · have hlength := congrArg (fun answer ↦ answer.toOption.map List.length) (h 1 le_rfl)
    revert hlength
    decide

end Runvane.Audit
