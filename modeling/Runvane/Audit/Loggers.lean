import Runvane.Audit.Records
import Runvane.Engine.Expr
import Runvane.Library.TextLines

/-!
# The audit loggers

The logger in memory keeps the newest records of its capacity at the front of a queue. The logger on
a file appends every record as a line of JSON, and a query reads the whole file: a line that is not
a record is passed over, a line that is no text fails the query.

Over an empty file both loggers answer as the list of the recorded records does, the one in memory
with its last records only (`loggers_agree`).
-/

set_option autoImplicit false

namespace Runvane.Audit

open Library Domain Engine

/-! ### In memory -/

structure MemoryAuditLogger where
  maxCapacity : ℕ
  records : List AuditRecord := []

namespace MemoryAuditLogger

/-- A logger that keeps so many records, and at least one. -/
def new (maxCapacity : ℕ) : MemoryAuditLogger where
  maxCapacity := max maxCapacity 1

/-- Appends a record at the front, and drops the oldest one of a full queue. -/
def record (logger : MemoryAuditLogger) (r : AuditRecord) :
    Except AuditError Unit × MemoryAuditLogger :=
  let kept := if logger.maxCapacity ≤ logger.records.length then logger.records.dropLast
    else logger.records
  (.ok (), { logger with records := r :: kept })

def query (logger : MemoryAuditLogger) (f : AuditFilter) : Except AuditError (List AuditRecord) :=
  .ok (f.page (logger.records.filter f.matchesRecord))

def count (logger : MemoryAuditLogger) (f : AuditFilter) : Except AuditError ℕ :=
  .ok (logger.records.filter f.matchesRecord).length

def recordAll (logger : MemoryAuditLogger) (records : List AuditRecord) : MemoryAuditLogger :=
  records.foldl (fun logger r ↦ (logger.record r).2) logger

theorem maxCapacity_recordAll (logger : MemoryAuditLogger) (records : List AuditRecord) :
    (logger.recordAll records).maxCapacity = logger.maxCapacity := by
  induction records generalizing logger with
  | nil => rfl
  | cons r records ih => exact (ih (logger.record r).2).trans rfl

/-- One more record pushes the oldest one out of a full queue. -/
theorem records_record {capacity : ℕ} (hcapacity : 1 ≤ capacity) {logger : MemoryAuditLogger}
    {recorded : List AuditRecord} (hmax : logger.maxCapacity = capacity)
    (h : logger.records = recorded.take capacity) (r : AuditRecord) :
    (logger.record r).2.records = (r :: recorded).take capacity := by
  obtain ⟨room, rfl⟩ : ∃ room, capacity = room + 1 := ⟨capacity - 1, by omega⟩
  have hkept : (if room + 1 ≤ (recorded.take (room + 1)).length then
      (recorded.take (room + 1)).dropLast else recorded.take (room + 1)) = recorded.take room := by
    rw [List.length_take]
    split_ifs with hfull
    · rw [List.dropLast_eq_take, List.length_take, List.take_take]
      congr 1
      omega
    · rw [List.take_of_length_le (by omega), List.take_of_length_le (by omega)]
  simp only [record, hmax, h, hkept, List.take_succ_cons]

/-- The logger holds the newest records of its capacity. -/
theorem records_recordAll {capacity : ℕ} (hcapacity : 1 ≤ capacity) (records : List AuditRecord) :
    ((new capacity).recordAll records).records = records.reverse.take capacity := by
  induction records using List.reverseRecOn with
  | nil => simp [recordAll, new]
  | append_singleton records r ih =>
    have hmax : ((new capacity).recordAll records).maxCapacity = capacity := by
      rw [maxCapacity_recordAll]
      exact max_eq_left hcapacity
    rw [List.reverse_append, recordAll, List.foldl_append]
    exact records_record hcapacity hmax ih r

end MemoryAuditLogger

/-! ### On a file -/

/-- `serde_json` on audit records. -/
structure AuditCodec where
  toString : AuditRecord → Except String String
  fromStr : String → Except String AuditRecord

structure FileAuditLogger where
  file : List UInt8

namespace FileAuditLogger

/-- Appends the record as a line. -/
def record (codec : AuditCodec) (logger : FileAuditLogger) (r : AuditRecord) :
    Except AuditError Unit × FileAuditLogger :=
  match codec.toString r with
  | .error message => (.error (.serialization message), logger)
  | .ok serialized => (.ok (), ⟨logger.file ++ utf8Bytes serialized ++ [10]⟩)

/-- One line of the file. The carriage return that ends a line goes with the white space. -/
def readLine (codec : AuditCodec) (f : AuditFilter) (matching : List AuditRecord)
    (line : List UInt8) : Except AuditError (List AuditRecord) :=
  match textOf? line with
  | none => .error (.io "stream did not contain valid UTF-8")
  | some text =>
    let trimmed := trim text.toList
    if trimmed.isEmpty then .ok matching
    else
      match codec.fromStr (String.ofList trimmed) with
      | .ok r => if f.matchesRecord r then .ok (matching ++ [r]) else .ok matching
      | .error _ => .ok matching

def readAllMatching (codec : AuditCodec) (logger : FileAuditLogger) (f : AuditFilter) :
    Except AuditError (List AuditRecord) := do
  let matching ← (pieces 10 logger.file).foldlM (readLine codec f) []
  return matching.reverse

/-- The page of the records that match. -/
def query (codec : AuditCodec) (logger : FileAuditLogger) (f : AuditFilter) :
    Except AuditError (List AuditRecord) := do
  let matching ← logger.readAllMatching codec f
  return f.page matching

/-- The number of records that match. -/
def count (codec : AuditCodec) (logger : FileAuditLogger) (f : AuditFilter) :
    Except AuditError ℕ := do
  let matching ← logger.readAllMatching codec f
  return matching.length

def recordAll (codec : AuditCodec) (logger : FileAuditLogger) (records : List AuditRecord) :
    FileAuditLogger :=
  records.foldl (fun logger r ↦ (logger.record codec r).2) logger

end FileAuditLogger

namespace AuditCodec

def textOf (codec : AuditCodec) (r : AuditRecord) : String := (codec.toString r).toOption.getD ""

def bytesOf (codec : AuditCodec) (r : AuditRecord) : List UInt8 := utf8Bytes (codec.textOf r)

/-- The record is written as an object of JSON on one line, and read back from it. -/
structure RoundTrips (codec : AuditCodec) (r : AuditRecord) : Prop where
  written : codec.toString r = .ok (codec.textOf r)
  read : codec.fromStr (codec.textOf r) = .ok r
  object : ∃ fields, (codec.textOf r).toList = '\x7b' :: (fields ++ ['\x7d'])
  oneLine : '\n' ∉ (codec.textOf r).toList

variable {codec : AuditCodec} {r : AuditRecord}

theorem RoundTrips.newline_notMem (h : codec.RoundTrips r) : 10 ∉ codec.bytesOf r :=
  Library.newline_notMem h.oneLine

theorem RoundTrips.trim_textOf (h : codec.RoundTrips r) :
    trim (codec.textOf r).toList = (codec.textOf r).toList := by
  obtain ⟨fields, hfields⟩ := h.object
  rw [hfields]
  exact trim_eq_self rfl rfl

theorem RoundTrips.textOf_ne_empty (h : codec.RoundTrips r) : codec.textOf r ≠ "" := by
  obtain ⟨fields, hfields⟩ := h.object
  intro hempty
  rw [hempty] at hfields
  cases hfields

end AuditCodec

variable (f : AuditFilter) (matching : List AuditRecord)

namespace FileAuditLogger

variable {codec : AuditCodec} {r : AuditRecord} {records : List AuditRecord}

theorem file_recordAll (logger : FileAuditLogger)
    (h : ∀ r ∈ records, codec.RoundTrips r) :
    (logger.recordAll codec records).file = logger.file ++ framed 10 codec.bytesOf records := by
  induction records using List.reverseRecOn with
  | nil => simp [recordAll, framed]
  | append_singleton records r ih =>
    have hrecords := ih fun r hr ↦ h r (List.mem_append_left _ hr)
    have hwritten := (h r (by simp)).written
    rw [recordAll, List.foldl_append, List.foldl_cons, List.foldl_nil, record, hwritten]
    show (logger.recordAll codec records).file ++ codec.bytesOf r ++ [10] = _
    rw [hrecords, framed_append]
    simp [framed]

/-- A line with a text that is read as a record. -/
theorem readLine_of_ok {line : List UInt8} {text : String} (htext : utf8Bytes text = line)
    (hne : text ≠ "") (htrim : trim text.toList = text.toList)
    (hread : codec.fromStr text = .ok r) :
    readLine codec f matching line = .ok (matching ++ [r].filter f.matchesRecord) := by
  have hempty : text.toList.isEmpty = false := by
    simpa using hne
  simp only [readLine, textOf?_eq_some_iff.mpr htext, htrim, hempty, String.ofList_toList, hread]
  by_cases hmatches : f.matchesRecord r
  · simp [hmatches]
  · simp [hmatches]

theorem readLine_bytesOf (h : codec.RoundTrips r) :
    readLine codec f matching (codec.bytesOf r) = .ok (matching ++ [r].filter f.matchesRecord) :=
  readLine_of_ok f matching rfl h.textOf_ne_empty h.trim_textOf h.read

/-- Reading the lines of records takes those that match. -/
theorem foldlM_readLine (h : ∀ r ∈ records, codec.RoundTrips r) (matching : List AuditRecord) :
    (records.map codec.bytesOf).foldlM (readLine codec f) matching =
      .ok (matching ++ records.filter f.matchesRecord) := by
  have hsingle : records.flatMap (fun r ↦ [r].filter f.matchesRecord) =
      records.filter f.matchesRecord := by
    induction records with
    | nil => rfl
    | cons r records ih =>
      rw [List.flatMap_cons, ih fun r hr ↦ h r (List.mem_cons_of_mem _ hr), List.filter_cons]
      by_cases hmatches : f.matchesRecord r
      · simp [hmatches]
      · simp [hmatches]
  rw [← hsingle]
  exact foldlM_map_of_forall (fun r hr matching ↦ readLine_bytesOf f matching (h r hr)) matching

/-- A file whose lines are records, and then more. -/
theorem readAllMatching_framed_append (h : ∀ r ∈ records, codec.RoundTrips r) (rest : List UInt8) :
    readAllMatching codec ⟨framed 10 codec.bytesOf records ++ rest⟩ f =
      (do
        let matching ← (pieces 10 rest).foldlM (readLine codec f) (records.filter f.matchesRecord)
        return matching.reverse) := by
  have hlines : ∀ r ∈ records, 10 ∉ codec.bytesOf r := fun r hr ↦ (h r hr).newline_notMem
  rw [readAllMatching, pieces_framed_append hlines, List.foldlM_append, foldlM_readLine f h]
  rfl

theorem readAllMatching_recordAll (h : ∀ r ∈ records, codec.RoundTrips r) :
    ((⟨[]⟩ : FileAuditLogger).recordAll codec records).readAllMatching codec f =
      .ok (records.reverse.filter f.matchesRecord) := by
  have hfile := file_recordAll ⟨[]⟩ h
  have hread := readAllMatching_framed_append f h []
  rw [List.append_nil] at hread
  rw [show (⟨[]⟩ : FileAuditLogger).recordAll codec records = ⟨framed 10 codec.bytesOf records⟩ by
    rw [← List.nil_append (framed _ _ _), ← hfile], hread, List.filter_reverse]
  rfl

end FileAuditLogger

/-! ### Both loggers -/

/-- Both loggers answer from the matching records, newest first, with the page that is asked for:
the logger in memory from the last records of its capacity, the logger on an empty file from all.
They agree as long as no more than the capacity were recorded. -/
theorem loggers_agree (codec : AuditCodec) {capacity : ℕ} (hcapacity : 1 ≤ capacity)
    {records : List AuditRecord} (hcodec : ∀ r ∈ records, codec.RoundTrips r) (f : AuditFilter) :
    let memory := (MemoryAuditLogger.new capacity).recordAll records
    let file := (⟨[]⟩ : FileAuditLogger).recordAll codec records
    let last := records.drop (records.length - capacity)
    memory.query f = .ok (f.page (last.filter f.matchesRecord).reverse) ∧
    memory.count f = .ok (last.countP f.matchesRecord) ∧
    file.query codec f = .ok (f.page (records.filter f.matchesRecord).reverse) ∧
    file.count codec f = .ok (records.countP f.matchesRecord) ∧
    (records.length ≤ capacity →
      memory.query f = file.query codec f ∧ memory.count f = file.count codec f) := by
  intro memory file last
  have hkept : memory.records = last.reverse := by
    rw [MemoryAuditLogger.records_recordAll hcapacity, List.take_reverse]
  have hread := FileAuditLogger.readAllMatching_recordAll f hcodec
  have hmemory : memory.query f = .ok (f.page (last.filter f.matchesRecord).reverse) := by
    rw [MemoryAuditLogger.query, hkept, List.filter_reverse]
  have hmemoryCount : memory.count f = .ok (last.countP f.matchesRecord) := by
    rw [MemoryAuditLogger.count, hkept, List.filter_reverse, List.length_reverse,
      List.countP_eq_length_filter]
  have hfile : file.query codec f = .ok (f.page (records.filter f.matchesRecord).reverse) := by
    rw [FileAuditLogger.query, hread, List.filter_reverse]
    rfl
  have hfileCount : file.count codec f = .ok (records.countP f.matchesRecord) := by
    rw [FileAuditLogger.count, hread, List.countP_eq_length_filter, ← List.length_reverse,
      ← List.filter_reverse]
    rfl
  refine ⟨hmemory, hmemoryCount, hfile, hfileCount, fun hle ↦ ?_⟩
  have hall : last = records := by
    rw [show last = records.drop (records.length - capacity) from rfl, Nat.sub_eq_zero_of_le hle,
      List.drop_zero]
  rw [hmemory, hmemoryCount, hfile, hfileCount, hall]
  exact ⟨rfl, rfl⟩

def sampleRecord (resource : String) : AuditRecord :=
  .new ⟨"au_" ++ resource⟩ 0 (.system "retention") (.retentionPurged 1) .success resource

/-- A codec for two such records, one of which needs more than one byte for a character. -/
def sampleCodec : AuditCodec where
  toString r := .ok ("\x7b" ++ r.resourceType ++ "\x7d")
  fromStr text :=
    if text = "\x7bé\x7d" then .ok (sampleRecord "é")
    else if text = "\x7bb\x7d" then .ok (sampleRecord "b")
    else .error "expected value at line 1 column 1"

theorem roundTrips_sample :
    ∀ r ∈ [sampleRecord "é", sampleRecord "b"], sampleCodec.RoundTrips r := by
  intro r hr
  rw [List.mem_pair] at hr
  obtain rfl | rfl := hr
  · exact ⟨rfl, rfl, ⟨['é'], by decide⟩, by decide⟩
  · have htext : sampleCodec.textOf (sampleRecord "b") = "\x7bb\x7d" := by decide
    refine ⟨rfl, ?_, ⟨['b'], by decide⟩, by decide⟩
    rw [htext]
    simp [sampleCodec]

/-- Two records, of which the logger in memory has room for one. -/
theorem loggers_agree_two :
    ((MemoryAuditLogger.new 1).recordAll [sampleRecord "é", sampleRecord "b"]).query
      { limit := 10 } = .ok [sampleRecord "b"] ∧
    ((⟨[]⟩ : FileAuditLogger).recordAll sampleCodec [sampleRecord "é", sampleRecord "b"]).query
      sampleCodec { limit := 10 } = .ok [sampleRecord "b", sampleRecord "é"] := by
  have hagree := loggers_agree sampleCodec le_rfl roundTrips_sample { limit := 10 }
  exact ⟨hagree.1, hagree.2.2.1⟩

end Runvane.Audit
