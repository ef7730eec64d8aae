import Runvane.Events.Dispatch
import Runvane.Library.Interference
import Runvane.Persistence.Retention

/-!
# The event watcher

`events/watcher.rs`: a watcher polls the store. A poll lists all runs, finds those that were started
or have finished since two watermarks, announces them in the order of time and run id, and moves the
watermarks to the latest of them. The store changes all the time, also in the middle of a poll.

What surrounds a watcher is a scene of any type in which there is a store, and which others change
(`Watched`). The watcher is described by a machine that is simpler than its code: the watermarks
move when the runs are listed, and what is still to be announced is a list (`Watched.induction`).
All results about watchers are invariants of this machine.

The first is `terminal_events_ordered`: the terminal events of a watcher are strictly ordered, and a
run has at most one of them.
-/

set_option autoImplicit false

namespace Runvane.Events

open Domain Library Persistence
open CallProgram (Amid Disturbed amid_seq amid_mono amid_foldlM amid_of_disturbed)
open Relation (ReflTransGen)

/-! ### Polls -/

/-- Counters of one poll. -/
structure WatchStats where
  started : ℕ := 0
  finished : ℕ := 0
  dispatched : ℕ := 0
  deriving DecidableEq, Repr

/-- The watermarks of a watcher. -/
structure Cursor where
  startedMs : ℤ
  finishedMs : ℤ
  deriving DecidableEq, Repr

/-- A watcher. Its dispatcher is outside. -/
structure Watcher where
  cursor : Cursor
  deriving DecidableEq, Repr

/-- A watcher that is anchored at the given boot time. -/
def Watcher.new (bootMs : ℤ) : Watcher := ⟨⟨bootMs, bootMs⟩⟩

inductive WatchCall
  | listRuns
  | getWorkflow (tenant name : String)
  | dispatch (d : WorkflowDef) (kind : EventKind) (ev : RunEventDoc)

abbrev WatchCall.Answer : WatchCall → Type
  | .listRuns => Except StorageError (List Run)
  | .getWorkflow .. => Except StorageError WorkflowRecord
  | .dispatch .. => MatchStats

/-- A program of the watcher; it never leaves early. -/
abbrev WatchProg (α : Type) : Type := CallProgram WatchCall WatchCall.Answer Empty α

def WatchCall.make (call : WatchCall) : WatchProg call.Answer := .request call

/-- A run to be announced, with the time and the kind of its event. -/
structure Candidate where
  atMs : ℤ
  kind : EventKind
  run : Run

namespace Candidate

/-- Events are ordered by time and run id. -/
def key (c : Candidate) : ℤ ×ₗ String := toLex (c.atMs, c.run.id.text)

def event (c : Candidate) (nowMs : ℤ) : RunEventDoc := .fromRun c.run c.kind nowMs

end Candidate

/-- When a run was started, if it is running now. -/
def startedStamp (run : Run) : Option (ℤ × EventKind) :=
  if run.status = .running then run.startedAtMs.map fun atMs ↦ (atMs, .runStarted) else none

/-- When a run finished, and how. -/
def finishedStamp (run : Run) : Option (ℤ × EventKind) := do
  let atMs ← run.finishedAtMs
  let kind ← RunEventDoc.terminalKindFor run.status
  pure (atMs, kind)

/-- The runs with a stamp after the watermark, in the order of their events. -/
def candidates (stamp : Run → Option (ℤ × EventKind)) (afterMs : ℤ) (runs : List Run) :
    List Candidate :=
  (runs.filterMap fun run ↦ (stamp run).bind fun (atMs, kind) ↦
    if afterMs < atMs then some ⟨atMs, kind, run⟩ else none).insertionSort
      fun a b ↦ a.key ≤ b.key

/-- The watermark after a batch: the time of its last candidate. -/
def newest (batch : List Candidate) (cursorMs : ℤ) : ℤ :=
  match batch.getLast? with
  | some c => c.atMs
  | none => cursorMs

/-- Loads the definition of a run and dispatches its event; without a definition it is dropped. -/
def Watcher.dispatch (nowMs : ℤ) (c : Candidate) : WatchProg Unit := do
  match ← (WatchCall.getWorkflow c.run.tenant c.run.defName).make with
  | .error _ => pure ()
  | .ok record => do
    let _ ← (WatchCall.dispatch record.definition c.kind (c.event nowMs)).make
    pure ()

/-- One pass over the store. A store that fails makes it a pass over nothing. -/
def Watcher.poll (watcher : Watcher) (nowMs : ℤ) : WatchProg (Watcher × WatchStats) := do
  match ← WatchCall.listRuns.make with
  | .error _ => pure (watcher, {})
  | .ok runs => do
    let started := candidates startedStamp watcher.cursor.startedMs runs
    let finished := candidates finishedStamp watcher.cursor.finishedMs runs
    started.foldlM (fun _ c ↦ dispatch nowMs c) ()
    finished.foldlM (fun _ c ↦ dispatch nowMs c) ()
    pure
      (⟨⟨newest started watcher.cursor.startedMs, newest finished watcher.cursor.finishedMs⟩⟩,
        ⟨started.length, finished.length, started.length + finished.length⟩)

/-! ### Surroundings -/

structure Emitted where
  kind : EventKind
  ev : RunEventDoc

/-- What surrounds a watcher: the scene that others work on, the stores that the watcher was listed
the runs of, the latest first, and the events that it has dispatched. -/
structure Watch (σ : Type) where
  scene : σ
  listed : List MemoryStore
  emitted : List Emitted

/-- The store of a scene, and what the watcher knows nothing of: the libraries, the order of the
hash map, and when the store fails. -/
structure WatchEnv (σ : Type) where
  lib : EventLibrary
  store : σ → MemoryStore
  order : Watch σ → IterationOrder Run
  fault : WatchCall → Watch σ → Option StorageError

variable {cursor : Cursor} {c : Candidate} {watcher : Watcher} {bootMs : ℤ}
  {listed : List MemoryStore} {cs : List Candidate}

section Watched

variable {σ : Type} (env : WatchEnv σ)

def WatchEnv.serve : Server WatchCall WatchCall.Answer (Watch σ)
  | .listRuns, w =>
    match env.fault .listRuns w with
    | some e => (.error e, w)
    | none =>
      ((env.store w.scene).listRuns (env.order w) {},
        { w with listed := env.store w.scene :: w.listed })
  | .getWorkflow tenant name, w =>
    match env.fault (.getWorkflow tenant name) w with
    | some e => (.error e, w)
    | none => ((env.store w.scene).getWorkflow tenant name, w)
  | .dispatch d kind ev, w =>
    ((buildDeliveries env.lib d kind ev).2, { w with emitted := w.emitted ++ [⟨kind, ev⟩] })

/-- Others move the scene on. What they may do can depend on what the watcher has done. -/
def Watch.Changes (move : Watch σ → σ → Prop) (w w' : Watch σ) : Prop :=
  ∃ scene, move w scene ∧ w' = { w with scene := scene }

/-- A watcher between two polls, and what surrounds it. It was booted in the scene `x₀`, and has
polled since, with changes before, between and within its polls. -/
inductive Watched (move : Watch σ → σ → Prop) (bootMs : ℤ) (x₀ : σ) : Watcher → Watch σ → Prop
  | boot : Watched move bootMs x₀ (.new bootMs) ⟨x₀, [], []⟩
  | change {watcher : Watcher} {w : Watch σ} {x : σ} (h : Watched move bootMs x₀ watcher w)
      (hmove : move w x) : Watched move bootMs x₀ watcher { w with scene := x }
  | poll {watcher watcher' : Watcher} {stats : WatchStats} {w w' : Watch σ} (nowMs : ℤ)
      (h : Watched move bootMs x₀ watcher w)
      (hpoll : Disturbed env.serve (Watch.Changes move) (watcher.poll nowMs, w)
        (.ret (watcher', stats), w')) : Watched move bootMs x₀ watcher' w'

/-! ### The machine -/

/-- What a watcher announces of the runs that it is listed. -/
def Cursor.batch (cursor : Cursor) (runs : List Run) : List Candidate :=
  candidates startedStamp cursor.startedMs runs ++ candidates finishedStamp cursor.finishedMs runs

/-- Where the watermarks of a watcher move when it is listed runs. -/
def Cursor.advance (cursor : Cursor) (runs : List Run) : Cursor :=
  ⟨newest (candidates startedStamp cursor.startedMs runs) cursor.startedMs,
    newest (candidates finishedStamp cursor.finishedMs runs) cursor.finishedMs⟩

/-- A condition on watermarks, on what is to be announced and on the surroundings is kept by every
step of the machine: others change the scene; runs are listed, when there is nothing to be
announced; a candidate is dropped, because its definition cannot be read; or it is announced. -/
structure Inductive (move : Watch σ → σ → Prop) (J : Cursor → List Candidate → Watch σ → Prop) :
    Prop where
  change : ∀ {cursor todo w x}, J cursor todo w → move w x → J cursor todo { w with scene := x }
  list : ∀ {cursor w runs}, J cursor [] w → env.fault .listRuns w = none →
    runs.Perm (env.store w.scene).runs.values →
    J (cursor.advance runs) (cursor.batch runs) { w with listed := env.store w.scene :: w.listed }
  drop : ∀ {cursor c todo w e}, J cursor (c :: todo) w →
    (env.serve (.getWorkflow c.run.tenant c.run.defName) w).1 = .error e → J cursor todo w
  tell : ∀ {cursor c todo w} (nowMs : ℤ), J cursor (c :: todo) w →
    J cursor todo { w with emitted := w.emitted ++ [⟨c.kind, c.event nowMs⟩] }

variable {env} {move : Watch σ → σ → Prop} {J : Cursor → List Candidate → Watch σ → Prop}

theorem Inductive.changes (h : Inductive env move J) {todo : List Candidate} {w w' : Watch σ}
    (hw : J cursor todo w) (hchanges : ReflTransGen (Watch.Changes move) w w') :
    J cursor todo w' := by
  induction hchanges with
  | refl => exact hw
  | tail _ hchange ih =>
    obtain ⟨x, hmove, rfl⟩ := hchange
    exact h.change ih hmove

/-- A candidate is announced or dropped. -/
theorem Inductive.amid_dispatch (h : Inductive env move J) {todo : List Candidate} {w : Watch σ}
    (hw : J cursor (c :: todo) w) (nowMs : ℤ) :
    Amid env.serve (Watch.Changes move) (fun _ _ ↦ True) (fun _ w' ↦ J cursor todo w')
      (fun _ _ ↦ True) (Watcher.dispatch nowMs c) w := by
  intro w₁ hw₁
  refine ⟨trivial, ?_⟩
  have hJ := h.changes hw hw₁
  have hsame : (env.serve (.getWorkflow c.run.tenant c.run.defName) w₁).2 = w₁ := by
    simp only [WatchEnv.serve]
    split <;> rfl
  rw [hsame]
  cases hrecord : (env.serve (.getWorkflow c.run.tenant c.run.defName) w₁).1 with
  | error e => exact h.drop hJ hrecord
  | ok record =>
    intro w₂ hw₂
    exact ⟨trivial, h.tell nowMs (h.changes hJ hw₂)⟩

theorem Inductive.amid_batch (h : Inductive env move J) (batch later : List Candidate)
    {w : Watch σ} (hw : J cursor (batch ++ later) w) (nowMs : ℤ) :
    Amid env.serve (Watch.Changes move) (fun _ _ ↦ True) (fun _ w' ↦ J cursor later w')
      (fun _ _ ↦ True) (batch.foldlM (fun _ c ↦ Watcher.dispatch nowMs c) ()) w := by
  refine amid_foldlM (fun rest _ w' ↦ J cursor (rest ++ later) w') ?_ batch () w hw
  intro c rest _ w' hw'
  exact h.amid_dispatch hw' nowMs

/-- A poll is a run of the machine from one point with nothing to be announced to the next. -/
theorem Inductive.amid_poll (h : Inductive env move J) {w : Watch σ} (hw : J watcher.cursor [] w)
    (nowMs : ℤ) :
    Amid env.serve (Watch.Changes move) (fun _ _ ↦ True) (fun result w' ↦ J result.1.cursor [] w')
      (fun _ _ ↦ True) (watcher.poll nowMs) w := by
  intro w₁ hw₁
  refine ⟨trivial, ?_⟩
  have hJ := h.changes hw hw₁
  cases hfault : env.fault .listRuns w₁ with
  | some e =>
    simp only [WatchEnv.serve, hfault]
    exact hJ
  | none =>
    obtain ⟨runs, hlist, hperm⟩ := (env.store w₁.scene).listRuns_default (env.order w₁)
    simp only [WatchEnv.serve, hfault, hlist]
    have hstarted := h.amid_batch _ _ (h.list hJ hfault hperm) nowMs
    change Amid _ _ _ _ _
      ((candidates startedStamp watcher.cursor.startedMs runs).foldlM _ () >>= _) _
    refine amid_seq hstarted fun _ w₂ hw₂ ↦ ?_
    exact amid_seq (h.amid_batch _ [] (by rwa [List.append_nil]) nowMs) fun _ _ hw₃ ↦ hw₃

/-- What the machine keeps holds of every watcher between its polls, if it holds when the watcher is
booted. -/
theorem Watched.induction (h : Inductive env move J) {x₀ : σ}
    (hboot : J ⟨bootMs, bootMs⟩ [] ⟨x₀, [], []⟩) {w : Watch σ}
    (hw : Watched env move bootMs x₀ watcher w) : J watcher.cursor [] w := by
  induction hw with
  | boot => exact hboot
  | change _ hmove ih => exact h.change ih hmove
  | poll nowMs _ hpoll ih =>
    obtain ⟨w₁, hchanges, hend⟩ := amid_of_disturbed (h.amid_poll ih nowMs) hpoll
    exact h.changes hend hchanges

/-- Moves that only depend on the scene may come in any number between two polls. -/
theorem Watched.changes {step : σ → σ → Prop} {x₀ x : σ} {w : Watch σ}
    (h : Watched env (fun w y ↦ step w.scene y) bootMs x₀ watcher w)
    (hsteps : ReflTransGen step w.scene x) :
    Watched env (fun w y ↦ step w.scene y) bootMs x₀ watcher { w with scene := x } := by
  induction hsteps with
  | refl => exact h
  | tail _ hstep ih => exact ih.change hstep

/-- A watcher and its surroundings after a poll that is not disturbed. -/
def Watcher.polled (env : WatchEnv σ) (nowMs : ℤ) (c : Watcher × Watch σ) : Watcher × Watch σ :=
  match (c.1.poll nowMs).run env.serve c.2 with
  | (.ok (watcher, _), w) => (watcher, w)

theorem Watched.polled {x₀ : σ} (c : Watcher × Watch σ) (h : Watched env move bootMs x₀ c.1 c.2)
    (nowMs : ℤ) :
    Watched env move bootMs x₀ (Watcher.polled env nowMs c).1 (Watcher.polled env nowMs c).2 := by
  have hend := CallProgram.reaches_run env.serve (c.1.poll nowMs) c.2
  unfold Watcher.polled
  rcases hrun : (c.1.poll nowMs).run env.serve c.2 with ⟨(reason | ⟨watcher, stats⟩), w⟩
  · exact reason.elim
  · rw [hrun] at hend
    exact h.poll nowMs (hend.disturbed _)

end Watched

/-! ### Batches -/

section Batches

variable {stamp : Run → Option (ℤ × EventKind)} {afterMs : ℤ} {runs : List Run}

theorem mem_candidates : c ∈ candidates stamp afterMs runs ↔
    c.run ∈ runs ∧ stamp c.run = some (c.atMs, c.kind) ∧ afterMs < c.atMs := by
  unfold candidates
  simp only [List.mem_insertionSort, List.mem_filterMap, Option.bind_eq_some_iff,
    Option.ite_none_right_eq_some, Option.some.injEq, Prod.exists]
  constructor
  · rintro ⟨run, hrun, atMs, kind, hstamp, hafter, rfl⟩
    exact ⟨hrun, hstamp, hafter⟩
  · rintro ⟨hrun, hstamp, hafter⟩
    exact ⟨c.run, hrun, c.atMs, c.kind, hstamp, hafter, rfl⟩

/-- The candidates of different runs are strictly ordered. -/
theorem pairwise_candidates (hids : (runs.map Run.id).Nodup) :
    (candidates stamp afterMs runs).Pairwise fun a b ↦ a.key < b.key := by
  have hsorted : (candidates stamp afterMs runs).Pairwise fun a b ↦ a.key ≤ b.key :=
    List.pairwise_insertionSort _ _
  have hne : (candidates stamp afterMs runs).Pairwise fun a b ↦ a.run.id ≠ b.run.id := by
    unfold candidates
    refine ((List.perm_insertionSort _ _).pairwise_iff fun h ↦ Ne.symm h).mpr ?_
    rw [List.pairwise_filterMap]
    refine (List.pairwise_map.mp hids).imp fun {a b} hne c hc c' hc' ↦ ?_
    simp only [Option.bind_eq_some_iff, Option.ite_none_right_eq_some, Option.some.injEq,
      Prod.exists] at hc hc'
    obtain ⟨_, _, _, _, rfl⟩ := hc
    obtain ⟨_, _, _, _, rfl⟩ := hc'
    exact hne
  refine (hsorted.and hne).imp fun {a b} ⟨hle, hids⟩ ↦ lt_of_le_of_ne hle fun heq ↦ hids ?_
  have htext : a.run.id.text = b.run.id.text := congrArg (fun key ↦ (ofLex key).2) heq
  exact congrArg Id.mk htext

theorem newest_cases (batch : List Candidate) (cursorMs : ℤ) :
    newest batch cursorMs = cursorMs ∧ batch = [] ∨
      ∃ c ∈ batch, newest batch cursorMs = c.atMs := by
  unfold newest
  cases hlast : batch.getLast? with
  | none => exact .inl ⟨rfl, List.getLast?_eq_none_iff.mp hlast⟩
  | some c => exact .inr ⟨c, List.mem_of_getLast? hlast, rfl⟩

/-- The watermark after a batch is that of its latest candidate. -/
theorem le_newest (hc : c ∈ candidates stamp afterMs runs) :
    c.atMs ≤ newest (candidates stamp afterMs runs) afterMs := by
  have hsorted : (candidates stamp afterMs runs).Pairwise fun a b ↦ a.key ≤ b.key :=
    List.pairwise_insertionSort _ _
  have hlast := hsorted.rel_getLast_of_rel_getLast_getLast hc le_rfl
  unfold newest
  rw [List.getLast?_eq_some_getLast (List.ne_nil_of_mem hc)]
  rcases Prod.Lex.le_iff.mp hlast with hlt | ⟨heq, -⟩
  · exact hlt.le
  · exact heq.le

theorem le_newest_self : afterMs ≤ newest (candidates stamp afterMs runs) afterMs := by
  rcases newest_cases (candidates stamp afterMs runs) afterMs with ⟨hsame, -⟩ | ⟨c, hc, hlast⟩
  · exact hsame.ge
  · rw [hlast]
    exact (mem_candidates.mp hc).2.2.le

end Batches

theorem kind_of_startedStamp {run : Run} {atMs : ℤ} {kind : EventKind}
    (h : startedStamp run = some (atMs, kind)) :
    run.status = .running ∧ run.startedAtMs = some atMs ∧ kind = .runStarted := by
  unfold startedStamp at h
  split_ifs at h with hrunning
  obtain ⟨started, hstarted, heq⟩ := Option.map_eq_some_iff.mp h
  obtain ⟨rfl, rfl⟩ := Prod.mk.inj heq
  exact ⟨hrunning, hstarted, rfl⟩

theorem finishedStamp_eq_some {run : Run} {atMs : ℤ} {kind : EventKind} :
    finishedStamp run = some (atMs, kind) ↔
      run.finishedAtMs = some atMs ∧ RunEventDoc.terminalKindFor run.status = some kind := by
  simp only [finishedStamp, Option.bind_eq_bind, Option.bind_eq_some_iff, Option.pure_def,
    Option.some.injEq, Prod.mk.injEq]
  constructor
  · rintro ⟨_, hfinished, _, hkind, rfl, rfl⟩
    exact ⟨hfinished, hkind⟩
  · rintro ⟨hfinished, hkind⟩
    exact ⟨atMs, hfinished, kind, hkind, rfl, rfl⟩

/-! ### The order of events -/

def stampFor (terminal : Bool) : Run → Option (ℤ × EventKind) :=
  if terminal then finishedStamp else startedStamp

/-- The watermark for terminal events, or for the others. -/
def Cursor.markFor (cursor : Cursor) (terminal : Bool) : ℤ :=
  if terminal then cursor.finishedMs else cursor.startedMs

/-- A candidate was found in a store that was listed, with the stamp of its run there. -/
def Candidate.Genuine (listed : List MemoryStore) (c : Candidate) : Prop :=
  (∃ s ∈ listed, s.runs.get? c.run.id = some c.run) ∧
    stampFor c.kind.isTerminal c.run = some (c.atMs, c.kind)

/-- Candidates from the listed stores, which are strictly ordered and not past the watermarks. -/
structure Timetable (cursor : Cursor) (listed : List MemoryStore) (cs : List Candidate) : Prop where
  genuine : ∀ c ∈ cs, c.Genuine listed
  ordered : ∀ terminal,
    (cs.filter (·.kind.isTerminal = terminal)).Pairwise fun a b ↦ a.key < b.key
  bounded : ∀ c ∈ cs, c.atMs ≤ cursor.markFor c.kind.isTerminal

theorem Timetable.sublist {cs' : List Candidate} (h : Timetable cursor listed cs)
    (hsub : cs'.Sublist cs) : Timetable cursor listed cs' where
  genuine c hc := h.genuine c (hsub.subset hc)
  ordered terminal := (h.ordered terminal).sublist (hsub.filter _)
  bounded c hc := h.bounded c (hsub.subset hc)

/-- What a watcher announces of a kind of events. -/
theorem filter_batch (cursor : Cursor) (runs : List Run) (terminal : Bool) :
    (cursor.batch runs).filter (·.kind.isTerminal = terminal) =
      candidates (stampFor terminal) (cursor.markFor terminal) runs := by
  have hstarted (c : Candidate) (hc : c ∈ candidates startedStamp cursor.startedMs runs) :
      c.kind.isTerminal = false := by
    rw [(kind_of_startedStamp (mem_candidates.mp hc).2.1).2.2]
    rfl
  have hfinished (c : Candidate) (hc : c ∈ candidates finishedStamp cursor.finishedMs runs) :
      c.kind.isTerminal = true :=
    (RunEventDoc.isTerminal_of_terminalKindFor
      (finishedStamp_eq_some.mp (mem_candidates.mp hc).2.1).2).1
  unfold Cursor.batch
  rw [List.filter_append]
  cases terminal with
  | false =>
    rw [List.filter_eq_self.mpr (by simpa using hstarted),
      List.filter_eq_nil_iff.mpr (by simpa using hfinished), List.append_nil]
    rfl
  | true =>
    rw [List.filter_eq_nil_iff.mpr (by simpa using hstarted),
      List.filter_eq_self.mpr (by simpa using hfinished), List.nil_append]
    rfl

theorem markFor_advance (cursor : Cursor) (runs : List Run) (terminal : Bool) :
    (cursor.advance runs).markFor terminal =
      newest (candidates (stampFor terminal) (cursor.markFor terminal) runs)
        (cursor.markFor terminal) := by
  cases terminal <;> rfl

theorem mem_batch {runs : List Run} (hc : c ∈ cursor.batch runs) :
    c ∈ candidates (stampFor c.kind.isTerminal) (cursor.markFor c.kind.isTerminal) runs := by
  rw [← filter_batch]
  exact List.mem_filter.mpr ⟨hc, by simp⟩

theorem key_lt_key {a b : Candidate} (h : a.atMs < b.atMs) : a.key < b.key :=
  Prod.Lex.lt_iff.mpr (.inl h)

/-- The timetable goes on with the batch of the next listing. -/
theorem Timetable.list (h : Timetable cursor listed cs) {s : MemoryStore} {runs : List Run}
    (hperm : runs.Perm s.runs.values) :
    Timetable (cursor.advance runs) (s :: listed) (cs ++ cursor.batch runs) where
  genuine c hc := by
    rcases List.mem_append.mp hc with hold | hnew
    · obtain ⟨⟨s', hs', hrun⟩, hstamp⟩ := h.genuine c hold
      exact ⟨⟨s', List.mem_cons_of_mem _ hs', hrun⟩, hstamp⟩
    · obtain ⟨hrun, hstamp, -⟩ := mem_candidates.mp (mem_batch hnew)
      exact ⟨⟨s, List.mem_cons_self, KeyedMap.mem_values.mp (hperm.mem_iff.mp hrun)⟩, hstamp⟩
  ordered terminal := by
    have hids : (runs.map Run.id).Nodup := (hperm.map Run.id).nodup_iff.mpr s.runs.nodup_keys
    rw [List.filter_append, filter_batch]
    refine List.pairwise_append.mpr ⟨h.ordered terminal, pairwise_candidates hids, ?_⟩
    intro a ha b hb
    obtain ⟨hmem, hkind⟩ := List.mem_filter.mp ha
    have hbound := h.bounded a hmem
    rw [of_decide_eq_true hkind] at hbound
    exact key_lt_key (hbound.trans_lt (mem_candidates.mp hb).2.2)
  bounded c hc := by
    rw [markFor_advance]
    rcases List.mem_append.mp hc with hold | hnew
    · exact (h.bounded c hold).trans le_newest_self
    · exact le_newest (mem_batch hnew)

def Emitted.Of (e : Emitted) (c : Candidate) : Prop := ∃ nowMs, e = ⟨c.kind, c.event nowMs⟩

/-- The events of a watcher and what it is to announce follow a timetable. -/
theorem inductive_timetable {σ : Type} (env : WatchEnv σ) (move : Watch σ → σ → Prop) :
    Inductive env move fun cursor todo w ↦
      ∃ told, List.Forall₂ Emitted.Of w.emitted told ∧
        Timetable cursor w.listed (told ++ todo) where
  change := fun h _ ↦ h
  list := by
    rintro cursor w runs ⟨told, hevents, htable⟩ - hperm
    rw [List.append_nil] at htable
    exact ⟨told, hevents, htable.list hperm⟩
  drop := by
    rintro cursor c todo w e ⟨told, hevents, htable⟩ -
    exact ⟨told, hevents, htable.sublist ((List.sublist_cons_self c todo).append_left told)⟩
  tell := by
    rintro cursor c todo w nowMs ⟨told, hevents, htable⟩
    refine ⟨told ++ [c], List.rel_append hevents (.cons ⟨nowMs, rfl⟩ .nil), ?_⟩
    rwa [List.append_assoc, List.singleton_append]

theorem timetable_of_watched {σ : Type} {env : WatchEnv σ} {move : Watch σ → σ → Prop} {x₀ : σ}
    {w : Watch σ} (h : Watched env move bootMs x₀ watcher w) :
    ∃ told, List.Forall₂ Emitted.Of w.emitted told ∧ Timetable watcher.cursor w.listed told := by
  have hboot : Timetable ⟨bootMs, bootMs⟩ [] [] := ⟨by simp, by simp, by simp⟩
  obtain ⟨told, hevents, htable⟩ :=
    h.induction (inductive_timetable env move) ⟨[], .nil, hboot⟩
  exact ⟨told, hevents, by rwa [List.append_nil] at htable⟩

def Watch.terminalEvents {σ : Type} (w : Watch σ) : List Emitted :=
  w.emitted.filter (·.kind.isTerminal)

def Emitted.finishedKey (e : Emitted) : Option (ℤ ×ₗ String) :=
  e.ev.finishedAtMs.map fun atMs ↦ toLex (atMs, e.ev.runId)

def KeepsSettled (earlier later : MemoryStore) : Prop :=
  ∀ id run run', earlier.runs.get? id = some run → run.isTerminal →
    later.runs.get? id = some run' →
      run'.status = run.status ∧ run'.finishedAtMs = run.finishedAtMs

/-- A run has the same finishing time in all listed stores in which it is terminal. -/
theorem finishedAtMs_of_settled
    (h : listed.Pairwise fun later earlier ↦ KeepsSettled earlier later) {s s' : MemoryStore}
    (hs : s ∈ listed) (hs' : s' ∈ listed) {id : RunId} {run run' : Run}
    (hrun : s.runs.get? id = some run) (hrun' : s'.runs.get? id = some run')
    (hterminal : run.isTerminal) (hterminal' : run'.isTerminal) :
    run.finishedAtMs = run'.finishedAtMs := by
  let Same (s s' : MemoryStore) : Prop := ∀ id run run', s.runs.get? id = some run →
    s'.runs.get? id = some run' → run.isTerminal → run'.isTerminal →
      run.finishedAtMs = run'.finishedAtMs
  have hsymm : Std.Symm Same := ⟨fun s s' h id run run' hrun hrun' hterminal hterminal' ↦
    (h id run' run hrun' hrun hterminal' hterminal).symm⟩
  have hself : ∀ s ∈ listed, Same s s := fun s _ id run run' hrun hrun' _ _ ↦
    congrArg Run.finishedAtMs (Option.some.inj (hrun.symm.trans hrun'))
  have hpairs : listed.Pairwise Same := h.imp fun hkeeps id run run' hrun hrun' _ hterminal' ↦
    (hkeeps id run' run hrun' hterminal' hrun).2
  exact hpairs.forall_of_forall hself hs hs' id run run' hrun hrun' hterminal hterminal'

theorem Candidate.Genuine.finished (h : c.Genuine listed) (hkind : c.kind.isTerminal) :
    c.run.finishedAtMs = some c.atMs ∧ c.run.isTerminal := by
  have hstamp := h.2
  rw [hkind] at hstamp
  obtain ⟨hfinished, hterminal⟩ := finishedStamp_eq_some.mp hstamp
  exact ⟨hfinished, (RunEventDoc.isTerminal_of_terminalKindFor hterminal).2⟩

/-- What the events of a watcher show of their candidates. -/
theorem map_eq_map_of_forall₂ {γ : Type} {shown : Emitted → γ} {meant : Candidate → γ}
    {events : List Emitted} (h : List.Forall₂ Emitted.Of events cs)
    (hshown : ∀ c ∈ cs, ∀ nowMs, shown ⟨c.kind, c.event nowMs⟩ = meant c) :
    events.map shown = cs.map meant := by
  induction h with
  | nil => rfl
  | cons hof _ ih =>
    obtain ⟨hfirst, hrest⟩ := List.forall_mem_cons.mp hshown
    obtain ⟨nowMs, rfl⟩ := hof
    rw [List.map_cons, List.map_cons, hfirst nowMs, ih hrest]

/-- The events of a watcher that are terminal, or the others, are those of strictly ordered
candidates from the listed stores. -/
theorem events_ordered {σ : Type} {env : WatchEnv σ} {move : Watch σ → σ → Prop} {x₀ : σ}
    {w : Watch σ} (h : Watched env move bootMs x₀ watcher w) (terminal : Bool) :
    ∃ cs, List.Forall₂ Emitted.Of (w.emitted.filter (·.kind.isTerminal = terminal)) cs ∧
      cs.Pairwise (fun a b ↦ a.key < b.key) ∧
      ∀ c ∈ cs, c.Genuine w.listed ∧ c.kind.isTerminal = terminal := by
  obtain ⟨told, hevents, htable⟩ := timetable_of_watched h
  refine ⟨told.filter (·.kind.isTerminal = terminal), List.rel_filter ?_ hevents,
    htable.ordered terminal, fun c hc ↦ ?_⟩
  · rintro e c ⟨nowMs, rfl⟩
    rfl
  · obtain ⟨hold, hkind⟩ := List.mem_filter.mp hc
    exact ⟨htable.genuine c hold, of_decide_eq_true hkind⟩

/-- However others change the store, and whenever it fails: the terminal events of a watcher are
strictly ordered by finishing time and run id, and, if terminal runs stay what they are, no run has
two of them. -/
theorem terminal_events_ordered {σ : Type} {env : WatchEnv σ} {move : Watch σ → σ → Prop}
    {bootMs : ℤ} {x₀ : σ} {watcher : Watcher} {w : Watch σ}
    (h : Watched env move bootMs x₀ watcher w)
    (hsettled : w.listed.Pairwise fun later earlier ↦ KeepsSettled earlier later) :
    (∃ keys : List (ℤ ×ₗ String), w.terminalEvents.map Emitted.finishedKey = keys.map some ∧
      keys.Pairwise (· < ·)) ∧ (w.terminalEvents.map (·.ev.runId)).Nodup := by
  obtain ⟨cs, hevents, hordered, hgenuine⟩ := events_ordered h true
  have hfinished (c : Candidate) (hc : c ∈ cs) :
      c.run.finishedAtMs = some c.atMs ∧ c.run.isTerminal :=
    (hgenuine c hc).1.finished (hgenuine c hc).2
  have hterminal : w.terminalEvents = w.emitted.filter (·.kind.isTerminal = true) := by
    simp [Watch.terminalEvents]
  rw [hterminal]
  refine ⟨⟨cs.map Candidate.key, ?_, List.pairwise_map.mpr hordered⟩, ?_⟩
  · rw [List.map_map]
    refine map_eq_map_of_forall₂ hevents fun c hc nowMs ↦ ?_
    simp only [Emitted.finishedKey, Candidate.event, RunEventDoc.fromRun, (hfinished c hc).1]
    rfl
  · have hruns : (w.emitted.filter (·.kind.isTerminal = true)).map (·.ev.runId) =
        cs.map (·.run.id.text) := map_eq_map_of_forall₂ hevents fun _ _ _ ↦ rfl
    rw [hruns, List.Nodup, List.pairwise_map]
    refine hordered.imp_of_mem fun {a b} ha hb hlt htext ↦ hlt.ne ?_
    obtain ⟨s, hs, hrun⟩ := (hgenuine a ha).1.1
    obtain ⟨s', hs', hrun'⟩ := (hgenuine b hb).1.1
    have hid : a.run.id = b.run.id := congrArg Id.mk htext
    have hsame := finishedAtMs_of_settled hsettled hs hs' (hid ▸ hrun) hrun' (hfinished a ha).2
      (hfinished b hb).2
    rw [(hfinished a ha).1, (hfinished b hb).1, Option.some.injEq] at hsame
    rw [Candidate.key, Candidate.key, hsame, hid]

/-- A store that does not fail, with the order of its ids. -/
def plainWatch {σ : Type} (store : σ → MemoryStore) : WatchEnv σ where
  lib := plainLibrary
  store := store
  order _ := .stored
  fault _ _ := none

def sampleSucceeded (name : String) (atMs : ℤ) : Run where
  id := ⟨name⟩
  tenant := "t"
  defName := "flow"
  status := .succeeded
  finishedAtMs := some atMs

def storeOf (runs : List Run) : MemoryStore :=
  runs.foldl (fun s run ↦ (s.putRun run).2)
    (MemoryStore.new.putWorkflow { tenant := "t", name := "flow", tasks := [] }).2

def sampleListing : MemoryStore :=
  storeOf [sampleSucceeded "run_b" 20, sampleSucceeded "run_a" 20]

def sampleFirstPoll : Watcher × Watch MemoryStore :=
  Watcher.polled (plainWatch id) 25 (.new 10, ⟨sampleListing, [], []⟩)

/-- Another run succeeds. -/
def sampleThird : Watcher × Watch MemoryStore :=
  (sampleFirstPoll.1,
    { sampleFirstPoll.2 with scene := (sampleListing.putRun (sampleSucceeded "run_c" 30)).2 })

def sampleSecondPoll : Watcher × Watch MemoryStore := Watcher.polled (plainWatch id) 35 sampleThird

theorem sampleSecondPoll_watched :
    Watched (plainWatch id) (fun _ _ ↦ True) 10 sampleListing
      sampleSecondPoll.1 sampleSecondPoll.2 := by
  have hfirst : Watched (plainWatch id) (fun _ _ ↦ True) 10 sampleListing
      sampleFirstPoll.1 sampleFirstPoll.2 := Watched.polled (_, _) .boot 25
  have hthird : Watched (plainWatch id) (fun _ _ ↦ True) 10 sampleListing
      sampleThird.1 sampleThird.2 := hfirst.change trivial
  exact hthird.polled sampleThird 35

theorem sampleSecondPoll_settled :
    sampleSecondPoll.2.listed.Pairwise fun later earlier ↦ KeepsSettled earlier later := by
  have hlisted : sampleSecondPoll.2.listed =
      [(sampleListing.putRun (sampleSucceeded "run_c" 30)).2, sampleListing] := rfl
  have hnew : sampleListing.runs.get? ⟨"run_c"⟩ = none := by decide
  rw [hlisted]
  refine List.pairwise_pair.mpr fun id run run' hrun _ hrun' ↦ ?_
  change (sampleListing.runs.put (sampleSucceeded "run_c" 30)).get? id = some run' at hrun'
  rw [KeyedMap.get?_put] at hrun'
  split_ifs at hrun' with hid
  · obtain rfl : (⟨"run_c"⟩ : RunId) = id := hid
    rw [hnew] at hrun
    cases hrun
  · rw [hrun] at hrun'
    obtain rfl := Option.some.inj hrun'
    exact ⟨rfl, rfl⟩

theorem terminal_events_ordered_sample :
    sampleSecondPoll.2.terminalEvents.map Emitted.finishedKey =
      [some (toLex (20, "run_a")), some (toLex (20, "run_b")), some (toLex (30, "run_c"))] ∧
    (sampleSecondPoll.2.terminalEvents.map (·.ev.runId)).Nodup :=
  ⟨by decide,
    (terminal_events_ordered sampleSecondPoll_watched sampleSecondPoll_settled).2⟩

end Runvane.Events
