import Runvane.Events.Watcher
import Runvane.Scheduler.History

/-!
# When a run starts

The starting time of a run is meant to be the time of its first dispatch, and a watcher announces
the start of a run when it has moved past its watermark. But every dispatch writes the starting time
anew, also that of a run which was queued again for another attempt. So a run starts as often as it
is dispatched, and a watcher announces each of these starts (`restarted`).

Here the life of a run is taken call by call (`LifeMove`), so that polls of a watcher can come
between any two calls of it. Where no run that was started before is dispatched, the starting time
never changes and there is one start to be announced (`run_starts_once`).
-/

set_option autoImplicit false

namespace Runvane.Events

open Domain Library Persistence Scheduler
open CallProgram (Meets After Calls Reaches keeps_mono)
open Relation (ReflTransGen)

/-! ### The life of a run, call by call -/

/-- What is being done with a run: what is left of an attempt or of a dispatch. -/
inductive Activity
  | idle
  | attempt (p : Prog ExecutorError AttemptOutcome)
  | dispatch (p : Prog StorageError Unit)

/-- The world, and what is being done with the run. -/
structure LifeScene where
  world : World
  doing : Activity

/-- The scene after the next call of what is being done. -/
def LifeScene.call (env : Env) (x : LifeScene) : LifeScene :=
  match x.doing with
  | .idle => x
  | .attempt p =>
    let after := CallProgram.advance (serve env) (p, x.world)
    ⟨after.2, .attempt after.1⟩
  | .dispatch p =>
    let after := CallProgram.advance (serve env) (p, x.world)
    ⟨after.2, .dispatch after.1⟩

/-- One step in the life of a run. An attempt or a dispatch takes the place of what was being done,
be it at its end or not. Dispatches begin in stores that allow them. An operator may cancel the run,
and others may change what does not concern it, at any time. -/
inductive LifeMove (env : Env) (r : RunId) (mayDispatch : MemoryStore → Prop) :
    LifeScene → LifeScene → Prop
  | attempt (ex : RunExecutor) (token : Option ClaimToken) (leaseMs : ℤ) (x : LifeScene) :
      LifeMove env r mayDispatch x ⟨x.world, .attempt (attemptWithToken ex r token leaseMs)⟩
  | dispatch (x : LifeScene) (h : mayDispatch x.world.store) :
      LifeMove env r mayDispatch x ⟨x.world, .dispatch (markRunning r)⟩
  | call (x : LifeScene) : LifeMove env r mayDispatch x (x.call env)
  | cancel (nowMs : ℤ) (x : LifeScene) :
      LifeMove env r mayDispatch x ⟨x.world.after env (.store (.cancelRun r nowMs)), x.doing⟩
  | other {x : LifeScene} {s : MemoryStore} (h : Undisturbed r x.world.store s) :
      LifeMove env r mayDispatch x ⟨⟨s, x.world.log⟩, x.doing⟩

def Unstarted (r : RunId) (s : MemoryStore) : Prop :=
  ∀ run, s.runs.get? r = some run → run.status = .queued → run.startedAtMs = none

def startOf (r : RunId) (s : MemoryStore) : Option (Option ℤ) :=
  (s.runs.get? r).map Run.startedAtMs

/-! ### What is written -/

def ReadsStart (r : RunId) (start : Option (Option ℤ)) : (call : Call) → call.Answer → Prop
  | .store (.getRun id), .ok run => run.id = id ∧ (id = r → some run.startedAtMs = start)
  | _, _ => True

def ReadsOpen (r : RunId) : (call : Call) → call.Answer → Prop
  | .store (.getRun id), .ok run => id = r → run.status ≠ .queued
  | _, _ => True

def IsPutRun (call : Call) : Prop := ∃ run, call = .store (.putRun run)

theorem IsPutRun.not_leavesRuns {call : Call} (h : IsPutRun call) : ¬ call.LeavesRuns := by
  obtain ⟨run, rfl⟩ := h
  exact id

theorem RunWrite.startedAtMs_eq {run written : Run} (h : RunWrite run written) :
    written.startedAtMs = run.startedAtMs := by
  cases h <;> rfl

variable {s s' : MemoryStore}

section Calls

variable {env : Env} {r : RunId} {w : World}

theorem startOf_of_runs (h : s'.runs.get? r = s.runs.get? r) : startOf r s' = startOf r s := by
  unfold startOf
  rw [h]

theorem startOf_after {call : Call} (h : call.LeavesRuns) :
    startOf r (w.after env call).store = startOf r w.store :=
  startOf_of_runs (by rw [runs_after env w call h])

theorem startOf_putRun {run : Run} (h : run.id = r → startOf r w.store = some run.startedAtMs) :
    startOf r (w.after env (.store (.putRun run))).store = startOf r w.store := by
  have hget : (w.after env (.store (.putRun run))).store.runs.get? r =
      if run.id = r then some run else w.store.runs.get? r := KeyedMap.get?_put ..
  by_cases hid : run.id = r
  · rw [h hid, startOf, hget, if_pos hid]
    rfl
  · rw [startOf, hget, if_neg hid]
    rfl

/-- A cancellation keeps the starting time, and does not queue the run. -/
theorem cancelRun_keeps (s : MemoryStore) (r : RunId) (nowMs : ℤ) :
    startOf r (s.cancelRun r nowMs).2 = startOf r s ∧
      ∀ run, (s.cancelRun r nowMs).2.runs.get? r = some run → run.status = .queued →
        s.runs.get? r = some run := by
  unfold startOf
  rcases s.cancelRun_cases r nowMs with ⟨-, hstore⟩ | ⟨run, hrun, -, hstore⟩ <;> rw [hstore]
  · exact ⟨rfl, fun _ hrun _ ↦ hrun⟩
  · have hid : run.id = r := KeyedMap.key_of_get? hrun
    simp only [KeyedMap.get?_put, hid, if_true, hrun, Option.map_some, Option.some.injEq, true_and]
    rintro run' rfl hqueued
    cases hqueued

theorem readsStart_answer (call : Call) :
    ReadsStart r (startOf r w.store) call (env.answer w call).1 := by
  cases call with
  | store call =>
    cases call with
    | getRun id =>
      show ReadsStart r (startOf r w.store) (.store (.getRun id)) (w.store.getRun id)
      cases hrun : w.store.getRun id with
      | error e => trivial
      | ok run =>
        have hstored := MemoryStore.getRun_eq_ok.mp hrun
        refine ⟨KeyedMap.key_of_get? hstored, ?_⟩
        rintro rfl
        rw [startOf, hstored]
        rfl
    | _ => trivial
  | _ => trivial

theorem readsOpen_answer (h : ∀ run, w.store.runs.get? r = some run → run.status ≠ .queued)
    (call : Call) : ReadsOpen r call (env.answer w call).1 := by
  cases call with
  | store call =>
    cases call with
    | getRun id =>
      show ReadsOpen r (.store (.getRun id)) (w.store.getRun id)
      cases hrun : w.store.getRun id with
      | error e => trivial
      | ok run =>
        rintro rfl
        exact h run (MemoryStore.getRun_eq_ok.mp hrun)
    | _ => trivial
  | _ => trivial

variable (env) in
/-- No call of an attempt changes the starting time. -/
theorem startOf_attemptCall {token : Option ClaimToken} {leaseMs : ℤ} {call : Call}
    (hcall : AttemptCall (ReadsStart r (startOf r w.store)) r token leaseMs call) :
    startOf r (w.after env call).store = startOf r w.store := by
  cases call with
  | store call =>
    cases call with
    | putRun written =>
      obtain ⟨run, ⟨-, hstart⟩, -, hwrite⟩ := hcall.putRun
      refine startOf_putRun fun _ ↦ ?_
      rw [RunWrite.startedAtMs_eq hwrite]
      exact (hstart rfl).symm
    | deleteRun | cancelRun =>
      rcases hcall.attempting with (h | h) | (h | h) | h <;> cases h
    | _ => exact startOf_after trivial
  | _ => exact startOf_after trivial

end Calls

/-- A dispatch that does not read its run as queued writes none. -/
theorem meets_markRunning_of_open (r : RunId) :
    (markRunning r).Meets (ReadsOpen r) Call.LeavesRuns fun _ ↦ True := by
  refine ⟨trivial, fun answer hanswer ↦ ?_⟩
  cases answer with
  | error e => trivial
  | ok run =>
    change (ite _ _ _ : Prog _ _).Meets _ _ _
    have hopen : run.status ≠ .queued := hanswer rfl
    split_ifs
    · trivial
    · trivial

/-- A dispatch writes at most one run, as the last thing it does. -/
theorem after_markRunning (r : RunId) :
    (markRunning r).After (fun call _ ↦ IsPutRun call) Call.LeavesRuns := by
  refine ⟨fun _ hput ↦ absurd trivial hput.not_leavesRuns, fun answer ↦ ?_⟩
  cases answer with
  | error e => trivial
  | ok run =>
    change (ite _ _ _ : Prog _ _).After _ _
    split_ifs
    · trivial
    · trivial
    · split
      · trivial
      · refine ⟨fun _ hput ↦ absurd trivial hput.not_leavesRuns, fun now ↦ ?_⟩
        refine ⟨fun answer _ ↦ ?_, fun answer ↦ ?_⟩
        · cases answer <;> trivial
        · cases answer <;> trivial

theorem calls_markRunning (r : RunId) :
    (markRunning r).Calls fun call ↦ IsPutRun call ∨ call.LeavesRuns := by
  refine CallProgram.calls_of_meets (meets_markRunning r 0) fun call hcall ↦ ?_
  cases call with
  | store call =>
    cases call with
    | putRun run => exact .inl ⟨run, rfl⟩
    | deleteRun | cancelRun => exact hcall.elim
    | _ => exact .inr trivial
  | _ => exact .inr trivial

/-! ### The starting time stays -/

/-- What is left of an attempt writes the run with the starting time it has. What is left of a
dispatch writes no run at all, or comes first and writes one at its end, or will find that the run
is not queued. -/
def Activity.Steady (r : RunId) (s : MemoryStore) : Activity → Prop
  | .idle => True
  | .attempt p => ∃ token leaseMs post, p.Meets (ReadsStart r (startOf r s))
      (AttemptCall (ReadsStart r (startOf r s)) r token leaseMs) post
  | .dispatch p => p.Calls Call.LeavesRuns ∨
      (startOf r s = some none ∧ p.After (fun call _ ↦ IsPutRun call) Call.LeavesRuns ∧
        p.Calls fun call ↦ IsPutRun call ∨ call.LeavesRuns) ∨
      ((∀ run, s.runs.get? r = some run → run.status ≠ .queued) ∧
        p.Meets (ReadsOpen r) Call.LeavesRuns fun _ ↦ True)

/-- A starting time that is there stays. -/
def KeepsStart (r : RunId) (s s' : MemoryStore) : Prop :=
  ∀ atMs, startOf r s = some (some atMs) → startOf r s' = some (some atMs)

variable {env : Env} {r : RunId} {x y : LifeScene}

theorem keepsStart_of_eq (h : startOf r s' = startOf r s) :
    KeepsStart r s s' := fun _ hstart ↦ h.trans hstart

/-- What is being done stays steady when others keep the starting time and do not queue the run. -/
theorem Activity.Steady.of_eq {doing : Activity} (h : doing.Steady r s)
    (hstart : startOf r s' = startOf r s)
    (hqueued : ∀ run, s'.runs.get? r = some run → run.status = .queued → s.runs.get? r = some run) :
    doing.Steady r s' := by
  cases doing with
  | idle => trivial
  | attempt p =>
    unfold Activity.Steady
    rw [hstart]
    exact h
  | dispatch p =>
    rcases h with hleaves | ⟨hnone, hrest⟩ | ⟨hopen, hmeets⟩
    · exact .inl hleaves
    · exact .inr (.inl ⟨hstart.trans hnone, hrest⟩)
    · exact .inr (.inr ⟨fun run hrun hq ↦ hopen run (hqueued run hrun hq) hq, hmeets⟩)

/-- The next call of what is being done keeps the starting time. -/
theorem Activity.Steady.call (h : x.doing.Steady r x.world.store) :
    (x.call env).doing.Steady r (x.call env).world.store ∧
      KeepsStart r x.world.store (x.call env).world.store := by
  obtain ⟨w, doing⟩ := x
  cases doing with
  | idle => exact ⟨trivial, keepsStart_of_eq rfl⟩
  | attempt p =>
    obtain ⟨token, leaseMs, post, hmeets⟩ := h
    cases p with
    | ret | abort => exact ⟨⟨token, leaseMs, post, hmeets⟩, keepsStart_of_eq rfl⟩
    | call i next =>
      obtain ⟨hi, hnext⟩ := hmeets
      have hstart : startOf r (w.after env i).store = startOf r w.store :=
        startOf_attemptCall env hi
      refine ⟨⟨token, leaseMs, post, ?_⟩, keepsStart_of_eq hstart⟩
      change (next (env.answer w i).1).Meets (ReadsStart r (startOf r (w.after env i).store))
        (AttemptCall (ReadsStart r (startOf r (w.after env i).store)) r token leaseMs) post
      rw [hstart]
      exact hnext _ (readsStart_answer i)
  | dispatch p =>
    cases p with
    | ret | abort => exact ⟨h, keepsStart_of_eq rfl⟩
    | call i next =>
      rcases h with hleaves | ⟨hnone, hafter, hcalls⟩ | ⟨hopen, hmeets⟩
      · exact ⟨.inl (hleaves.2 _ trivial), keepsStart_of_eq (startOf_after hleaves.1)⟩
      · have hkeeps : KeepsStart r w.store (w.after env i).store := by
          intro atMs hstart
          rw [hnone] at hstart
          cases hstart
        refine ⟨?_, hkeeps⟩
        rcases hcalls.1 with hput | hi
        · exact .inl (hafter.1 _ hput)
        · exact .inr (.inl ⟨(startOf_after hi).trans hnone, hafter.2 _, hcalls.2 _ trivial⟩)
      · refine ⟨.inr (.inr ⟨fun run hrun ↦ hopen run ?_, hmeets.2 _ (readsOpen_answer hopen i)⟩),
          keepsStart_of_eq (startOf_after hmeets.1)⟩
        have hruns := runs_after env w i hmeets.1
        change (w.after env i).store.runs.get? r = some run at hrun
        rwa [hruns] at hrun

/-- A dispatch that begins on a run which is not queued, or was not started, is steady. -/
theorem steady_markRunning (h : Unstarted r s) :
    (Activity.dispatch (markRunning r)).Steady r s := by
  by_cases hqueued : ∃ run, s.runs.get? r = some run ∧ run.status = .queued
  · obtain ⟨run, hrun, hstatus⟩ := hqueued
    have hnone : startOf r s = some none := by
      rw [startOf, hrun, Option.map_some, h run hrun hstatus]
    exact .inr (.inl ⟨hnone, after_markRunning r, calls_markRunning r⟩)
  · exact .inr (.inr ⟨fun run hrun hstatus ↦ hqueued ⟨run, hrun, hstatus⟩,
      meets_markRunning_of_open r⟩)

/-- Every step in the life of a run keeps its starting time, as long as no run that was started
before is dispatched. -/
theorem keepsStart_of_lifeMove (hx : x.doing.Steady r x.world.store)
    (h : LifeMove env r (Unstarted r) x y) :
    y.doing.Steady r y.world.store ∧ KeepsStart r x.world.store y.world.store := by
  cases h with
  | attempt ex token leaseMs =>
    exact ⟨⟨token, leaseMs, _, meets_attemptWithToken ex r token leaseMs⟩, keepsStart_of_eq rfl⟩
  | dispatch _ hmay => exact ⟨steady_markRunning hmay, keepsStart_of_eq rfl⟩
  | call => exact hx.call
  | cancel nowMs =>
    obtain ⟨hstart, hqueued⟩ := cancelRun_keeps x.world.store r nowMs
    exact ⟨hx.of_eq hstart hqueued, keepsStart_of_eq hstart⟩
  | other h =>
    have hstart := startOf_of_runs h.run
    exact ⟨hx.of_eq hstart fun run hrun _ ↦ h.run.symm.trans hrun, keepsStart_of_eq hstart⟩

theorem keepsStart_of_lifeMoves (hx : x.doing.Steady r x.world.store)
    (h : ReflTransGen (LifeMove env r (Unstarted r)) x y) :
    y.doing.Steady r y.world.store ∧ KeepsStart r x.world.store y.world.store := by
  induction h with
  | refl => exact ⟨hx, keepsStart_of_eq rfl⟩
  | tail _ hstep ih =>
    obtain ⟨hsteady, hkeeps⟩ := keepsStart_of_lifeMove ih.1 hstep
    exact ⟨hsteady, fun atMs hstart ↦ hkeeps atMs (ih.2 atMs hstart)⟩

/-! ### One start is announced -/

def lifeEnv (lib : EventLibrary) (order : Watch LifeScene → IterationOrder Run)
    (fault : WatchCall → Watch LifeScene → Option StorageError) : WatchEnv LifeScene where
  lib := lib
  store x := x.world.store
  order := order
  fault := fault

def Watch.startsOf {σ : Type} (w : Watch σ) (r : RunId) : List Emitted :=
  (w.emitted.filter (·.kind.isTerminal = false)).filter (·.ev.runId = r.text)

/-- What is being done is steady, and the starting time in every store that the watcher was listed
is the one that the run has now. -/
theorem inductive_starts {lib : EventLibrary} {order : Watch LifeScene → IterationOrder Run}
    {fault : WatchCall → Watch LifeScene → Option StorageError} :
    Inductive (lifeEnv lib order fault) (fun w y ↦ LifeMove env r (Unstarted r) w.scene y)
      fun _ _ w ↦ w.scene.doing.Steady r w.scene.world.store ∧
        ∀ s ∈ w.listed, KeepsStart r s w.scene.world.store where
  change := by
    rintro cursor todo w y ⟨hsteady, hlisted⟩ hmove
    obtain ⟨hsteady', hkeeps⟩ := keepsStart_of_lifeMove hsteady hmove
    exact ⟨hsteady', fun s hs atMs hstart ↦ hkeeps atMs (hlisted s hs atMs hstart)⟩
  list := by
    rintro cursor w runs ⟨hsteady, hlisted⟩ - -
    exact ⟨hsteady, List.forall_mem_cons.mpr ⟨keepsStart_of_eq rfl, hlisted⟩⟩
  drop := fun h _ ↦ h
  tell := fun _ h ↦ h

theorem Candidate.Genuine.started {listed : List MemoryStore} {c : Candidate}
    (h : c.Genuine listed) (hkind : c.kind.isTerminal = false) :
    ∃ s ∈ listed, startOf c.run.id s = some (some c.atMs) := by
  obtain ⟨⟨s, hs, hrun⟩, hstamp⟩ := h
  rw [hkind] at hstamp
  refine ⟨s, hs, ?_⟩
  rw [startOf, hrun, Option.map_some, (kind_of_startedStamp hstamp).2.1]

/-- As long as no run that was started before is dispatched, the starting time of a run never
changes once it is there, and a watcher announces at most one start of the run. -/
theorem run_starts_once {lib : EventLibrary} {order : Watch LifeScene → IterationOrder Run}
    {fault : WatchCall → Watch LifeScene → Option StorageError} {bootMs : ℤ} {w₀ : World}
    {watcher : Watcher} {w : Watch LifeScene}
    (h : Watched (lifeEnv lib order fault) (fun w y ↦ LifeMove env r (Unstarted r) w.scene y)
      bootMs ⟨w₀, .idle⟩ watcher w) :
    (∀ y z, ReflTransGen (LifeMove env r (Unstarted r)) ⟨w₀, .idle⟩ y →
      ReflTransGen (LifeMove env r (Unstarted r)) y z →
        KeepsStart r y.world.store z.world.store) ∧
    (w.startsOf r).length ≤ 1 := by
  have hidle : (LifeScene.mk w₀ .idle).doing.Steady r w₀.store := trivial
  refine ⟨fun y z hy hz ↦ ?_, ?_⟩
  · have hsteady := (keepsStart_of_lifeMoves hidle hy).1
    exact (keepsStart_of_lifeMoves hsteady hz).2
  · obtain ⟨cs, hevents, hordered, hgenuine⟩ := events_ordered h false
    have hlisted := (h.induction inductive_starts ⟨hidle, by simp⟩).2
    have hof : List.Forall₂ Emitted.Of (w.startsOf r) (cs.filter (·.run.id.text = r.text)) := by
      refine List.rel_filter ?_ hevents
      rintro e c ⟨nowMs, rfl⟩
      rfl
    rw [hof.length_eq]
    -- all candidates of the run have the starting time that it has now, but they are strictly
    -- ordered
    have hpairs : (cs.filter (·.run.id.text = r.text)).Pairwise fun _ _ ↦ False := by
      refine (hordered.filter _).imp_of_mem fun {a b} ha hb hlt ↦ hlt.ne ?_
      have hstart (c : Candidate) (hc : c ∈ cs.filter (·.run.id.text = r.text)) :
          c.run.id = r ∧ startOf r w.scene.world.store = some (some c.atMs) := by
        obtain ⟨hmem, htext⟩ := List.mem_filter.mp hc
        have hid : c.run.id = r := congrArg Id.mk (of_decide_eq_true htext)
        obtain ⟨s, hs, hstart⟩ := (hgenuine c hmem).1.started (hgenuine c hmem).2
        exact ⟨hid, hlisted s hs c.atMs (hid ▸ hstart)⟩
      obtain ⟨hid, hatMs⟩ := hstart a ha
      obtain ⟨hid', hatMs'⟩ := hstart b hb
      have hsame : a.atMs = b.atMs := by simpa using hatMs.symm.trans hatMs'
      rw [Candidate.key, Candidate.key, hsame, hid, hid']
    generalize cs.filter (·.run.id.text = r.text) = starts at hpairs
    rcases starts with _ | ⟨a, _ | ⟨b, rest⟩⟩
    · exact Nat.zero_le 1
    · exact le_rfl
    · exact ((List.pairwise_cons.mp hpairs).1 b List.mem_cons_self).elim

/-! ### A run that starts twice -/

section Samples

variable {mayDispatch : MemoryStore → Prop}

theorem lifeMoves_attempt {p p' : Prog ExecutorError AttemptOutcome} {w w' : World}
    (h : Reaches (serve env) (p, w) (p', w')) :
    ReflTransGen (LifeMove env r mayDispatch) ⟨w, .attempt p⟩ ⟨w', .attempt p'⟩ := by
  have hall : ∀ d, Reaches (serve env) (p, w) d →
      ReflTransGen (LifeMove env r mayDispatch) ⟨w, .attempt p⟩ ⟨d.2, .attempt d.1⟩ := by
    intro d hd
    induction hd with
    | refl => exact .refl
    | tail _ hstep ih =>
      cases hstep with
      | call i next s => exact ih.tail (.call ⟨s, .attempt (.call i next)⟩)
  exact hall (p', w') h

theorem lifeMoves_dispatch {p p' : Prog StorageError Unit} {w w' : World}
    (h : Reaches (serve env) (p, w) (p', w')) :
    ReflTransGen (LifeMove env r mayDispatch) ⟨w, .dispatch p⟩ ⟨w', .dispatch p'⟩ := by
  have hall : ∀ d, Reaches (serve env) (p, w) d →
      ReflTransGen (LifeMove env r mayDispatch) ⟨w, .dispatch p⟩ ⟨d.2, .dispatch d.1⟩ := by
    intro d hd
    induction hd with
    | refl => exact .refl
    | tail _ hstep ih =>
      cases hstep with
      | call i next s => exact ih.tail (.call ⟨s, .dispatch (.call i next)⟩)
  exact hall (p', w') h

/-- Handlers that fail the first time, and a clock that has moved on whenever it is read. -/
def ticking : Env := { answering failsFirst with clock := fun log ↦ log.length }

def sampleSubmitted : World where
  store := ((MemoryStore.new.putWorkflow sampleDef).2.putRun
    { id := sampleRun, tenant := "t", defName := "flow" }).2
  log := []

def LifeScene.dispatched (w : World) : LifeScene :=
  let result := (markRunning sampleRun).run (serve ticking) w
  ⟨result.2, .dispatch (.ofResult result.1)⟩

def LifeScene.attempted (w : World) : LifeScene :=
  let result := (attemptWithToken plainExecutor sampleRun none 0).run (serve ticking) w
  ⟨result.2, .attempt (.ofResult result.1)⟩

theorem lifeMoves_dispatched (x : LifeScene) (h : mayDispatch x.world.store) :
    ReflTransGen (LifeMove ticking sampleRun mayDispatch) x (.dispatched x.world) :=
  .head (.dispatch x h) (lifeMoves_dispatch (CallProgram.reaches_run ..))

theorem lifeMoves_attempted (x : LifeScene) :
    ReflTransGen (LifeMove ticking sampleRun mayDispatch) x (.attempted x.world) :=
  .head (.attempt plainExecutor none 0 x) (lifeMoves_attempt (CallProgram.reaches_run ..))

def sampleLifeEnv : WatchEnv LifeScene :=
  lifeEnv plainLibrary (fun _ ↦ .stored) fun _ _ ↦ none

def sampleStart : Watcher × Watch LifeScene :=
  Watcher.polled sampleLifeEnv 10 (.new 0, ⟨.dispatched sampleSubmitted, [], []⟩)

/-- The run is attempted, queued again, and dispatched again. -/
def sampleRestart : Watcher × Watch LifeScene :=
  (sampleStart.1, { sampleStart.2 with
    scene := .dispatched (LifeScene.attempted (LifeScene.dispatched sampleSubmitted).world).world })

theorem sampleStart_watched (h : mayDispatch sampleSubmitted.store) :
    Watched sampleLifeEnv (fun w y ↦ LifeMove ticking sampleRun mayDispatch w.scene y) 0
      ⟨sampleSubmitted, .idle⟩ sampleStart.1 sampleStart.2 := by
  have hdispatched : Watched sampleLifeEnv
      (fun w y ↦ LifeMove ticking sampleRun mayDispatch w.scene y) 0 ⟨sampleSubmitted, .idle⟩
      (.new 0) ⟨.dispatched sampleSubmitted, [], []⟩ :=
    Watched.boot.changes (lifeMoves_dispatched _ h)
  exact hdispatched.polled (.new 0, ⟨LifeScene.dispatched sampleSubmitted, [], []⟩) 10

theorem run_starts_once_sample :
    (sampleStart.2.startsOf sampleRun).map (·.ev.startedAtMs) = [some 1] ∧
    (sampleStart.2.startsOf sampleRun).length ≤ 1 := by
  have hfresh : (sampleSubmitted.store.runs.get? sampleRun).all (·.startedAtMs = none) = true := by
    decide
  have hunstarted : Unstarted sampleRun sampleSubmitted.store := by
    intro run hrun _
    rw [hrun] at hfresh
    simpa using hfresh
  exact ⟨by decide, (run_starts_once (sampleStart_watched hunstarted)).2⟩

theorem restarted :
    Watched sampleLifeEnv (fun w y ↦ LifeMove ticking sampleRun (fun _ ↦ True) w.scene y) 0
      ⟨sampleSubmitted, .idle⟩ (Watcher.polled sampleLifeEnv 50 sampleRestart).1
      (Watcher.polled sampleLifeEnv 50 sampleRestart).2 ∧
    startOf sampleRun sampleStart.2.scene.world.store = some (some 1) ∧
    startOf sampleRun sampleRestart.2.scene.world.store = some (some 25) ∧
    ((Watcher.polled sampleLifeEnv 50 sampleRestart).2.startsOf sampleRun).map
      (·.ev.startedAtMs) = [some 1, some 25] := by
  refine ⟨?_, by decide, by decide, by decide⟩
  have hfirst : Watched sampleLifeEnv
      (fun w y ↦ LifeMove ticking sampleRun (fun _ ↦ True) w.scene y) 0 ⟨sampleSubmitted, .idle⟩
      sampleStart.1 sampleStart.2 := sampleStart_watched trivial
  have hsteps : ReflTransGen (LifeMove ticking sampleRun fun _ ↦ True)
      (LifeScene.dispatched sampleSubmitted) sampleRestart.2.scene :=
    (lifeMoves_attempted _).trans (lifeMoves_dispatched _ trivial)
  have hrestart : Watched sampleLifeEnv
      (fun w y ↦ LifeMove ticking sampleRun (fun _ ↦ True) w.scene y) 0 ⟨sampleSubmitted, .idle⟩
      sampleRestart.1 sampleRestart.2 := hfirst.changes hsteps
  exact hrestart.polled sampleRestart 50

end Samples

end Runvane.Events
