import Runvane.Scheduler.Service

/-!
# What holds of every stored run

Runs are written from many sides, and a party may write a run that it has read long ago. A property
of single run records survives all of this if each kind of write passes it on from the record that
was read to the one that is written (`PassedOn`). No order of writes can break such a property, so
it holds of all runs in every interleaving of all parties (`allRuns_of_partyWorlds`).
-/

set_option autoImplicit false

namespace Runvane.Scheduler

open Library Domain Persistence Prog Api

/-- A submission gives a run the property, and everybody who writes a run passes it on. -/
structure PassedOn (good : Run → Prop) : Prop where
  submitted : ∀ tenant name record input tags nowMs runNumber uuid,
    good (submittedRun tenant name record input tags nowMs runNumber uuid)
  dispatched : ∀ run nowMs, good run → run.status = .queued →
    good { run with status := .running, startedAtMs := some nowMs }
  attempted : ∀ run written, good run → run.status = .running → RunWrite run written → good written
  cancelled : ∀ run nowMs, good run →
    good { run with status := .cancelled, finishedAtMs := some nowMs, error := none }

def AllRuns (good : Run → Prop) (w : World) : Prop := ∀ id, ∀ run ∈ w.store.runs.get? id, good run

def RunAnswer (good : Run → Prop) : (call : Call) → call.Answer → Prop
  | .store (.getRun _), .ok run => good run
  | _, _ => True

/-! ### Writers -/

section Writers

variable {good : Run → Prop} (h : PassedOn good) {written : Run}
include h

theorem PassedOn.of_dispatchCall (claimMs : ℤ)
    (hcall : DispatchCall (RunAnswer good) claimMs (.store (.putRun written))) : good written := by
  obtain ⟨r, run, now, hrun, hqueued, rfl⟩ := hcall
  exact h.dispatched run now hrun hqueued

theorem PassedOn.of_attemptCall {r : RunId} {token : Option ClaimToken} {leaseMs : ℤ}
    (hcall : AttemptCall (RunAnswer good) r token leaseMs (.store (.putRun written))) :
    good written := by
  obtain ⟨run, hrun, hrunning, hwrite⟩ := hcall.putRun
  exact h.attempted run written hrun hrunning hwrite

theorem PassedOn.of_partyCall {party : Party}
    (hcall : PartyCall (RunAnswer good) party (.store (.putRun written))) : good written := by
  cases party with
  | service member =>
    cases member with
    | submission request uuid =>
      obtain ⟨tenant, name, record, input, tags, nowMs, number, rfl⟩ := hcall
      exact h.submitted ..
    | engine role =>
      cases role with
      | dispatcher settings => exact h.of_dispatchCall settings.leaseMs hcall
      | worker ex job => exact h.of_attemptCall (hcall.resolve_right id)
      | operator runId => rcases hcall with hcall | ⟨now, hcall⟩ <;> cases hcall
    | recovery => rcases hcall with hcall | ⟨now, hcall⟩ <;> cases hcall
  | marking runId => exact h.of_dispatchCall _ hcall.choose_spec
  | attempt ex runId token leaseMs => exact h.of_attemptCall hcall
  | deletion runId => cases hcall

end Writers

/-! ### Single calls -/

section Calls

variable {good : Run → Prop} {env : Env} {w : World}

theorem AllRuns.answer (hw : AllRuns good w) (call : Call) :
    RunAnswer good call (env.answer w call).1 := by
  cases call with
  | store call =>
    cases call with
    | getRun id =>
      show RunAnswer good (.store (.getRun id)) (w.store.getRun id)
      cases hrun : w.store.getRun id with
      | error e => trivial
      | ok run => exact hw id run (MemoryStore.getRun_eq_ok.mp hrun)
    | _ => trivial
  | _ => trivial

theorem AllRuns.put {run : Run} (hw : AllRuns good w) (hrun : good run) :
    ∀ id, ∀ stored ∈ (w.store.runs.put run).get? id, good stored := by
  intro id stored hstored
  rw [KeyedMap.get?_put] at hstored
  split_ifs at hstored with hid
  · obtain rfl := Option.some.inj hstored
    exact hrun
  · exact hw id stored hstored

theorem AllRuns.after_deleteRun (hw : AllRuns good w) (id : RunId) :
    AllRuns good (w.after env (.store (.deleteRun id))) := by
  intro other stored hstored
  change (w.store.runs.erase id).get? other = some stored at hstored
  rw [KeyedMap.get?_erase] at hstored
  split_ifs at hstored
  exact hw other stored hstored

theorem AllRuns.after_cancelRun (hw : AllRuns good w) (h : PassedOn good) (runId : RunId)
    (nowMs : ℤ) : AllRuns good (w.after env (.store (.cancelRun runId nowMs))) := by
  change ∀ id, ∀ run ∈ (w.store.cancelRun runId nowMs).2.runs.get? id, good run
  rcases w.store.cancelRun_cases runId nowMs with ⟨-, hstore⟩ | ⟨run, hrun, -, hstore⟩ <;>
    rw [hstore]
  · exact hw
  · exact hw.put (h.cancelled run nowMs (hw runId run hrun))

theorem AllRuns.after {party : Party} {call : Call} (hw : AllRuns good w) (h : PassedOn good)
    (hcall : PartyCall (RunAnswer good) party call) : AllRuns good (w.after env call) := by
  have hsame (hleaves : call.LeavesRuns) : AllRuns good (w.after env call) := by
    unfold AllRuns
    rw [runs_after env w call hleaves]
    exact hw
  cases call with
  | store call =>
    cases call with
    | putRun run => exact hw.put (h.of_partyCall hcall)
    | cancelRun runId nowMs => exact hw.after_cancelRun h runId nowMs
    | deleteRun id => exact hw.after_deleteRun id
    | _ => exact hsame trivial
  | _ => exact hsame trivial

end Calls

/-! ### Interleavings -/

/-- The worlds of an interleaving of parties, from one in which nobody is at work. -/
def partyWorlds (env : Env) (lib : JsonLibrary) (w : World) (turns : List (Turn Party)) :
    List World :=
  System.states (serve env) (Party.program lib) ⟨w, []⟩ turns

/-- Whatever the parties do in whatever order, what is passed on holds of every stored run. -/
theorem allRuns_of_partyWorlds {good : Run → Prop} (h : PassedOn good) {env : Env}
    {lib : JsonLibrary} {w : World} (hw : AllRuns good w) (turns : List (Turn Party)) :
    ∀ reached ∈ partyWorlds env lib w turns, AllRuns good reached := by
  have hserve (party : Party) (call : Call) (s : World) (hs : AllRuns good s)
      (hcall : PartyCall (RunAnswer good) party call) (_ : True) :
      RunAnswer good call (serve env call s).1 ∧ AllRuns good (serve env call s).2 :=
    ⟨hs.answer call, hs.after h hcall⟩
  exact System.inv_of_states (meets_party lib) hserve hw (System.guarded_true ..)

end Runvane.Scheduler
