import Runvane.Scheduler.Footprint
import Runvane.Scheduler.RunView

/-!
# The setting of an attempt

The functions of the executor are specified in two settings. In one the attempt works by itself, and
the log shows each of its steps (`Setting.alone`); in the other others change the store between its
calls. What both have in common is a `Setting`: an invariant that holds between the calls, a
relation that says which tasks a part of the attempt has touched, and for every kind of call that an
attempt makes, that it keeps both. The functions are walked through once, for an arbitrary setting.

This module has the rules for single calls: calls that leave the records alone (`holds_silent`),
parts that only read (`holds_reads`), and the writing of a task run (`holds_start`, `holds_put`).
-/

set_option autoImplicit false

namespace Runvane.Scheduler

open Library Domain Persistence Prog
open CallProgram (Amid Alone Returns amid_bind eq_of_alone)
open Relation (ReflTransGen)

/-! ### Settings -/

/-- The record is one of a task of the run. -/
structure IsRecord (r : RunId) (d : WorkflowDef) (t : String) (tr : TaskRun) : Prop where
  id : tr.id = taskRunId r t
  runId : tr.runId = r
  taskName : tr.taskName = t
  name_mem : t ∈ d.names

/-- The terms in which an attempt is specified. -/
structure Terms where
  /-- What others may do between two calls. -/
  change : World → World → Prop
  /-- What holds of a call in the world in which it is made. -/
  pre : Call → World → Prop
  /-- What holds between two calls. -/
  inv : World → Prop
  /-- The records of tasks outside of the list are the same, and the trail grew by the marks. -/
  touched : List String → List Mark → World → World → Prop
  /-- The task was started, and its handler may be invoked. -/
  armed : String → World → Prop
  /-- The run is stored as it was read, as far as it must be for being written. -/
  owns : Run → World → Prop
  /-- The run was written with a status and a counter, and its tasks are the same. -/
  decided : RunStatus → ℕ → World → World → Prop

/-- The call is all right in the world, keeps the invariant and touches no more than `ts`. -/
def Terms.Takes (terms : Terms) (env : Env) (ts : List String) (marks : List Mark) (call : Call)
    (w : World) : Prop :=
  terms.pre call w ∧ terms.inv (w.after env call) ∧ terms.touched ts marks w (w.after env call)

/-- Terms that the calls of an attempt of the run keep. -/
structure Setting (env : Env) (r : RunId) (d : WorkflowDef) extends Terms where
  filed {w : World} : inv w → TasksFiled w.store r d
  refl (w : World) : touched [] [] w w
  trans {ts ts' : List String} {marks marks' : List Mark} {w w' w'' : World} :
    touched ts marks w w' → touched ts' marks' w' w'' → touched (ts ++ ts') (marks ++ marks') w w''
  mono {ts ts' : List String} {marks : List Mark} {w w' : World} :
    touched ts marks w w' → ts ⊆ ts' → touched ts' marks w w'
  task {ts : List String} {marks : List Mark} {w w' : World} {t : String} :
    touched ts marks w w' → t ∉ ts → storedTask w'.store r t = storedTask w.store r t
  armed_of_touched {w w' : World} {t : String} : touched [] [] w w' → armed t w → armed t w'
  owns_of_touched {ts : List String} {marks : List Mark} {w w' : World} {run : Run} :
    touched ts marks w w' → owns run w → owns run w'
  drift {w w' : World} : ReflTransGen change w w' → inv w → inv w' ∧ touched [] [] w w'
  silent {w : World} (call : Call) : call.LeavesRecords → call.mark r = none → inv w →
    toTerms.Takes env [] [] call w
  check {w : World} : inv w → toTerms.Takes env [] [.check] (.store (.getRun r)) w
  execute {w : World} (handler : HandlerId) {ctx : TaskContext} : ctx.runId = r →
    ctx.taskName ∈ d.names → armed ctx.taskName w → inv w →
    toTerms.Takes env [] [.invoke ctx.taskName] (.execute handler ctx) w
  start {w : World} {t : String} {tr : TaskRun} : IsRecord r d t tr →
    (board r w.store).Startable (boardRules d) t → tr.status = .running →
    tr.attempts = u32Succ (board r w.store t).attempts → inv w →
    toTerms.Takes env [t] [] (.store (.putTaskRun tr)) w ∧
      armed t (w.after env (.store (.putTaskRun tr)))
  put {w : World} {t : String} {tr : TaskRun} : IsRecord r d t tr →
    (board r w.store).Move (boardRules d)
      (Function.update (board r w.store) t ⟨tr.status, tr.attempts⟩) →
    tr.attempts = (board r w.store t).attempts → inv w →
    toTerms.Takes env [t] [] (.store (.putTaskRun tr)) w
  write {w : World} {run written : Run} : owns run w → RunWrite run written →
    written.attempts = run.attempts ∨ written.attempts < d.retry.maxAttempts → inv w →
    pre (.store (.putRun written)) w ∧ inv (w.after env (.store (.putRun written))) ∧
      ∀ {w₀}, touched [] [] w₀ w →
        decided written.status written.attempts w₀ (w.after env (.store (.putRun written)))

/-! ### What is read -/

/-- The answers of a store in which the tasks of the run have the records that they have in `s`. -/
def Shows (r : RunId) (s : MemoryStore) : (call : Call) → call.Answer → Prop
  | .store (.getTaskRun id), answer =>
    ∀ t, id = taskRunId r t → recordOf r t answer = storedTask s r t
  | _, _ => True

section Reads

variable {r : RunId} {call : Call}

theorem ReadCall.silent (h : ReadCall r call) : call.LeavesRecords ∧ call.mark r = none := by
  cases call with
  | store call => cases call <;> first | exact ⟨trivial, rfl⟩ | exact h.elim
  | nowMs => exact ⟨trivial, rfl⟩
  | _ => exact h.elim

theorem BeatCall.silent {token : Option ClaimToken} {leaseMs : ℤ}
    (h : BeatCall r token leaseMs call) : call.LeavesRecords ∧ call.mark r = none := by
  cases h <;> exact ⟨trivial, rfl⟩

theorem shows_answer {s : MemoryStore} {w : World} {env : Env}
    (h : ∀ t, storedTask w.store r t = storedTask s r t) (call : Call) :
    Shows r s call (env.answer w call).1 := by
  cases call with
  | store call =>
    cases call with
    | getTaskRun id =>
      rintro t rfl
      rw [← h t]
      simp only [Env.answer, StoreCall.apply, MemoryStore.getTaskRun, storedTask]
      cases w.store.taskRuns.get? (taskRunId r t) <;> rfl
    | _ => trivial
  | _ => trivial

end Reads

/-! ### Rules for single calls -/

namespace Setting

variable {env : Env} {r : RunId} {d : WorkflowDef} (K : Setting env r d)

/-- What the program guarantees in the setting. -/
def Holds {ε α : Type} (post : α → World → Prop) (fail : Abort ε → World → Prop) (p : Prog ε α)
    (w : World) : Prop :=
  Amid (serve env) K.change K.pre post fail p w

variable {K} {w w' : World} {ts : List String} {marks : List Mark} {t : String} {tr : TaskRun}

theorem board_apply (h : K.touched ts marks w w') (ht : t ∉ ts) :
    board r w'.store t = board r w.store t := by
  simp only [board, K.task h ht]

theorem board_eq (h : K.touched [] marks w w') : board r w'.store = board r w.store :=
  funext fun _ ↦ board_apply h List.not_mem_nil

theorem isRecord_storedTask (hw : K.inv w) (ht : t ∈ d.names) :
    IsRecord r d t (storedTask w.store r t) :=
  ⟨storedTask_id .., ((K.filed hw).storedTask_owner t).1, ((K.filed hw).storedTask_owner t).2, ht⟩

section Rules

variable {ε α : Type} {fail : Abort ε → World → Prop}

theorem holds_bind {β : Type} {post : β → World → Prop} (p : Prog ε α) (rest : α → Prog ε β) :
    K.Holds post fail (p >>= rest) w ↔
      K.Holds (fun value w' ↦ K.Holds post fail (rest value) w') fail p w :=
  amid_bind p rest w

/-- A call that may be made in any world with the invariant. -/
theorem holds_ask {call : Call} {post : call.Answer → World → Prop} (hw : K.inv w)
    (htakes : ∀ {w₁}, K.inv w₁ → K.touched [] [] w w₁ → K.Takes env ts marks call w₁)
    (h : ∀ w₁, K.touched [] [] w w₁ → K.inv (w₁.after env call) →
      K.touched ts marks w (w₁.after env call) → post (env.answer w₁ call).1 (w₁.after env call)) :
    K.Holds post fail (ask call) w := by
  intro w₁ hchanged
  obtain ⟨hw₁, h₁⟩ := K.drift hchanged hw
  obtain ⟨hpre, hafter, htouched⟩ := htakes hw₁ h₁
  exact ⟨hpre, h w₁ h₁ hafter (K.trans h₁ htouched)⟩

/-- A call that leaves the records alone, and the trail too. It is answered in a world that others
have reached. -/
theorem holds_silent (call : Call) {post : call.Answer → World → Prop} (hcall : call.LeavesRecords)
    (hmark : call.mark r = none) (hw : K.inv w)
    (h : ∀ w₁ w', K.inv w₁ → K.touched [] [] w w₁ → K.inv w' → K.touched [] [] w w' →
      post (env.answer w₁ call).1 w') : K.Holds post fail (ask call) w := by
  intro w₁ hchanged
  obtain ⟨hw₁, h₁⟩ := K.drift hchanged hw
  obtain ⟨hpre, hafter, htouched⟩ := K.silent call hcall hmark hw₁
  exact ⟨hpre, h w₁ _ hw₁ h₁ hafter (K.trans h₁ htouched)⟩

theorem holds_nowMs {post : ℤ → World → Prop} (hw : K.inv w)
    (h : ∀ now w', K.inv w' → K.touched [] [] w w' → post now w') :
    K.Holds post fail (ask .nowMs) w :=
  holds_silent .nowMs trivial rfl hw fun _ w' _ _ ↦ h _ w'

/-- A part of an attempt that only reads. -/
theorem holds_reads {allowed : Call → Prop} {part : Prog ε α} {result : α → Prop}
    {post : α → World → Prop} (hpart : part.Returns (Shows r w.store) allowed result)
    (hsilent : ∀ {call}, allowed call → call.LeavesRecords ∧ call.mark r = none) (hw : K.inv w)
    (h : ∀ value w', result value → K.inv w' → K.touched [] [] w w' → post value w') :
    K.Holds post fail part w := by
  let near (w' : World) : Prop := K.inv w' ∧ K.touched [] [] w w'
  have hnear : near w := ⟨hw, K.refl w⟩
  refine hpart.amid ?_ ?_ (fun value w' hvalue hnear ↦ h value w' hvalue hnear.1 hnear.2) hnear
  · rintro call w₁ ⟨hw₁, h₁⟩ hcall
    obtain ⟨hrecords, hmark⟩ := hsilent hcall
    obtain ⟨hpre, hafter, htouched⟩ := K.silent call hrecords hmark hw₁
    exact ⟨hpre, shows_answer (fun _ ↦ K.task h₁ List.not_mem_nil) call, hafter,
      K.trans h₁ htouched⟩
  · rintro w₁ w₂ ⟨hw₁, h₁⟩ hchanged
    obtain ⟨hw₂, h₂⟩ := K.drift hchanged hw₁
    exact ⟨hw₂, K.trans h₁ h₂⟩

theorem holds_loadTask {post : TaskRun → World → Prop} (hw : K.inv w)
    (h : ∀ w', K.inv w' → K.touched [] [] w w' → post (storedTask w.store r t) w') :
    K.Holds post fail (loadTask r t) w := by
  refine holds_reads (returns_loadTask r t) ReadCall.silent hw ?_
  rintro tr w' ⟨answer, hanswer, rfl⟩ hw' h'
  rw [hanswer t rfl]
  exact h w' hw' h'

end Rules

section Writes

variable {fail : Abort ExecutorError → World → Prop} {post : Unit → World → Prop}

/-- A task that may be started is written as running. -/
theorem holds_start (hw : K.inv w) (hrecord : IsRecord r d t tr)
    (hstart : (board r w.store).Startable (boardRules d) t) (hstatus : tr.status = .running)
    (hattempts : tr.attempts = u32Succ (board r w.store t).attempts)
    (h : ∀ w', K.inv w' → K.touched [t] [] w w' → storedTask w'.store r t = tr → K.armed t w' →
      post () w') : K.Holds post fail (storeTaskRun tr) w := by
  intro w₁ hchanged
  obtain ⟨hw₁, h₁⟩ := K.drift hchanged hw
  rw [← board_eq h₁] at hstart hattempts
  obtain ⟨⟨hpre, hafter, htouched⟩, harmed⟩ := K.start hrecord hstart hstatus hattempts hw₁
  exact ⟨hpre, h _ hafter (K.trans h₁ htouched)
    ((storedTask_put hrecord.id t).trans (if_pos rfl)) harmed⟩

/-- A task is written that is settled or skipped. -/
theorem holds_put (hw : K.inv w) (hrecord : IsRecord r d t tr)
    (hmove : (board r w.store).Move (boardRules d)
      (Function.update (board r w.store) t ⟨tr.status, tr.attempts⟩))
    (hattempts : tr.attempts = (board r w.store t).attempts)
    (h : ∀ w', K.inv w' → K.touched [t] [] w w' → storedTask w'.store r t = tr → post () w') :
    K.Holds post fail (storeTaskRun tr) w := by
  intro w₁ hchanged
  obtain ⟨hw₁, h₁⟩ := K.drift hchanged hw
  rw [← board_eq h₁] at hmove hattempts
  obtain ⟨hpre, hafter, htouched⟩ := K.put hrecord hmove hattempts hw₁
  exact ⟨hpre, h _ hafter (K.trans h₁ htouched)
    ((storedTask_put hrecord.id t).trans (if_pos rfl))⟩

theorem holds_storeRun {run written : Run} {w₀ : World} (hw : K.inv w) (h₀ : K.touched [] [] w₀ w)
    (howns : K.owns run w) (hwrite : RunWrite run written)
    (hattempts : written.attempts = run.attempts ∨ written.attempts < d.retry.maxAttempts)
    (h : ∀ w', K.inv w' → K.decided written.status written.attempts w₀ w' → post () w') :
    K.Holds post fail (storeRun written) w := by
  intro w₁ hchanged
  obtain ⟨hw₁, h₁⟩ := K.drift hchanged hw
  obtain ⟨hpre, hafter, hdecided⟩ := K.write (K.owns_of_touched h₁ howns) hwrite hattempts hw₁
  exact ⟨hpre, h _ hafter (hdecided (K.trans h₀ h₁))⟩

end Writes

end Setting

/-! ### An attempt by itself -/

section Alone

variable {r : RunId} {d : WorkflowDef} {a : ℕ} {w : World} {t : String} {tr : TaskRun}

/-- A task run of the run is written, and its counter does not fall. -/
theorem Sound.putTaskRun (hw : Sound r d a w) (env : Env) (hrecord : IsRecord r d t tr)
    (hmove : (board r w.store).Move (boardRules d)
      (Function.update (board r w.store) t ⟨tr.status, tr.attempts⟩))
    (hattempts : BudgetsOk d → (board r w.store t).attempts ≤ tr.attempts) :
    Sound r d a (w.after env (.store (.putTaskRun tr))) ∧
      Touched r [t] [] w (w.after env (.store (.putTaskRun tr))) :=
  ⟨hw.after_putTaskRun hrecord.id hrecord.runId hrecord.taskName hrecord.name_mem hmove hattempts,
    touched_putTaskRun env w hrecord.id⟩

/-- A task that was started is ahead of its invocations. -/
theorem Sound.ahead (hw : Sound r d a w) (env : Env) (hrecord : IsRecord r d t tr)
    (hstatus : tr.status = .running)
    (hattempts : tr.attempts = u32Succ (board r w.store t).attempts) :
    Ahead r d t (w.after env (.store (.putTaskRun tr))) := by
  have hcell : board r (w.store.putTaskRun tr).2 t = ⟨.running, tr.attempts⟩ := by
    simp [board_put hrecord.id, hstatus]
  refine ⟨congrArg Cell.status hcell, fun hbudgets n hn ↦ ?_⟩
  rw [tally_after_of_ne env w (by simp [Call.mark])] at hn
  change n < (board r (w.store.putTaskRun tr).2 t).attempts
  rw [hcell, hattempts, u32Succ_attempts hw hbudgets hrecord.name_mem]
  exact Nat.lt_succ_of_le ((hw.tallied hbudgets t hrecord.name_mem).le n hn)

theorem Sound.write (hw : Sound r d a w) (env : Env) {run written : Run}
    (hrun : w.store.runs.get? r = some run) (hwrite : RunWrite run written)
    (hattempts : written.attempts = run.attempts ∨ written.attempts < d.retry.maxAttempts) :
    Sound r d a (w.after env (.store (.putRun written))) := by
  refine hw.after_putRun (hwrite.id_eq.trans (KeyedMap.key_of_get? hrun)) ?_ ?_
  · rw [hwrite.key_eq]
    exact hw.definition hrun
  · rcases hattempts with heq | hlt
    · rw [heq]
      exact hw.attempts_le hrun
    · exact le_max_of_le_left hlt

/-- Nobody else changes anything, and the invariant is that of the life of the run. -/
def Setting.alone (env : Env) (r : RunId) (d : WorkflowDef) (a : ℕ) : Setting env r d where
  change := Alone
  pre _ := Sound r d a
  inv := Sound r d a
  touched := Touched r
  armed := Ahead r d
  owns run w := w.store.runs.get? r = some run
  decided := Decided r
  filed hw := hw.filed
  refl := .refl r
  trans := .trans
  mono := .mono
  task h ht := h.task _ ht
  armed_of_touched h harmed := by
    unfold Ahead at harmed ⊢
    rwa [h.board_eq, h.tally_eq _ List.not_mem_nil]
  owns_of_touched h howns := by rwa [h.runs]
  drift hchanged hw := by
    obtain rfl := eq_of_alone hchanged
    exact ⟨hw, .refl r _⟩
  silent call hcall hmark hw := ⟨hw, hw.silent env call hcall hmark⟩
  check hw := ⟨hw, hw.check env⟩
  execute handler _ hrun hname harmed hw := ⟨hw, hw.execute env handler hrun hname harmed⟩
  start {w t tr} hrecord hstart hstatus hattempts hw := by
    refine ⟨⟨hw, hw.putTaskRun env hrecord ?_ fun hbudgets ↦ ?_⟩,
      hw.ahead env hrecord hstatus hattempts⟩
    · rw [hstatus, hattempts]
      exact .start t hstart
    · rw [hattempts, u32Succ_attempts hw hbudgets hrecord.name_mem]
      exact Nat.le_succ _
  put hrecord hmove hattempts hw := ⟨hw, hw.putTaskRun env hrecord hmove fun _ ↦ hattempts.ge⟩
  write howns hwrite hattempts hw := ⟨hw, hw.write env howns hwrite hattempts,
    fun h₀ ↦ h₀.decided env _ (hwrite.id_eq.trans (KeyedMap.key_of_get? howns))⟩

end Alone

end Runvane.Scheduler
