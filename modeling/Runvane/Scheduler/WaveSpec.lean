import Runvane.Domain.Validation
import Runvane.Scheduler.Setting

/-!
# The waves of an attempt

The executor's functions from a single task up to the loop over waves, each with one specification
in an arbitrary setting. A specification says at once what happens between the calls, so that a
crash is covered, and what holds when the function returns.

A task that is run ends settled, one attempt further, with one invocation of its handler if that is
registered (`holds_runTask`). A wave does this to each of its tasks (`holds_wave`), and the loop
runs waves until the run is found cancelled or no task is left that this attempt may start
(`holds_waves`). What the handlers answer is a parameter `ok` of all of this: a relation between a
task and whether it succeeded that every answer of the environment meets (`Settles`).
-/

set_option autoImplicit false

namespace Runvane.Scheduler

open Library Domain Persistence Prog
open CallProgram (Returns Keeps keeps_mono keeps_bind keeps_foldlM)

/-! ### What only reads -/

/-- What is answered shows the counters that the tasks have in `s`. -/
def Counts (expected : (call : Call) → call.Answer → Prop) (r : RunId) (s : MemoryStore) : Prop :=
  ∀ t answer, expected (.store (.getTaskRun (taskRunId r t))) answer →
    (recordOf r t answer).attempts = (board r s t).attempts

/-- Whether this attempt may start a task that the picker offers. -/
def dispatchable (r : RunId) (d : WorkflowDef) (p : Progress) (s : MemoryStore)
    (t : String) : Bool :=
  !p.executed.contains t && (decide (p.states[t]? ≠ some .failed) ||
    decide ((board r s t).attempts < (d.policyOf t).maxAttempts))

/-- The tasks that make up the next wave. -/
def waveOf (r : RunId) (d : WorkflowDef) (p : Progress) (s : MemoryStore) : List String :=
  (readyTasks d p.states).filter (dispatchable r d p s)

variable {token : Option ClaimToken} {leaseMs : ℤ} {ts : List String} {run : Run}
  {states : StatusMap}

section Reads

variable {r : RunId} {d : WorkflowDef} {s : MemoryStore} {p : Progress} {ε : Type}
  {expected : (call : Call) → call.Answer → Prop}

theorem counts_shows (r : RunId) (s : MemoryStore) : Counts (Shows r s) r s :=
  fun t _ hanswer ↦ congrArg TaskRun.attempts (hanswer t rfl)

theorem Counts.mayDispatch (h : Counts expected r s) (t : String) :
    (mayDispatch r d p t : Prog ε Bool).Returns expected (ReadCall r)
      (· = dispatchable r d p s t) := by
  unfold Scheduler.mayDispatch
  split_ifs with hexecuted hfailed
  · change false = dispatchable r d p s t
    simp [dispatchable, hexecuted]
  · change true = dispatchable r d p s t
    simp [dispatchable, hexecuted, hfailed]
  · refine keeps_bind (returns_loadTask r t) ?_
    rintro tr ⟨answer, hanswer, rfl⟩
    change decide ((recordOf r t answer).attempts < (d.policyOf t).maxAttempts) = _
    simp [dispatchable, hexecuted, hfailed, h t answer hanswer]

theorem Counts.nextWave (h : Counts expected r s) :
    (nextWave r d p : Prog ε (List String)).Returns expected (ReadCall r) (· = waveOf r d p s) := by
  -- the names seen so far are in the accumulator, filtered
  refine keeps_mono (fun _ h ↦ h) (fun wave hwave ↦ ?_) (keeps_foldlM (fun names wave ↦
    wave ++ names.filter (dispatchable r d p s) = waveOf r d p s) (fun t names wave hwave ↦ ?_) _ _
    rfl)
  · simpa using hwave
  · refine keeps_bind (h.mayDispatch t) ?_
    rintro picked rfl
    cases hpicked : dispatchable r d p s t <;> simpa [hpicked, Keeps] using hwave

theorem Counts.budgetsLeft (h : Counts expected r s) (names : List String) :
    (budgetsLeft r d names : Prog ε Bool).Returns expected (ReadCall r)
      (· = decide (∀ t ∈ names, (board r s t).attempts < (d.policyOf t).maxAttempts)) := by
  induction names with
  | nil => simp [Scheduler.budgetsLeft, Keeps]
  | cons t names ih =>
    refine keeps_bind (returns_loadTask r t) ?_
    rintro tr ⟨answer, hanswer, rfl⟩
    rw [h t answer hanswer]
    split_ifs with hlt
    · simpa [hlt] using ih
    · change false = _
      simp [hlt]

end Reads

/-! ### Handlers -/

def HandlersReturn (env : Env) (r : RunId) : Prop :=
  ∀ log handler ctx, ctx.runId = r → env.execute log handler ctx ≠ none

/-- Every outcome the environment gives a task of the run is allowed by `ok`; a handler that is not
registered fails. -/
def Settles (env : Env) (r : RunId) (d : WorkflowDef) (ok : String → Bool → Prop) : Prop :=
  ∀ task ∈ d.tasks, (∀ log, env.registered log task.handler = false → ok task.name false) ∧
    ∀ log ctx answer, ctx.runId = r → ctx.taskName = task.name →
      env.execute log task.handler ctx = some answer → ok task.name answer.isOk

theorem settles_true (env : Env) (r : RunId) (d : WorkflowDef) :
    Settles env r d fun _ _ ↦ True :=
  fun _ _ ↦ ⟨fun _ _ ↦ trivial, fun _ _ _ _ _ _ ↦ trivial⟩

def Unregistered (env : Env) (d : WorkflowDef) (t : String) : Prop :=
  ∃ task ∈ d.tasks, task.name = t ∧ ∃ log, env.registered log task.handler = false

/-- What running tasks leaves in the trail: the invocation of each one's handler, in their order,
except that of a handler that is not registered. -/
structure Leaves (env : Env) (d : WorkflowDef) (ts : List String) (marks : List Mark) : Prop where
  sublist : marks.Sublist (ts.map .invoke)
  eq_map : (∀ t ∈ ts, ¬ Unregistered env d t) → marks = ts.map .invoke

theorem Leaves.append {env : Env} {d : WorkflowDef} {ts' : List String} {marks marks' : List Mark}
    (h : Leaves env d ts marks) (h' : Leaves env d ts' marks') :
    Leaves env d (ts ++ ts') (marks ++ marks') where
  sublist := by
    rw [List.map_append]
    exact h.sublist.append h'.sublist
  eq_map hregistered := by
    rw [List.map_append, h.eq_map fun t ht ↦ hregistered t (List.mem_append_left _ ht),
      h'.eq_map fun t ht ↦ hregistered t (List.mem_append_right _ ht)]

/-- What running tasks of the run has done: each of them is settled, one attempt further, and the
rest of the run is untouched. -/
structure Ran (touched : List String → List Mark → World → World → Prop) (env : Env) (r : RunId)
    (d : WorkflowDef) (ok : String → Bool → Prop) (ts : List String) (w w' : World) : Prop where
  settled : ∀ t ∈ ts, ∃ status, (status = .succeeded ∨ status = .failed) ∧
    ok t (decide (status = .succeeded)) ∧
    board r w'.store t = ⟨status, u32Succ (board r w.store t).attempts⟩
  touched : ∃ marks, Leaves env d ts marks ∧ touched ts marks w w'

/-- The changes that a task's record may undergo when it is settled, besides its status. -/
def KeepsTask (record : TaskRun → TaskRun) : Prop :=
  ∀ tr, (record tr).id = tr.id ∧ (record tr).runId = tr.runId ∧
    (record tr).taskName = tr.taskName ∧ (record tr).status = tr.status ∧
    (record tr).attempts = tr.attempts

namespace Setting

section Task

variable {env : Env} {r : RunId} {d : WorkflowDef} {K : Setting env r d} {w : World} {t : String}
  {fail : Abort ExecutorError → World → Prop}

theorem holds_settleTask {target : TaskStatus} {label : String} {record : TaskRun → TaskRun}
    {post : Unit → World → Prop} (hw : K.inv w) (ht : t ∈ d.names)
    (hrunning : (board r w.store t).status = .running)
    (htarget : target = .succeeded ∨ target = .failed) (hkeeps : KeepsTask record)
    (h : ∀ w', K.inv w' → K.touched [t] [] w w' →
      board r w'.store t = ⟨target, (board r w.store t).attempts⟩ → post () w') :
    K.Holds post fail (settleTask r t target label record) w := by
  unfold settleTask
  rw [holds_bind]
  refine holds_loadTask hw fun w₁ hw₁ h₁ ↦ ?_
  have hlegal : TaskFsm.isLegal (storedTask w.store r t).status target = true := by
    rw [show (storedTask w.store r t).status = .running from hrunning]
    rcases htarget with rfl | rfl <;> rfl
  simp only [hlegal, Bool.not_true, Bool.false_eq_true, if_false, holds_bind]
  refine holds_nowMs hw₁ fun now w₂ hw₂ h₂ ↦ ?_
  have h₁₂ := K.trans h₁ h₂
  have hboard : board r w₂.store = board r w.store := board_eq h₁₂
  have hstored := isRecord_storedTask hw ht
  obtain ⟨hid, hrun, hname, hstatus, hattempts⟩ := hkeeps
    { storedTask w.store r t with status := target, finishedAtMs := some now }
  refine holds_put hw₂ ⟨hid.trans hstored.id, hrun.trans hstored.runId,
    hname.trans hstored.taskName, ht⟩ ?_ ?_ fun w₃ hw₃ h₃ hwritten ↦ h w₃ hw₃ (K.trans h₁₂ h₃) ?_
  · rw [hstatus, hattempts, hboard]
    exact .settle t target hrunning htarget
  · rw [hattempts, hboard]
    rfl
  · simp only [board, hwritten, hstatus, hattempts]

variable (hpanic : ∀ w, K.inv w → ¬ HandlersReturn env r → fail .panic w)

include hpanic

theorem holds_runHandler {handler : HandlerId} {ctx : TaskContext}
    {post : Except HandlerError HandlerResult → World → Prop} (hw : K.inv w) (hrun : ctx.runId = r)
    (hname : ctx.taskName = t) (ht : t ∈ d.names) (harmed : K.armed t w)
    (hmissing : ∀ log w' message, env.registered log handler = false → K.inv w' →
      K.touched [] [] w w' → post (.error (.permanent message)) w')
    (hanswer : ∀ log w' answer, env.execute log handler ctx = some answer → K.inv w' →
      K.touched [] [.invoke t] w w' → post answer w') :
    K.Holds post fail (runHandler handler t ctx) w := by
  subst hname
  unfold runHandler
  rw [holds_bind]
  refine holds_silent (.registryGet handler) trivial rfl hw fun w₀ w₁ _ _ hw₁ h₁ ↦ ?_
  cases hregistered : env.registered w₀.log handler with
  | false =>
    simp only [Env.answer, hregistered, Bool.false_eq_true, if_false]
    exact hmissing w₀.log w₁ _ hregistered hw₁ h₁
  | true =>
    simp only [Env.answer, hregistered, if_true]
    unfold Prog.execute
    rw [holds_bind]
    refine holds_ask hw₁ (fun hw₂ h₂ ↦ K.execute handler hrun ht
      (K.armed_of_touched (K.trans h₁ h₂) harmed) hw₂) fun w₂ _ hw₃ h₃ ↦ ?_
    cases hexec : env.execute w₂.log handler ctx with
    | none =>
      simp only [Env.answer, hexec]
      exact hpanic _ hw₃ fun hreturn ↦ hreturn _ _ _ hrun hexec
    | some answer =>
      simp only [Env.answer, hexec]
      exact hanswer w₂.log _ answer hexec hw₃ (K.trans h₁ h₃)

/-- A task of the run that may be started is run and settled. -/
theorem holds_runTask {ok : String → Bool → Prop} {post : StatusMap → World → Prop}
    (hw : K.inv w) (hrun : run.id = r) (ht : t ∈ d.names)
    (hstart : (board r w.store).Startable (boardRules d) t) (hok : Settles env r d ok)
    (h : ∀ w', K.inv w' → Ran K.touched env r d ok [t] w w' →
      post ((states.insert t .running).insert t (board r w'.store t).status) w') :
    K.Holds post fail (runTask run d token leaseMs states t) w := by
  subst hrun
  unfold runTask
  cases hfind : d.tasks.find? (·.name = t) with
  | none =>
    obtain ⟨task, htask, hname⟩ := List.mem_map.mp ht
    exact absurd hname (by simpa using List.find?_eq_none.mp hfind task htask)
  | some task =>
    have htask : task ∈ d.tasks := List.mem_of_find?_eq_some hfind
    have hname : task.name = t := by simpa using List.find?_some hfind
    simp only [holds_bind]
    refine holds_reads (returns_heartbeat ..) BeatCall.silent hw fun _ w₁ _ hw₁ h₁ ↦ ?_
    refine holds_loadTask hw₁ fun w₂ hw₂ h₂ ↦ ?_
    refine holds_nowMs hw₂ fun now w₃ hw₃ h₃ ↦ ?_
    have h₁₃ := K.trans h₁ (K.trans h₂ h₃)
    have hloaded : storedTask w₁.store run.id t = storedTask w.store run.id t :=
      K.task h₁ List.not_mem_nil
    rw [hloaded]
    obtain ⟨hid, howner, hfiled, -⟩ := isRecord_storedTask hw ht
    refine holds_start hw₃ ⟨hid, howner, hfiled, ht⟩ (by rwa [board_eq h₁₃]) rfl
      (by rw [board_eq h₁₃]; rfl) fun w₄ hw₄ h₄ hstored harmed ↦ ?_
    have hcell : board run.id w₄.store t =
        ⟨.running, u32Succ (board run.id w.store t).attempts⟩ := by
      simp only [board, hstored]
    -- whatever the handler answers, the task is settled from its running record
    have hsettle : ∀ w₅ marks target label record, K.inv w₅ → K.touched [] marks w₄ w₅ →
        (target = .succeeded ∨ target = .failed) → KeepsTask record → Leaves env d [t] marks →
        ok t (decide (target = .succeeded)) → K.Holds post fail
          (settleTask run.id t target label record >>= fun _ ↦
            pure ((states.insert t .running).insert t target)) w₅ := by
      intro w₅ marks target label record hw₅ h₅ htarget hkeeps hmarks hresult
      rw [holds_bind]
      refine holds_settleTask hw₅ ht (by rw [board_eq h₅, hcell]) htarget hkeeps
        fun w₆ hw₆ h₆ hend ↦ ?_
      have htouched := K.trans (K.trans h₁₃ h₄) (K.trans h₅ h₆)
      simp only [List.nil_append, List.append_nil] at htouched
      have hcell₆ : board run.id w₆.store t =
          ⟨target, u32Succ (board run.id w.store t).attempts⟩ := by
        rw [hend, board_eq h₅, hcell]
      have hran : Ran K.touched env run.id d ok [t] w w₆ := by
        refine ⟨fun other hother ↦ ?_, marks, hmarks, K.mono htouched (by simp)⟩
        obtain rfl := List.mem_singleton.mp hother
        exact ⟨target, htarget, hresult, hcell₆⟩
      have hpost := h w₆ hw₆ hran
      rw [hcell₆] at hpost
      exact hpost
    refine holds_runHandler hpanic hw₄ rfl rfl ht harmed ?_ ?_
    · intro log w₅ message hlog hw₅ h₅
      refine hsettle w₅ [] .failed _ _ hw₅ h₅ (.inr rfl) (fun _ ↦ ⟨rfl, rfl, rfl, rfl, rfl⟩)
        ⟨by simp, fun hregistered ↦ absurd ⟨task, htask, hname, log, hlog⟩
          (hregistered t (List.mem_singleton_self t))⟩ ?_
      simpa [hname] using (hok task htask).1 log hlog
    · intro log w₅ answer hanswer hw₅ h₅
      have hresult := (hok task htask).2 log _ answer rfl hname.symm hanswer
      rw [hname] at hresult
      cases answer with
      | ok result =>
        exact hsettle w₅ [.invoke t] .succeeded _ _ hw₅ h₅ (.inl rfl)
          (fun _ ↦ ⟨rfl, rfl, rfl, rfl, rfl⟩) ⟨List.Sublist.refl _, fun _ ↦ rfl⟩ hresult
      | error e =>
        exact hsettle w₅ [.invoke t] .failed _ _ hw₅ h₅ (.inr rfl)
          (fun _ ↦ ⟨rfl, rfl, rfl, rfl, rfl⟩) ⟨List.Sublist.refl _, fun _ ↦ rfl⟩ hresult

end Task

end Setting

/-! ### A wave -/

/-- The statuses an attempt keeps are those on the board. -/
def Agrees (r : RunId) (d : WorkflowDef) (states : StatusMap) (w : World) : Prop :=
  ∀ t : String, states[t]? = if t ∈ d.names then some (board r w.store t).status else none

namespace Setting

section Wave

variable {env : Env} {r : RunId} {d : WorkflowDef} {K : Setting env r d} {w w' w'' : World}
  {ok : String → Bool → Prop}

/-- Two waves one after the other, when they share no task. -/
theorem ran_trans {ts' : List String} (h : Ran K.touched env r d ok ts w w')
    (h' : Ran K.touched env r d ok ts' w' w'') (hdisjoint : ∀ t ∈ ts, t ∉ ts') :
    Ran K.touched env r d ok (ts ++ ts') w w'' := by
  obtain ⟨marks, hmarks, htouched⟩ := h.touched
  obtain ⟨marks', hmarks', htouched'⟩ := h'.touched
  refine ⟨fun t ht ↦ ?_, _, hmarks.append hmarks', K.trans htouched htouched'⟩
  by_cases hts : t ∈ ts
  · rw [board_apply htouched' (hdisjoint t hts)]
    exact h.settled t hts
  · rw [← board_apply htouched hts]
    exact h'.settled t ((List.mem_append.mp ht).resolve_left hts)

/-- Running tasks that may be started does not change whether another one may be. -/
theorem startable_of_ran (h : Ran K.touched env r d ok ts w w')
    (hts : ∀ t ∈ ts, (board r w.store).Startable (boardRules d) t) {t : String} (ht : t ∉ ts)
    (hstart : (board r w.store).Startable (boardRules d) t) :
    (board r w'.store).Startable (boardRules d) t := by
  obtain ⟨marks, -, htouched⟩ := h.touched
  unfold Board.Startable at hstart ⊢
  rw [board_apply htouched ht]
  refine hstart.imp_left fun ⟨hpending, hmet⟩ ↦ ⟨hpending, fun dep hdep ↦ ?_⟩
  have hdone := hmet dep hdep
  rw [board_apply htouched fun hmem ↦ ?_, hdone]
  rcases hts dep hmem with ⟨hstatus, -⟩ | ⟨hstatus, -⟩ <;> simp [hdone] at hstatus

theorem agrees_of_touched {marks : List Mark} (h : K.touched [] marks w w')
    (hagrees : Agrees r d states w) : Agrees r d states w' := by
  unfold Agrees at hagrees ⊢
  rwa [board_eq h]

variable {fail : Abort ExecutorError → World → Prop}
  (hpanic : ∀ w, K.inv w → ¬ HandlersReturn env r → fail .panic w)

include hpanic

/-- A wave of tasks that may be started is run, and the attempt keeps track of it. -/
theorem holds_wave {p : Progress} {wave : List String} {post : Progress → World → Prop}
    (hw : K.inv w) (hrun : run.id = r) (hok : Settles env r d ok)
    (hagrees : Agrees r d p.states w) (hnodup : wave.Nodup)
    (hwave : ∀ t ∈ wave, t ∈ d.names ∧ (board r w.store).Startable (boardRules d) t)
    (h : ∀ w' p', K.inv w' → Ran K.touched env r d ok wave w w' → Agrees r d p'.states w' →
      (∀ t, t ∈ p'.executed ↔ t ∈ p.executed ∨ t ∈ wave) → post p' w') :
    K.Holds post fail (wave.foldlM (waveTask run d token leaseMs) p) w := by
  induction wave generalizing w p with
  | nil =>
    refine h w p hw ⟨by simp, [], ⟨by simp, fun _ ↦ rfl⟩, K.refl w⟩ hagrees ?_
    simp
  | cons t wave ih =>
    obtain ⟨ht, hnodup⟩ := List.nodup_cons.mp hnodup
    obtain ⟨⟨hname, hstart⟩, hwave⟩ := List.forall_mem_cons.mp hwave
    rw [List.foldlM_cons, holds_bind]
    unfold waveTask
    rw [holds_bind]
    refine holds_runTask hpanic hw hrun hname hstart hok fun w₁ hw₁ h₁ ↦ ?_
    obtain ⟨marks, -, htouched⟩ := h₁.touched
    refine ih hw₁ ?_ hnodup ?_ fun w₂ p₂ hw₂ h₂ hagrees₂ hexecuted ↦ ?_
    · intro other
      simp only [Std.ExtTreeMap.getElem?_insert, Std.compare_eq_iff_eq]
      by_cases hother : t = other
      · subst hother
        simp [hname]
      · have hsame := board_apply htouched (t := other) (by simpa using Ne.symm hother)
        simp [hother, hagrees other, hsame]
    · intro other hother
      refine ⟨(hwave other hother).1, startable_of_ran h₁ ?_ ?_ (hwave other hother).2⟩
      · simpa using hstart
      · simp only [List.mem_singleton]
        rintro rfl
        exact ht hother
    · refine h w₂ p₂ hw₂ (ran_trans h₁ h₂ (by simpa using ht)) hagrees₂ fun other ↦ ?_
      rw [hexecuted]
      simp only [Std.ExtTreeSet.mem_insert, Std.compare_eq_iff_eq, List.mem_cons]
      grind

end Wave

end Setting

/-! ### The next wave -/

section NextWave

variable {r : RunId} {d : WorkflowDef} {w : World}

theorem Agrees.statusOf (h : Agrees r d states w) {t : String} (ht : t ∈ d.names) :
    states.statusOf t = (board r w.store t).status := by
  simp [StatusMap.statusOf, h t, ht]

/-- The picker's condition on a task is that of the board. -/
theorem Agrees.depsSucceeded_iff (h : Agrees r d states w) (hd : WellFormed d) {task : TaskSpec}
    (htask : task ∈ d.tasks) :
    depsSucceeded states task ↔ (board r w.store).NeedsMet (boardRules d) task.name := by
  rw [Scheduler.depsSucceeded_iff]
  constructor
  · rintro hdeps dep ⟨other, hother, hname, hdep⟩
    obtain rfl : other = task := List.inj_on_of_nodup_map hd.nodup hother htask hname
    have hdone := hdeps dep hdep
    rw [h dep, if_pos (hd.known _ htask dep hdep)] at hdone
    exact Option.some.inj hdone
  · intro hmet dep hdep
    rw [h dep, if_pos (hd.known task htask dep hdep), hmet dep ⟨task, htask, rfl, hdep⟩]

theorem Agrees.isPicked_iff (h : Agrees r d states w) (hd : WellFormed d) {task : TaskSpec}
    (htask : task ∈ d.tasks) : isPicked states task ↔
      (board r w.store task.name).status = .failed ∨
        ((board r w.store task.name).status = .pending ∧
          (board r w.store).NeedsMet (boardRules d) task.name) := by
  unfold isPicked
  rw [h.statusOf (List.mem_map_of_mem htask), ← h.depsSucceeded_iff hd htask]
  cases (board r w.store task.name).status <;> simp

/-- The next wave consists of the tasks that may be started and were not run by this attempt. -/
theorem mem_waveOf (hd : WellFormed d) {p : Progress} (hagrees : Agrees r d p.states w)
    {t : String} : t ∈ waveOf r d p w.store ↔
      t ∈ d.names ∧ t ∉ p.executed ∧ (board r w.store).Startable (boardRules d) t := by
  simp only [waveOf, List.mem_filter, mem_readyTasks, dispatchable, Bool.and_eq_true,
    Bool.not_eq_true', ← Bool.not_eq_true, Std.ExtTreeSet.contains_iff_mem, Bool.or_eq_true,
    decide_eq_true_eq]
  constructor
  · rintro ⟨⟨task, htask, hpicked, rfl⟩, hexecuted, hbudget⟩
    have hname : task.name ∈ d.names := List.mem_map_of_mem htask
    rw [hagrees task.name, if_pos hname] at hbudget
    refine ⟨hname, hexecuted, ?_⟩
    rcases (hagrees.isPicked_iff hd htask).mp hpicked with hfailed | hpending
    · exact .inr ⟨hfailed, hbudget.resolve_left fun hne ↦ hne (congrArg some hfailed)⟩
    · exact .inl hpending
  · rintro ⟨hname, hexecuted, hstart⟩
    obtain ⟨task, htask, rfl⟩ := List.mem_map.mp hname
    rw [hagrees task.name, if_pos hname]
    refine ⟨⟨task, htask, (hagrees.isPicked_iff hd htask).mpr ?_, rfl⟩, hexecuted, ?_⟩
    · exact hstart.elim .inr fun hfailed ↦ .inl hfailed.1
    · exact hstart.elim (fun hpending ↦ .inl (by simp [hpending.1])) fun hfailed ↦ .inr hfailed.2

theorem nodup_waveOf (hd : WellFormed d) (p : Progress) (s : MemoryStore) :
    (waveOf r d p s).Nodup :=
  (nodup_readyTasks hd.nodup p.states).filter _

end NextWave

/-! ### A turn of the loop -/

/-- A turn finds that the run is cancelled or that there is no wave, or runs the next wave. -/
theorem Setting.holds_turn {env : Env} {r : RunId} {d : WorkflowDef} {K : Setting env r d}
    {w : World} {ok : String → Bool → Prop} {fail : Abort ExecutorError → World → Prop}
    (hpanic : ∀ w, K.inv w → ¬ HandlersReturn env r → fail .panic w) {p : Progress}
    {post : Progress ⊕ LoopExit → World → Prop} (hd : WellFormed d) (hw : K.inv w)
    (hrun : run.id = r) (hok : Settles env r d ok) (hagrees : Agrees r d p.states w)
    (hcancelled : ∀ w' outcome, K.inv w' → K.touched [] [.check] w w' →
      RunHasStatus w'.store r .cancelled → post (.inr (.cancelled outcome)) w')
    (hdrained : ∀ w', K.inv w' → K.touched [] [.check] w w' → waveOf r d p w.store = [] →
      post (.inr (.drained p.states)) w')
    (hwave : ∀ w₁ w' p', K.inv w' → K.touched [] [.check] w w₁ →
      Ran K.touched env r d ok (waveOf r d p w.store) w₁ w' → waveOf r d p w.store ≠ [] →
      Agrees r d p'.states w' →
      (∀ t, t ∈ p'.executed ↔ t ∈ p.executed ∨ t ∈ waveOf r d p w.store) → post (.inl p') w') :
    K.Holds post fail (turn run d token leaseMs p) w := by
  subst hrun
  -- the part of the turn after the look at the run
  have hdispatch (w₁ : World) (hw₁ : K.inv w₁) (h₁ : K.touched [] [.check] w w₁) :
      K.Holds post fail (turn.dispatch run d token leaseMs p) w₁ := by
    unfold turn.dispatch
    rw [holds_bind]
    refine holds_reads (counts_shows _ _).nextWave ReadCall.silent hw₁
      fun wave w₂ hread hw₂ h₂ ↦ ?_
    have hsame : waveOf run.id d p w₁.store = waveOf run.id d p w.store := by
      unfold waveOf dispatchable
      rw [board_eq h₁]
    have h₁₂ := K.trans h₁ h₂
    rw [hread, hsame]
    split_ifs with hempty
    · exact hdrained w₂ hw₂ h₁₂ (List.isEmpty_iff.mp hempty)
    · rw [holds_bind]
      refine holds_wave hpanic hw₂ rfl hok (agrees_of_touched h₁₂ hagrees)
        (nodup_waveOf hd p w.store) (fun t ht ↦ ?_) fun w₃ p₃ hw₃ h₃ hagrees₃ hexecuted ↦ ?_
      · obtain ⟨hname, -, hstart⟩ := (mem_waveOf hd hagrees).mp ht
        exact ⟨hname, by rwa [board_eq h₁₂]⟩
      · exact hwave w₂ w₃ p₃ hw₃ h₁₂ h₃ (by simpa using hempty) hagrees₃ hexecuted
  unfold turn
  rw [holds_bind]
  refine holds_ask hw (fun hw₁ _ ↦ K.check hw₁) fun w₁ _ hw₂ h₂ ↦ ?_
  simp only [Env.answer, StoreCall.apply, MemoryStore.getRun]
  cases hget : w₁.store.runs.get? run.id with
  | none => exact hdispatch _ hw₂ h₂
  | some current =>
    dsimp only
    split_ifs with hstatus
    · refine hcancelled _ _ hw₂ h₂ (runHasStatus_iff.mpr ?_)
      exact (congrArg (Option.map _) hget).trans (congrArg some hstatus)
    · exact hdispatch _ hw₂ h₂

/-! ### The loop -/

/-- What an attempt has done since `w₀`: the tasks in `executed` were ready then or became so, are
settled one attempt further, and were invoked at most once. -/
structure Executed (touched : List String → List Mark → World → World → Prop) (r : RunId)
    (d : WorkflowDef) (ok : String → Bool → Prop) (w₀ : World) (executed : List String)
    (w : World) : Prop where
  names : ∀ t ∈ executed, t ∈ d.names
  started : ∀ t ∈ executed, (board r w₀.store t).status = .pending ∨
    ((board r w₀.store t).status = .failed ∧
      (board r w₀.store t).attempts < (d.policyOf t).maxAttempts)
  settled : ∀ t ∈ executed, ∃ status, (status = .succeeded ∨ status = .failed) ∧
    ok t (decide (status = .succeeded)) ∧
    board r w.store t = ⟨status, u32Succ (board r w₀.store t).attempts⟩
  invoked : ∃ ts marks, touched ts marks w₀ w ∧
    ∀ t, marks.count (.invoke t) ≤ 1 ∧ (t ∉ executed → marks.count (.invoke t) = 0)

/-- The same, and all else of the run is untouched. -/
structure Progressed (touched : List String → List Mark → World → World → Prop) (r : RunId)
    (d : WorkflowDef) (ok : String → Bool → Prop) (w₀ : World) (executed : List String)
    (w : World) : Prop extends Executed touched r d ok w₀ executed w where
  untouched : ∀ t ∉ executed, board r w.store t = board r w₀.store t

/-- The next wave when the attempt has run the tasks in `executed`: those it may still start, in the
order of their names. -/
structure IsWave (r : RunId) (d : WorkflowDef) (executed : List String) (w : World)
    (ts : List String) : Prop where
  sorted : ts.Pairwise (· ≤ ·)
  nodup : ts.Nodup
  mem_iff : ∀ t, t ∈ ts ↔
    t ∈ d.names ∧ t ∉ executed ∧ (board r w.store).Startable (boardRules d) t

/-- The turns of the loop since `w₀`, each of which has looked at the run record and run a wave. -/
inductive Turns (touched : List String → List Mark → World → World → Prop) (env : Env) (r : RunId)
    (d : WorkflowDef) (ok : String → Bool → Prop) (w₀ : World) : List (List String) → World → Prop
  | start : Turns touched env r d ok w₀ [] w₀
  | wave {ws : List (List String)} {ts : List String} {w w₁ w' : World}
      (h : Turns touched env r d ok w₀ ws w) (hne : ts ≠ []) (hwave : IsWave r d ws.flatten w ts)
      (hcheck : touched [] [.check] w w₁) (hran : Ran touched env r d ok ts w₁ w') :
      Turns touched env r d ok w₀ (ws ++ [ts]) w'

section Loop

variable {env : Env} {r : RunId} {d : WorkflowDef} {K : Setting env r d} {w₀ w w' : World}
  {ok : String → Bool → Prop} {executed : List String}

theorem count_invoke_le {marks : List Mark} (h : Leaves env d ts marks) (hnodup : ts.Nodup)
    (t : String) : marks.count (.invoke t) ≤ if t ∈ ts then 1 else 0 := by
  have hinj : Function.Injective Mark.invoke := fun _ _ heq ↦ Mark.invoke.inj heq
  refine (h.sublist.count_le _).trans ?_
  rw [List.count_map_of_injective _ _ hinj]
  split_ifs with ht
  · exact List.nodup_iff_count_le_one.mp hnodup t
  · exact (List.count_eq_zero_of_not_mem ht).le

namespace Setting

theorem progressed_start (K : Setting env r d) (ok : String → Bool → Prop) (w₀ : World) :
    Progressed K.touched r d ok w₀ [] w₀ where
  names t ht := by simp at ht
  started t ht := by simp at ht
  settled t ht := by simp at ht
  untouched _ _ := rfl
  invoked := ⟨[], [], K.refl w₀, by simp⟩

/-- Looking at the run record changes nothing. -/
theorem progressed_check (h : Progressed K.touched r d ok w₀ executed w)
    (hcheck : K.touched [] [.check] w w') : Progressed K.touched r d ok w₀ executed w' where
  names := h.names
  started := h.started
  settled := by
    rw [board_eq hcheck]
    exact h.settled
  untouched := by
    rw [board_eq hcheck]
    exact h.untouched
  invoked := by
    obtain ⟨ts, marks, htouched, hcount⟩ := h.invoked
    refine ⟨_, _, K.trans htouched hcheck, fun t ↦ ?_⟩
    simpa [List.count_append] using hcount t

/-- A wave of tasks that may be started and were not run before. -/
theorem progressed_wave (h : Progressed K.touched r d ok w₀ executed w)
    (hran : Ran K.touched env r d ok ts w w') (hnodup : ts.Nodup)
    (hts : ∀ t ∈ ts, t ∈ d.names ∧ t ∉ executed ∧
      (board r w.store).Startable (boardRules d) t) :
    Progressed K.touched r d ok w₀ (executed ++ ts) w' := by
  obtain ⟨marks', hleaves, htouched'⟩ := hran.touched
  obtain ⟨ts₀, marks, htouched, hcount⟩ := h.invoked
  have hsplit : ∀ t ∈ executed ++ ts, t ∉ executed → t ∈ ts := fun t ht hne ↦
    (List.mem_append.mp ht).resolve_left hne
  refine ⟨⟨?_, ?_, ?_, _, _, K.trans htouched htouched', fun t ↦ ?_⟩, ?_⟩
  · intro t ht
    rcases List.mem_append.mp ht with ht | ht
    · exact h.names t ht
    · exact (hts t ht).1
  · intro t ht
    by_cases hbefore : t ∈ executed
    · exact h.started t hbefore
    · rw [← h.untouched t hbefore]
      exact (hts t (hsplit t ht hbefore)).2.2.imp_left And.left
  · intro t ht
    by_cases hbefore : t ∈ executed
    · rw [board_apply htouched' fun hmem ↦ (hts t hmem).2.1 hbefore]
      exact h.settled t hbefore
    · rw [← h.untouched t hbefore]
      exact hran.settled t (hsplit t ht hbefore)
  · have hnew := count_invoke_le hleaves hnodup t
    have hold := hcount t
    rw [List.count_append, List.mem_append, not_or]
    by_cases hmem : t ∈ ts
    · have hzero := hold.2 (hts t hmem).2.1
      simp only [hmem, if_true] at hnew
      exact ⟨by omega, fun hout ↦ absurd hmem hout.2⟩
    · simp only [hmem, if_false] at hnew
      exact ⟨by omega, fun hout ↦ by have := hold.2 hout.1; omega⟩
  · intro t ht
    rw [List.mem_append, not_or] at ht
    rw [board_apply htouched' ht.2, h.untouched t ht.1]

theorem progressed_turns {ws : List (List String)} (h : Turns K.touched env r d ok w₀ ws w) :
    Progressed K.touched r d ok w₀ ws.flatten w := by
  induction h with
  | start => exact K.progressed_start ok w₀
  | wave _ hne hwave hcheck hran ih =>
    rw [List.flatten_append, List.flatten_singleton]
    refine progressed_wave (progressed_check ih hcheck) hran hwave.nodup fun t ht ↦ ?_
    rw [board_eq hcheck]
    exact (hwave.mem_iff t).mp ht

end Setting

theorem isWave_waveOf (hd : WellFormed d) {p : Progress} (hagrees : Agrees r d p.states w)
    (hexecuted : ∀ t, t ∈ p.executed ↔ t ∈ executed) :
    IsWave r d executed w (waveOf r d p w.store) where
  sorted := (pairwise_readyTasks d p.states).filter _
  nodup := nodup_waveOf hd p w.store
  mem_iff t := by rw [mem_waveOf hd hagrees, hexecuted]

/-- The loop runs waves until the run is found cancelled, or no task is left that this attempt may
start. -/
theorem Setting.holds_waves {fail : Abort ExecutorError → World → Prop}
    (hpanic : ∀ w, K.inv w → ¬ HandlersReturn env r → fail .panic w)
    {post : LoopExit → World → Prop} (hd : WellFormed d) (hw₀ : K.inv w₀) (hrun : run.id = r)
    (hok : Settles env r d ok) (hagrees : Agrees r d states w₀)
    (hcancelled : ∀ w' outcome ts marks, K.inv w' → K.touched ts marks w₀ w' →
      RunHasStatus w'.store r .cancelled → post (.cancelled outcome) w')
    (hdrained : ∀ w w' states' ws, K.inv w' → Agrees r d states' w' →
      Turns K.touched env r d ok w₀ ws w → IsWave r d ws.flatten w [] →
      K.touched [] [.check] w w' → post (.drained states') w') :
    K.Holds post fail (CallProgram.iterate .exhausted (turn run d token leaseMs)
      (d.tasks.length + 1) ⟨states, ∅⟩) w₀ := by
  classical
  let left : Progress → ℕ := fun p ↦ (d.names.toFinset.filter (· ∉ p.executed)).card
  refine CallProgram.amid_iterate
    (fun p w ↦ K.inv w ∧ Agrees r d p.states w ∧ ∃ ws, Turns K.touched env r d ok w₀ ws w ∧
      ∀ t, t ∈ p.executed ↔ t ∈ ws.flatten)
    left ?_ _ _ _ ?_ ⟨hw₀, hagrees, [], .start, by simp⟩
  · rintro p w ⟨hw, hagrees, ws, hturns, hexecuted⟩
    have hwave := isWave_waveOf hd hagrees hexecuted
    refine holds_turn hpanic hd hw hrun hok hagrees ?_ ?_ ?_
    · intro w' outcome hw' hcheck
      obtain ⟨ts, marks, htouched, -⟩ := (progressed_turns hturns).invoked
      exact hcancelled w' outcome _ _ hw' (K.trans htouched hcheck)
    · intro w' hw' hcheck hempty
      exact hdrained w w' p.states ws hw' (agrees_of_touched hcheck hagrees) hturns
        (hempty ▸ hwave) hcheck
    · intro w₁ w' p' hw' hcheck hran hne hagrees' hexecuted'
      refine ⟨⟨hw', hagrees', _, hturns.wave hne hwave hcheck hran, fun t ↦ ?_⟩, ?_⟩
      · simp [hexecuted', hexecuted]
      -- the first task of the wave is no longer left
      obtain ⟨t, ht⟩ := List.exists_mem_of_ne_nil _ hne
      obtain ⟨hname, hout, -⟩ := (hwave.mem_iff t).mp ht
      refine Finset.card_lt_card ((Finset.ssubset_iff_of_subset ?_).mpr ⟨t, ?_, ?_⟩)
      · intro other hother
        simp only [Finset.mem_filter, hexecuted', not_or] at hother ⊢
        exact ⟨hother.1, hother.2.1⟩
      · rw [← hexecuted] at hout
        simpa using ⟨hname, hout⟩
      · simp [hexecuted', ht]
  · calc left ⟨states, ∅⟩ ≤ d.names.toFinset.card := Finset.card_filter_le _ _
      _ ≤ d.names.length := List.toFinset_card_le _
      _ < d.tasks.length + 1 := by simp [WorkflowDef.names]

end Loop

end Runvane.Scheduler
