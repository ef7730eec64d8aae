import Runvane.Persistence.Queries
import Runvane.Scheduler.Renewal

/-!
# The retention pass of the scheduler loop

Every turn of the loop in `cli/serve.rs` deletes the runs that finished longer ago than the
configured window. The window is an unsigned number, which is cast to a signed one before it is
taken from the time of the clock; the limit that comes out goes to `reap_finished_runs`, which all
backends share.

A backend is what that method sees of it (`RunStore`): it lists runs that it holds, and a deletion
leaves the other runs alone, whether it succeeds or not. Both stores of the code are such backends
(`memoryRuns`, `sqliteRuns`), and for the first one the shared method is the pass of the in-memory
model (`reapFinishedRuns_memory`). On any backend the pass keeps what finished after the limit
(`RunStore.held_reapFinishedRuns`). The limit is the right one exactly for windows that reach at
most `2 ^ 63` milliseconds before the epoch; a longer window becomes negative by the cast, and every
finished run is deleted at once (`retention_spares_young_iff`).
-/

set_option autoImplicit false

namespace Runvane.Scheduler

open Library Domain Persistence

/-! ### Backends -/

/-- What the retention pass sees of a store, with the default filter. -/
structure RunStore (S : Type) where
  held : S → RunId → Option Run
  listRuns : S → Except StorageError (List Run)
  deleteRun : S → RunId → Except StorageError Unit × S
  held_of_listed : ∀ {s runs}, listRuns s = .ok runs → ∀ run ∈ runs, held s run.id = some run
  held_deleteRun : ∀ s {id other}, other ≠ id → held (deleteRun s id).2 other = held s other

def memoryRuns (order : IterationOrder Run) : RunStore MemoryStore where
  held s := s.runs.get?
  listRuns s := s.listRuns order {}
  deleteRun := MemoryStore.deleteRun
  held_of_listed {s} := by
    intro runs hlist run hrun
    obtain ⟨listed, hlisted, hperm⟩ := s.listRuns_default order
    obtain rfl := Except.ok.inj (hlisted.symm.trans hlist)
    exact KeyedMap.mem_values.mp (hperm.mem_iff.mp hrun)
  held_deleteRun s {id other} hother := by
    simp [MemoryStore.deleteRun, KeyedMap.get?_erase, Ne.symm hother]

/-- An SQL store in which every run is filed under its own id, as `put_run` files it. -/
structure FiledStore where
  sql : SqliteStore
  filed : ∀ {id row}, sql.runs.get? id = some row → row.document.id = id

def FiledStore.deleteRun (s : FiledStore) (id : RunId) : Except StorageError Unit × FiledStore :=
  ((s.sql.deleteRun id).1, {
    sql := (s.sql.deleteRun id).2
    filed := by
      intro other row hrow
      rw [get?_deleteRun] at hrow
      split_ifs at hrow
      exact s.filed hrow })

def sqliteRuns (order : IterationOrder RunRow) : RunStore FiledStore where
  held s id := (s.sql.runs.get? id).map RunRow.document
  listRuns s := s.sql.listRuns order {}
  deleteRun := FiledStore.deleteRun
  held_of_listed {s} := by
    intro runs hlist run hrun
    obtain rfl := Except.ok.inj hlist
    rw [(RunFilter.applyOrder_default _).mem_iff] at hrun
    obtain ⟨row, hrow, rfl⟩ := List.mem_map.mp (List.mem_filter.mp hrun).1
    have hget : s.sql.runs.get? row.id = some row :=
      KeyedMap.mem_values.mp ((order.perm _).mem_iff.mp hrow)
    rw [s.filed hget, hget, Option.map_some]
  held_deleteRun s {id other} hother := by
    dsimp only [FiledStore.deleteRun]
    rw [get?_deleteRun, if_neg (Ne.symm hother)]

/-! ### The pass -/

namespace RunStore

variable {S : Type} (store : RunStore S)

/-- The loop of `reap_finished_runs` over the runs that were listed. -/
def reapLoop (beforeMs : ℤ) : ℕ → S → List Run → Except StorageError ℕ × S
  | reaped, s, [] => (.ok reaped, s)
  | reaped, s, run :: runs =>
    if run.finishedAtMs.any (· ≤ beforeMs) then
      match store.deleteRun s run.id with
      | (.ok _, s') => reapLoop beforeMs (reaped + 1) s' runs
      | (.error e, s') => (.error e, s')
    else reapLoop beforeMs reaped s runs

def reapFinishedRuns (beforeMs : ℤ) (s : S) : Except StorageError ℕ × S :=
  match store.listRuns s with
  | .error e => (.error e, s)
  | .ok runs => store.reapLoop beforeMs 0 s runs

/-- The retention pass at a time of the clock, and how many runs it reports as reaped. -/
def retentionPass (retentionMs : Option ℕ) (nowMs : ℤ) (s : S) : ℕ × S :=
  match retentionMs with
  | some window =>
    match store.reapFinishedRuns (i64Sub nowMs (i64OfU64 window)) s with
    | (.ok n, s') => (n, s')
    | (.error _, s') => (0, s')
  | none => (0, s)

theorem held_reapLoop {beforeMs : ℤ} {id : RunId} {runs : List Run}
    (hkept : ∀ run ∈ runs, run.id = id → run.finishedAtMs.any (· ≤ beforeMs) = false)
    (reaped : ℕ) (s : S) : store.held (store.reapLoop beforeMs reaped s runs).2 id =
      store.held s id := by
  induction runs generalizing reaped s with
  | nil => rfl
  | cons run runs ih =>
    obtain ⟨hrun, hruns⟩ := List.forall_mem_cons.mp hkept
    unfold reapLoop
    split_ifs with hreaped
    · have hother : id ≠ run.id := fun hid ↦ by simp [hrun hid.symm] at hreaped
      have hdelete := store.held_deleteRun s hother
      split
      next heq =>
        rw [heq] at hdelete
        exact (ih hruns _ _).trans hdelete
      next heq =>
        rw [heq] at hdelete
        exact hdelete
    · exact ih hruns reaped s

/-- A run that did not finish by the limit is kept. -/
theorem held_reapFinishedRuns {beforeMs : ℤ} {s : S} {id : RunId} {run : Run}
    (hrun : store.held s id = some run)
    (hkept : run.finishedAtMs.any (· ≤ beforeMs) = false) :
    store.held (store.reapFinishedRuns beforeMs s).2 id = some run := by
  unfold reapFinishedRuns
  split
  · exact hrun
  next runs hlist =>
    refine (store.held_reapLoop (fun listed hlisted hid ↦ ?_) 0 s).trans hrun
    have hheld := store.held_of_listed hlist listed hlisted
    rw [hid, hrun] at hheld
    rwa [← Option.some.inj hheld]

theorem retentionPass_some (window : ℕ) (nowMs : ℤ) (s : S) :
    (store.retentionPass (some window) nowMs s).2 =
      (store.reapFinishedRuns (i64Sub nowMs (i64OfU64 window)) s).2 := by
  unfold retentionPass
  dsimp only
  split <;> simp_all

end RunStore

/-- On the in-memory store the shared method is the pass of its model. -/
theorem reapFinishedRuns_memory (order : IterationOrder Run) (beforeMs : ℤ) (s : MemoryStore) :
    (memoryRuns order).reapFinishedRuns beforeMs s =
      s.reapFinishedRuns order beforeMs := by
  have hloop (reaped : ℕ) (s : MemoryStore) (runs : List Run) :
      (memoryRuns order).reapLoop beforeMs reaped s runs =
        MemoryStore.reapLoop beforeMs reaped s runs := by
    induction runs generalizing reaped s with
    | nil => rfl
    | cons run runs ih =>
      simp only [RunStore.reapLoop, MemoryStore.reapLoop, ih]
      rfl
  exact hloop 0 s _

/-! ### The window -/

/-- At this time, the pass deletes a run only if it finished at least the window ago, whatever the
store. -/
def SparesYoung (window : ℕ) (nowMs : ℤ) : Prop :=
  ∀ (S : Type) (store : RunStore S) (s : S) (id : RunId) (run : Run), store.held s id = some run →
    store.held (store.retentionPass (some window) nowMs s).2 id ≠ some run →
      ∃ finishedAtMs, run.finishedAtMs = some finishedAtMs ∧ window ≤ nowMs - finishedAtMs

section Window

variable {window : ℕ} {nowMs : ℤ}

theorem limit_of_le (hnow : 0 ≤ nowMs ∧ nowMs ≤ i64Max) (h : window ≤ 2 ^ 63 + nowMs) :
    i64Sub nowMs (i64OfU64 window) = nowMs - window := by
  obtain ⟨hlow, hhigh⟩ := hnow
  unfold i64Max at hhigh
  unfold i64Sub i64OfU64
  rw [Int.sub_bmod_bmod]
  exact Int.bmod_eq_of_le (by omega) (by omega)

/-- A window beyond that is a negative number, and the limit lies in the future. -/
theorem lt_limit_of_lt (hnow : 0 ≤ nowMs ∧ nowMs ≤ i64Max) (hu64 : window < 2 ^ 64)
    (h : 2 ^ 63 + nowMs < window) : nowMs < i64Sub nowMs (i64OfU64 window) := by
  obtain ⟨hlow, hhigh⟩ := hnow
  unfold i64Max at hhigh
  have hwrap : i64Sub nowMs (i64OfU64 window) = nowMs - window + 2 ^ 64 := by
    unfold i64Sub i64OfU64
    rw [Int.sub_bmod_bmod, Int.bmod_def]
    push_cast
    split_ifs <;> omega
  omega

def finishedRun (finishedAtMs : ℤ) : Run :=
  { id := sampleRun, tenant := "t", defName := "flow", status := .succeeded
    finishedAtMs := some finishedAtMs }

def finishedStore (finishedAtMs : ℤ) : MemoryStore :=
  (MemoryStore.new.putRun (finishedRun finishedAtMs)).2

theorem held_finishedStore (finishedAtMs : ℤ) :
    (finishedStore finishedAtMs).runs.get? sampleRun = some (finishedRun finishedAtMs) :=
  (KeyedMap.get?_put ..).trans (if_pos rfl)

theorem gone_of_le (order : IterationOrder Run) {finishedAtMs beforeMs : ℤ}
    (h : finishedAtMs ≤ beforeMs) :
    ((memoryRuns order).reapFinishedRuns beforeMs (finishedStore finishedAtMs)).2.runs.get?
      sampleRun = none := by
  have hstamped : ∀ id, ∀ run ∈ (finishedStore finishedAtMs).runs.get? id, Stamped run := by
    intro id run hrun
    have hput : (finishedStore finishedAtMs).runs.get? id =
      if sampleRun = id then some (finishedRun finishedAtMs) else none := KeyedMap.get?_put ..
    rw [Option.mem_def, hput] at hrun
    split_ifs at hrun
    obtain rfl := Option.some.inj hrun
    rfl
  rw [reapFinishedRuns_memory, (reaped_of_stamped hstamped order beforeMs).run, held_finishedStore]
  simp [Option.filter, finishedBy, finishedRun, Run.isTerminal, RunStatus.isTerminal, h]

/-- The pass spares the runs that are younger than the window exactly if the window reaches at most
`2 ^ 63` milliseconds before the epoch. -/
theorem retention_spares_young_iff (hu64 : window < 2 ^ 64) (hnow : 0 ≤ nowMs ∧ nowMs ≤ i64Max) :
    SparesYoung window nowMs ↔ window ≤ 2 ^ 63 + nowMs := by
  constructor
  · intro hspares
    by_contra hlong
    have hfuture := lt_limit_of_lt hnow hu64 (not_le.mp hlong)
    let order : IterationOrder Run := ⟨id, fun _ ↦ .refl _⟩
    have hgone : (memoryRuns order).held ((memoryRuns order).retentionPass (some window) nowMs
        (finishedStore nowMs)).2 sampleRun ≠ some (finishedRun nowMs) := by
      rw [RunStore.retentionPass_some]
      exact ne_of_eq_of_ne (gone_of_le order hfuture.le) (Option.some_ne_none _).symm
    obtain ⟨finishedAtMs, hfinished, hold⟩ :=
      hspares MemoryStore (memoryRuns order) _ sampleRun _ (held_finishedStore nowMs) hgone
    obtain rfl := Option.some.inj hfinished
    omega
  · intro hfits S store s id run hrun hgone
    rw [store.retentionPass_some, limit_of_le hnow hfits] at hgone
    cases hreaped : run.finishedAtMs.any (· ≤ nowMs - window) with
    | false => exact absurd (store.held_reapFinishedRuns hrun hreaped) hgone
    | true =>
      obtain ⟨finishedAtMs, hfinished, hle⟩ := (Option.any_eq_true _ _).mp hreaped
      rw [decide_eq_true_iff] at hle
      exact ⟨finishedAtMs, hfinished, by omega⟩

/-- A week at the beginning of the epoch. -/
theorem retention_spares_young_week : SparesYoung 604800000 0 :=
  (retention_spares_young_iff (by decide) (by decide)).mpr (by decide)

/-- The longest window that is accepted deletes a run at the time at which it finishes. -/
theorem longest_window_reaps_young :
    ({ retentionMs := some (2 ^ 64 - 1) } : Config).validate = .ok () ∧
    (finishedStore 1000).runs.get? sampleRun = some (finishedRun 1000) ∧
    ((memoryRuns ⟨id, fun _ ↦ .refl _⟩).retentionPass (some (2 ^ 64 - 1)) 1000
      (finishedStore 1000)).2.runs.get? sampleRun = none := by
  refine ⟨rfl, held_finishedStore 1000, ?_⟩
  rw [RunStore.retentionPass_some]
  exact gone_of_le _ (by decide)

end Window

end Runvane.Scheduler
