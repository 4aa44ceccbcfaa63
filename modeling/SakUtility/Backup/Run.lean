import SakUtility.Backup.Pool
import Mathlib.Algebra.Order.BigOperators.Group.List
import Mathlib.Algebra.Order.Group.Nat

/-!
# Whole runs of the backup pool

From the invariant of `SakUtility.Backup.Pool`: what a schedule does to the cancel
flag and to each call, and what the terminal `finished` signal reports, for every plan
and every schedule the pool admits.
-/

namespace SakUtility

set_option autoImplicit false

/-! ### The state once every call has returned -/

theorem TaskPc.pendingFp_of_isDone {pc : TaskPc} (h : pc.isDone = true) : pc.pendingFp = none := by
  cases pc <;> simp_all [isDone, pendingFp]

namespace Future

variable {f : Future}

theorem copiedPart_of_isDone (h : f.pc.isDone = true) :
    f.copiedPart = if f.isOk then some f.task.size else none := by
  simp [copiedPart, isOk, h]

theorem failedYielded_of_isDone (h : f.pc.isDone = true) (hy : f.yielded = true) :
    f.failedYielded = !f.isOk := by
  simp [failedYielded, isOk, h, hy]

end Future

namespace PoolState

variable {s : PoolState}

theorem pendingFps_of_done (hd : ∀ f ∈ s.futures, f.pc.isDone = true) : s.pendingFps = [] :=
  List.filterMap_eq_nil_iff.mpr fun f hf => TaskPc.pendingFp_of_isDone (hd f hf)

theorem copiedSizes_of_done (hd : ∀ f ∈ s.futures, f.pc.isDone = true) :
    s.copiedSizes = (s.futures.filter Future.isOk).map (·.task.size) := by
  rw [copiedSizes, List.filterMap_congr fun f hf => Future.copiedPart_of_isDone (hd f hf),
    ← List.filterMap_eq_map, List.filterMap_filter]
  rfl

theorem failedYielded_of_done (hd : ∀ f ∈ s.futures, f.pc.isDone = true)
    (hy : ∀ f ∈ s.futures, f.yielded = true) :
    s.failedYielded = s.futures.countP fun f => !f.isOk :=
  List.countP_congr fun f hf => by rw [Future.failedYielded_of_isDone (hd f hf) (hy f hf)]

/-- What the terminal signal of a state satisfying `Inv` reports. -/
theorem Inv.finished_report (hs : s.Inv) {fc : Nat} {succ : Bool} {msg : String}
    (he : .finished fc succ msg ∈ s.events) :
    s.filesCopied = fc ∧ fc = s.futures.countP Future.isOk ∧
    s.copiedSize = ((s.futures.filter Future.isOk).map (·.task.size)).sum ∧
    s.progressFps.Perm (List.range' 1 fc) ∧
    (s.cancelled = false → fc + s.errors = s.futures.length ∧
      (succ = true ↔ ∀ f ∈ s.futures, f.isOk = true)) := by
  obtain ⟨hl, hfc, hc⟩ := hs.control.finished fc succ msg he
  have hd := hs.control.frozen hl
  have hsizes := copiedSizes_of_done hd
  have hcount : fc = s.futures.countP Future.isOk := by
    rw [hfc, hs.counts.files, hsizes, List.length_map, List.countP_eq_length_filter]
  refine ⟨hfc.symm, hcount, hs.counts.size.trans (by rw [hsizes]), ?_, fun hcan => ?_⟩
  · simpa [pendingFps_of_done hd, ← hfc] using hs.counts.fps
  · obtain ⟨hsucc, hy⟩ := hc hcan
    have herr : s.errors = s.futures.countP fun f => !f.isOk :=
      (hs.control.errors hcan).2.trans (failedYielded_of_done hd hy)
    refine ⟨by rw [hcount, herr, List.length_eq_countP_add_countP Future.isOk]; simp, ?_⟩
    rw [hsucc, herr, decide_eq_true_iff, List.countP_eq_zero]
    simp

end PoolState

namespace BackupWorker

variable {w : BackupWorker} {s s' : PoolState} {k : Nat}

/-! ### The flag and the calls along a schedule -/

theorem step_cancelled {a : PoolAction} (h : w.step s a = some s') :
    s'.cancelled = (s.cancelled || decide (a = .cancel)) := by
  cases a with
  | start k => obtain ⟨f, -, -, rfl⟩ := step_start h; simp [PoolState.setFuture]
  | check k => obtain ⟨f, -, -, rfl⟩ := step_check h; simp [PoolState.afterCheck, PoolState.setFuture]
  | copy k o =>
    obtain ⟨f, -, -, -, rfl⟩ := step_copy h
    cases o <;> simp [PoolState.afterCopy, PoolState.setFuture]
  | emit k =>
    obtain ⟨f, fp, cs, -, -, rfl⟩ := step_emit h
    simp [PoolState.afterEmit, PoolState.setFuture]
  | complete k =>
    obtain ⟨f, ok, err, -, -, -, -, rfl⟩ := step_complete h
    simp [PoolState.afterComplete, PoolState.setFuture]
  | finish => obtain ⟨-, -, rfl⟩ := step_finish h; simp
  | cancel => obtain ⟨-, rfl⟩ := step_cancel h; simp

theorem runActions_cancelled {acts : List PoolAction} (h : w.runActions s acts = some s') :
    s'.cancelled = (s.cancelled || decide (.cancel ∈ acts)) := by
  induction acts generalizing s with
  | nil => cases h; simp
  | cons a acts ih =>
    rw [runActions_cons] at h
    obtain ⟨s1, h1, h2⟩ := Option.bind_eq_some.mp h
    rw [ih h2, step_cancelled h1]
    by_cases ha : a = .cancel
    · simp [ha]
    · simp [ha, Ne.symm ha]

/-- A call keeps its task, only moves forward, and keeps its result once returned. -/
def Advances (f f' : Future) : Prop :=
  f'.task = f.task ∧ f.pc.rank ≤ f'.pc.rank ∧ (f.pc.isDone = true → f'.pc = f.pc)

theorem Advances.trans {f g h : Future} (h1 : Advances f g) (h2 : Advances g h) : Advances f h :=
  ⟨h2.1.trans h1.1, h1.2.1.trans h2.2.1, fun hd => (h2.2.2 (h1.2.2 hd ▸ hd)).trans (h1.2.2 hd)⟩

theorem rel_refl : ∀ o : Option Future, Option.Rel Advances o o
  | none => .none
  | some _ => .some ⟨rfl, le_rfl, fun _ => rfl⟩

theorem rel_trans : ∀ {a b c : Option Future}, Option.Rel Advances a b → Option.Rel Advances b c →
    Option.Rel Advances a c
  | _, _, _, .none, .none => .none
  | _, _, _, .some h1, .some h2 => .some (h1.trans h2)

theorem rel_some_left : ∀ {b : Option Future} {f : Future}, Option.Rel Advances (some f) b →
    ∃ f', b = some f' ∧ Advances f f'
  | _, _, .some h => ⟨_, rfl, h⟩

theorem rel_some_right : ∀ {a : Option Future} {f' : Future}, Option.Rel Advances a (some f') →
    ∃ f, a = some f ∧ Advances f f'
  | _, _, .some h => ⟨_, rfl, h⟩

theorem get_setFuture {f : Future} (hk : s.futures[k]? = some f) (g : Future) (j : Nat) :
    (s.setFuture k g).futures[j]? = if k = j then some g else s.futures[j]? := by
  obtain ⟨hlt, -⟩ := List.getElem?_eq_some_iff.mp hk
  by_cases hj : k = j
  · subst hj; simp [PoolState.setFuture, hlt]
  · simp [PoolState.setFuture, List.getElem?_set_ne hj, hj]

theorem rel_setFuture {f : Future} (hk : s.futures[k]? = some f) (g : Future) (hfg : Advances f g)
    (j : Nat) :
    Option.Rel Advances s.futures[j]? (s.setFuture k g).futures[j]? := by
  rw [get_setFuture hk]
  split
  · subst k; rw [hk]; exact .some hfg
  · exact rel_refl _

theorem step_advances {a : PoolAction} (h : w.step s a = some s') (j : Nat) :
    Option.Rel Advances s.futures[j]? s'.futures[j]? := by
  cases a with
  | start k =>
    obtain ⟨f, hk, hq, rfl⟩ := step_start h
    exact rel_setFuture hk { f with pc := .started } ⟨rfl, by simp [hq, TaskPc.rank],
      by simp [hq, TaskPc.isDone]⟩ j
  | check k =>
    obtain ⟨f, hk, hq, rfl⟩ := step_check h
    exact rel_setFuture hk { f with pc := if s.cancelled then .done false (some "cancelled") else .copying }
      ⟨rfl, by split <;> simp [hq, TaskPc.rank], by simp [hq, TaskPc.isDone]⟩ j
  | copy k o =>
    obtain ⟨f, hk, hc, -, rfl⟩ := step_copy h
    have adv : ∀ pc : TaskPc, 3 ≤ pc.rank → Advances f { f with pc := pc } := fun pc hr =>
      ⟨rfl, by rw [hc]; exact le_trans (by decide) hr, by simp [hc, TaskPc.isDone]⟩
    cases o with
    | copied => exact rel_setFuture hk _ (adv (.counted (s.filesCopied + 1) (s.copiedSize + f.task.size)) le_rfl) j
    | hashMismatch => exact rel_setFuture hk _ (adv (.done false (some "hash mismatch")) (by decide)) j
    | failed e => exact rel_setFuture hk _ (adv (.done false (some e)) (by simp [TaskPc.rank])) j
  | emit k =>
    obtain ⟨f, fp, cs, hk, hc, rfl⟩ := step_emit h
    exact rel_setFuture hk { f with pc := .done true none }
      ⟨rfl, by simp [hc, TaskPc.rank], by simp [hc, TaskPc.isDone]⟩ j
  | complete k =>
    obtain ⟨f, ok, err, hk, -, -, -, rfl⟩ := step_complete h
    exact rel_setFuture hk { f with yielded := true } ⟨rfl, le_rfl, fun _ => rfl⟩ j
  | finish => obtain ⟨-, -, rfl⟩ := step_finish h; exact rel_refl _
  | cancel => obtain ⟨-, rfl⟩ := step_cancel h; exact rel_refl _

theorem runActions_advances {acts : List PoolAction} (h : w.runActions s acts = some s')
    (j : Nat) : Option.Rel Advances s.futures[j]? s'.futures[j]? := by
  induction acts generalizing s with
  | nil => cases h; exact rel_refl _
  | cons a acts ih =>
    rw [runActions_cons] at h
    obtain ⟨s1, h1, h2⟩ := Option.bind_eq_some.mp h
    exact rel_trans (step_advances h1 j) (ih h2)

theorem afterCopy_get {f : Future} (hk : s.futures[k]? = some f) (o : CopyOutcome) :
    ∃ g, (s.afterCopy k f o).futures[k]? = some g ∧ 3 ≤ g.pc.rank := by
  have hg := fun g => (get_setFuture hk g k).trans (if_pos rfl)
  cases o with
  | copied => exact ⟨_, hg _, le_refl 3⟩
  | hashMismatch => exact ⟨_, hg _, by simp [TaskPc.rank]⟩
  | failed e => exact ⟨_, hg _, by simp [TaskPc.rank]⟩

/-- A call copies only from the copying state, which it never returns to. -/
theorem runActions_copy {acts : List PoolAction} {o : CopyOutcome}
    (h : w.runActions s acts = some s') (hmem : .copy k o ∈ acts) :
    (∃ f, s.futures[k]? = some f ∧ f.pc.rank ≤ 2) ∧ ∃ f', s'.futures[k]? = some f' ∧ 3 ≤ f'.pc.rank := by
  induction acts generalizing s with
  | nil => cases hmem
  | cons a acts ih =>
    rw [runActions_cons] at h
    obtain ⟨s1, h1, h2⟩ := Option.bind_eq_some.mp h
    rcases List.mem_cons.mp hmem with rfl | hmem
    · obtain ⟨f, hk, hc, -, rfl⟩ := step_copy h1
      obtain ⟨g, hg, hrg⟩ := afterCopy_get hk o
      obtain ⟨g', hg', ha⟩ := rel_some_left (hg ▸ runActions_advances h2 k)
      exact ⟨⟨f, hk, by simp [hc, TaskPc.rank]⟩, g', hg', hrg.trans ha.2.1⟩
    · obtain ⟨⟨f1, hf1, hr1⟩, hend⟩ := ih h2 hmem
      obtain ⟨f0, hf0, ha⟩ := rel_some_right (hf1 ▸ step_advances h1 k)
      exact ⟨⟨f0, hf0, ha.2.1.trans hr1⟩, hend⟩

theorem runActions_check_cancelled {pre post : List PoolAction}
    (h : w.runActions s (pre ++ .check k :: post) = some s') (hc : .cancel ∈ pre) :
    (∃ f, s'.futures[k]? = some f ∧ f.pc = .done false (some "cancelled")) ∧
      ∀ o, .copy k o ∉ pre ++ .check k :: post := by
  rw [runActions_append] at h
  obtain ⟨s1, h1, h⟩ := Option.bind_eq_some.mp h
  rw [runActions_cons] at h
  obtain ⟨s2, h2, h3⟩ := Option.bind_eq_some.mp h
  obtain ⟨f, hk, hq, rfl⟩ := step_check h2
  have hcan : s1.cancelled = true := by rw [runActions_cancelled h1]; simp [hc]
  have hk2 : (s1.afterCheck k f).futures[k]? = some { f with pc := .done false (some "cancelled") } := by
    simp only [PoolState.afterCheck, hcan, if_true]
    exact (get_setFuture hk _ k).trans (if_pos rfl)
  obtain ⟨g, hg, ha⟩ := rel_some_left (hk2 ▸ runActions_advances h3 k)
  refine ⟨⟨g, hg, ha.2.2 rfl⟩, fun o ho => ?_⟩
  rcases List.mem_append.mp ho with ho | ho | ⟨-, ho⟩
  · obtain ⟨-, f', hf', hr⟩ := runActions_copy h1 ho
    rw [hk] at hf'
    cases hf'
    rw [hq] at hr
    exact absurd hr (by decide)
  · obtain ⟨⟨f', hf', hr⟩, -⟩ := runActions_copy h3 ho
    rw [hk2] at hf'
    cases hf'
    exact absurd hr (by decide : ¬ 4 ≤ 2)

/-! ### The report of a run -/

theorem step_emptyReport (a : PoolAction) : w.step w.emptyReport a = none := by
  cases a <;> rfl

theorem runActions_emptyReport {acts : List PoolAction}
    (h : w.runActions w.emptyReport acts = some s) : acts = [] ∧ s = w.emptyReport := by
  cases acts with
  | nil => exact ⟨rfl, (Option.some.inj h).symm⟩
  | cons a acts => rw [runActions_cons, step_emptyReport] at h; cases h

theorem rel_task : ∀ {a b : Option Future}, Option.Rel Advances a b →
    a.map Future.task = b.map Future.task
  | _, _, .none => rfl
  | _, _, .some h => congrArg some h.1.symm

theorem runActions_tasks {acts : List PoolAction} (h : w.runActions s acts = some s') :
    s'.futures.map Future.task = s.futures.map Future.task :=
  List.ext_getElem? fun j => by
    simp only [List.getElem?_map]
    exact (rel_task (runActions_advances h j)).symm

/-- What `finished` reports for every plan and every schedule: the calls that returned
`True` are counted once each, the progress counters are `1..files_copied`, a call
checked after `cancel()` never copies, and without `cancel()` every task is counted,
with success exactly when the plan is nonempty and no task failed. -/
theorem execute_finished_report {plan : List CopyTask} {acts : List PoolAction} {s : PoolState}
    (h : w.execute plan acts = some s) :
    s.futures.map Future.task = plan ∧
    (∀ fc succ msg, .finished fc succ msg ∈ s.events →
      s.filesCopied = fc ∧ fc = s.futures.countP Future.isOk ∧
      s.copiedSize = ((s.futures.filter Future.isOk).map (·.task.size)).sum ∧
      fc ≤ plan.length ∧ s.copiedSize ≤ (plan.map CopyTask.size).sum ∧
      s.progressFps.Perm (List.range' 1 fc) ∧
      (.cancel ∉ acts → fc + s.errors = plan.length ∧
        (succ = true ↔ plan ≠ [] ∧ ∀ f ∈ s.futures, f.isOk = true))) ∧
    ∀ pre post k, acts = pre ++ .check k :: post → .cancel ∈ pre →
      (∃ f, s.futures[k]? = some f ∧ f.pc = .done false (some "cancelled")) ∧
        ∀ o, .copy k o ∉ acts := by
  unfold execute at h
  split at h
  case isTrue hp =>
    obtain ⟨rfl, rfl⟩ := runActions_emptyReport h
    obtain rfl := List.length_eq_zero.mp hp
    refine ⟨rfl, fun fc succ msg he => ?_, fun pre post k hacts _ => by simp at hacts⟩
    simp only [emptyReport, List.mem_singleton, BackupEvent.finished.injEq] at he
    obtain ⟨rfl, rfl, -⟩ := he
    simp [emptyReport, PoolState.progressFps, BackupEvent.progressFp]
  case isFalse hp =>
    have hs := runActions_inv h (PoolState.inv_init plan)
    have htask : s.futures.map Future.task = plan := by
      rw [runActions_tasks h]
      simp [PoolState.init, Function.comp_def]
    have hlen : s.futures.length = plan.length := by rw [← htask, List.length_map]
    refine ⟨htask, fun fc succ msg he => ?_, fun pre post k hacts hc => ?_⟩
    · obtain ⟨hfc, hcount, hsize, hfps, hcan⟩ := hs.finished_report he
      refine ⟨hfc, hcount, hsize, hcount ▸ hlen ▸ List.countP_le_length _, ?_, hfps, fun hna => ?_⟩
      · rw [hsize, ← htask, List.map_map]
        exact ((List.filter_sublist _).map _).sum_le_sum fun _ _ => Nat.zero_le _
      · have hc : s.cancelled = false := by simpa [runActions_cancelled h, PoolState.init] using hna
        obtain ⟨herr, hsucc⟩ := hcan hc
        exact ⟨hlen ▸ herr, hsucc.trans (and_iff_right (mt List.length_eq_zero.mpr hp)).symm⟩
    · subst hacts
      exact runActions_check_cancelled h hc

/-! ### Two concurrent copies -/

/-- Two files whose mirrored copies are distinct from them. -/
def racePlan : List CopyTask :=
  [⟨⟨true, ["s", "a"]⟩, ⟨true, ["b", "a"]⟩, 10⟩, ⟨⟨true, ["s", "b"]⟩, ⟨true, ["b", "b"]⟩, 20⟩]

/-- A worker over `/s` with two pool threads. -/
def raceWorker : BackupWorker := ⟨⟨true, ["s"]⟩, ⟨true, ["b"]⟩, ["*"], 2, false⟩

/-- Both calls copy; the second takes the lock last but emits first. -/
def raceSchedule : List PoolAction :=
  [.start 0, .start 1, .check 0, .check 1, .copy 0 .copied, .copy 1 .copied, .emit 1, .emit 0,
    .complete 1, .complete 0, .finish]

theorem execute_finished_report_race :
    ∃ s, raceWorker.execute racePlan raceSchedule = some s ∧ s.futures.map Future.task = racePlan := by
  obtain ⟨s, hs⟩ := Option.isSome_iff_exists.mp
    (by decide : (raceWorker.execute racePlan raceSchedule).isSome = true)
  exact ⟨s, hs, (execute_finished_report hs).1⟩

/-- An empty plan is reported as a failure although no task failed. -/
theorem execute_empty_plan_not_success :
    documentsBackup.execute [] [] = some documentsBackup.emptyReport ∧
    ¬ ∀ fc succ msg, BackupEvent.finished fc succ msg ∈ documentsBackup.emptyReport.events →
      (succ = true ↔ ∀ f ∈ documentsBackup.emptyReport.futures, f.isOk = true) := by
  refine ⟨rfl, fun h => ?_⟩
  have h0 := (h 0 false _ (List.mem_singleton_self _)).2 fun f hf => by cases hf
  cases h0

/-- The progress signals go down: `files_processed` 2 then 1, `copied_size` 30 then 10. -/
theorem execute_progress_decreases :
    (raceWorker.execute racePlan raceSchedule).map PoolState.events =
      some [.progressUpdate 2 "b" 20 30, .progressUpdate 1 "a" 10 10,
        .finished 2 true "Backup completed successfully."] := by
  decide

end BackupWorker

end SakUtility
