import SakUtility.Backup.Run

/-!
# Every schedule ends with one `finished` signal

Each action other than `cancel()` does one of finitely many things left to do, so a schedule
takes at most five actions per task and one more besides its cancels. With a pool thread, some
such action is enabled until the terminal signal, and none after it: whatever the interleaving,
the signals are progress updates followed by exactly one `finished`.
-/

namespace SakUtility

set_option autoImplicit false

/-- The stages call `f` has still to run, and its being yielded by `as_completed`. -/
def Future.remaining (f : Future) : Nat := (4 - f.pc.rank) + if f.yielded then 0 else 1

/-- The terminal signal, while the run's loop has not sent it. -/
def LoopPc.remaining : LoopPc → Nat
  | .finished => 0
  | _ => 1

theorem TaskPc.rank_le (pc : TaskPc) : pc.rank ≤ 4 := by
  cases pc <;> simp [TaskPc.rank]

namespace PoolState

/-- The work left in the pool: the calls' and the run's terminal signal. -/
def remaining (s : PoolState) : Nat := (s.futures.map Future.remaining).sum + s.loop.remaining

/-- The signals sent so far, once the loop is done: progress updates, then one `finished`. -/
def Signals (s : PoolState) : Prop :=
  s.loop = .finished → ∃ ups fc succ msg, s.events = ups ++ [.finished fc succ msg] ∧
    ∀ e ∈ ups, e.progressFp.isSome

theorem remaining_init (plan : List CopyTask) : (init plan).remaining = 5 * plan.length + 1 := by
  simp [init, remaining, Future.remaining, TaskPc.rank, LoopPc.remaining, Function.comp_def,
    List.sum_replicate, Nat.mul_comm]

section Update

variable {s : PoolState} {k : Nat} {f : Future}

/-- Moving call `k` on, with the loop's progress kept, lowers the work left. -/
theorem remaining_lt_of_setFuture (hk : s.futures[k]? = some f) {g : Future} {s' : PoolState}
    (hfut : s'.futures = s.futures.set k g) (hloop : s'.loop.remaining = s.loop.remaining)
    (hg : g.remaining < f.remaining) : s'.remaining < s.remaining := by
  obtain ⟨hlt, rfl⟩ := List.getElem?_eq_some_iff.mp hk
  have h := (filterMap_set_perm (some ∘ Future.remaining) hlt g).sum_eq
  simp only [List.filterMap_eq_map, List.sum_append, Function.comp_apply, Option.toList_some,
    List.sum_singleton] at h
  simp only [remaining, hfut, hloop]
  omega

theorem Future.remaining_lt_of_rank {g : Future} (hy : g.yielded = f.yielded)
    (hr : f.pc.rank < g.pc.rank) : g.remaining < f.remaining := by
  have := g.pc.rank_le
  simp only [Future.remaining, hy]
  omega

end Update

end PoolState

namespace BackupWorker

variable {w : BackupWorker} {s s' : PoolState}

open PoolState in
/-- Each action but `cancel()` does one thing left to do. -/
theorem step_remaining_lt {a : PoolAction} (h : w.step s a = some s') (ha : a ≠ .cancel) :
    s'.remaining < s.remaining := by
  cases a with
  | start k =>
    obtain ⟨f, hk, hq, rfl⟩ := step_start h
    exact remaining_lt_of_setFuture hk rfl rfl (Future.remaining_lt_of_rank rfl (by simp [hq, TaskPc.rank]))
  | check k =>
    obtain ⟨f, hk, hq, rfl⟩ := step_check h
    exact remaining_lt_of_setFuture hk rfl rfl (Future.remaining_lt_of_rank rfl (by
      show f.pc.rank < (if s.cancelled then TaskPc.done false (some "cancelled") else .copying).rank
      split <;> simp [hq, TaskPc.rank]))
  | copy k o =>
    obtain ⟨f, hk, hc, -, rfl⟩ := step_copy h
    cases o <;>
      exact remaining_lt_of_setFuture hk rfl rfl (Future.remaining_lt_of_rank rfl (by simp [hc, TaskPc.rank]))
  | emit k =>
    obtain ⟨f, fp, cs, hk, hc, rfl⟩ := step_emit h
    exact remaining_lt_of_setFuture hk rfl rfl (Future.remaining_lt_of_rank rfl (by simp [hc, TaskPc.rank]))
  | complete k =>
    obtain ⟨f, ok, err, hk, -, hl, hy, rfl⟩ := step_complete h
    exact remaining_lt_of_setFuture hk rfl (by simp only [afterComplete, hl]; split <;> rfl)
      (by simp [Future.remaining, hy])
  | finish =>
    obtain ⟨hl, -, rfl⟩ := step_finish h
    rcases hl with hl | ⟨hl, -⟩ <;> simp [remaining, hl, LoopPc.remaining]
  | cancel => exact absurd rfl ha

theorem step_cancel_remaining (h : w.step s .cancel = some s') : s'.remaining = s.remaining := by
  obtain ⟨-, rfl⟩ := step_cancel h
  rfl

/-- A schedule takes at most as many actions other than `cancel()` as there is work left. -/
theorem runActions_remaining {acts : List PoolAction} (h : w.runActions s acts = some s') :
    s'.remaining + acts.countP (· != .cancel) ≤ s.remaining := by
  induction acts generalizing s with
  | nil => cases h; simp
  | cons a acts ih =>
    rw [runActions_cons] at h
    obtain ⟨s1, h1, h2⟩ := Option.bind_eq_some.mp h
    have h2' := ih h2
    by_cases ha : a = .cancel
    · subst ha
      have := step_cancel_remaining h1
      simp only [List.countP_cons, bne_self_eq_false, Bool.false_eq_true, if_false] at h2' ⊢
      omega
    · have := step_remaining_lt h1 ha
      simp only [List.countP_cons, bne_iff_ne, ne_eq, ha, not_false_eq_true, if_true] at h2' ⊢
      omega

/-- A call on a pool thread can take its next step: its check, its copy, or its signal. -/
theorem exists_step_of_busy {f : Future} (hf : f ∈ s.futures) (hb : f.pc.busy = true) :
    ∃ a, a ≠ .cancel ∧ (w.step s a).isSome := by
  obtain ⟨k, hk⟩ := List.mem_iff_getElem?.mp hf
  cases hpc : f.pc with
  | started => exact ⟨.check k, by simp, by simp [step, hk, hpc]⟩
  | copying => exact ⟨.copy k (.failed ""), by simp, by simp [step, hk, hpc, CopyOutcome.possible]⟩
  | counted fp cs => exact ⟨.emit k, by simp, by simp [step, hk, hpc]⟩
  | queued => simp [hpc, TaskPc.busy] at hb
  | done ok err => simp [hpc, TaskPc.busy] at hb

theorem start_first_queued (hfree : s.busy < w.maxWorkers) (hq : ∃ f ∈ s.futures, f.pc = .queued) :
    (w.step s (.start (s.futures.findIdx (·.pc == .queued)))).isSome := by
  have hlt : s.futures.findIdx (·.pc == .queued) < s.futures.length :=
    List.findIdx_lt_length_of_exists (by simpa using hq)
  have hfirst : (s.futures.take (s.futures.findIdx (·.pc == .queued))).all (·.pc != .queued) := by
    refine List.all_eq_true.mpr fun g hg => ?_
    obtain ⟨i, hi, rfl⟩ := List.mem_take_iff_getElem.mp hg
    simpa using List.not_of_lt_findIdx (p := fun f : Future => f.pc == .queued) (by omega : i < _)
  have hqk : s.futures[s.futures.findIdx (·.pc == .queued)].pc = .queued := by
    simpa using List.findIdx_getElem (w := hlt)
  simp [step, List.getElem?_eq_getElem hlt, hqk, hfirst, hfree]

theorem exists_step_of_done (hdone : ∀ f ∈ s.futures, f.pc.isDone = true) (hl : s.loop ≠ .finished) :
    ∃ a, a ≠ .cancel ∧ (w.step s a).isSome := by
  by_cases hy : s.loop = .iterating ∧ ∃ f ∈ s.futures, f.yielded = false
  case pos =>
    obtain ⟨hi, f, hf, hfy⟩ := hy
    obtain ⟨k, hk⟩ := List.mem_iff_getElem?.mp hf
    have hd := hdone f hf
    cases hpc : f.pc with
    | done ok err => exact ⟨.complete k, by simp, by simp [step, hk, hpc, hi, hfy]⟩
    | _ => simp [hpc, TaskPc.isDone] at hd
  case neg =>
    have hend : s.loop = .broken ∨ (s.loop = .iterating ∧ ∀ f ∈ s.futures, f.yielded = true) := by
      cases hlp : s.loop <;> simp_all
    exact ⟨.finish, by simp, by simp [step, List.all_eq_true.mpr hdone, hend]⟩

/-- With a pool thread, something other than `cancel()` can happen until the loop is done. -/
theorem exists_step (hw : 0 < w.maxWorkers) (hl : s.loop ≠ .finished) :
    ∃ a, a ≠ .cancel ∧ (w.step s a).isSome := by
  by_cases hb : ∃ f ∈ s.futures, f.pc.busy = true
  · obtain ⟨f, hf, hbusy⟩ := hb
    exact exists_step_of_busy hf hbusy
  have hidle : s.busy = 0 := by
    simp only [PoolState.busy, List.countP_eq_zero]
    exact fun f hf h => hb ⟨f, hf, h⟩
  by_cases hq : ∃ f ∈ s.futures, f.pc = .queued
  · exact ⟨_, by simp, start_first_queued (hidle ▸ hw) hq⟩
  refine exists_step_of_done (fun f hf => ?_) hl
  have hnb : f.pc.busy = false := by simpa using fun h => hb ⟨f, hf, h⟩
  have hnq : f.pc ≠ .queued := fun h => hq ⟨f, hf, h⟩
  cases hpc : f.pc <;> simp_all [TaskPc.busy, TaskPc.isDone]

theorem step_of_finished (hs : s.Inv) (hl : s.loop = .finished) (a : PoolAction) :
    w.step s a = none := by
  cases h : w.step s a with
  | none => rfl
  | some s' =>
    have hd := fun {k : Nat} {f : Future} (hk : s.futures[k]? = some f) =>
      hs.control.frozen hl f (PoolState.mem_of_get hk)
    exfalso
    cases a with
    | start k => obtain ⟨f, hk, hq, -⟩ := step_start h; simpa [hq, TaskPc.isDone] using hd hk
    | check k => obtain ⟨f, hk, hq, -⟩ := step_check h; simpa [hq, TaskPc.isDone] using hd hk
    | copy k o => obtain ⟨f, hk, hc, -⟩ := step_copy h; simpa [hc, TaskPc.isDone] using hd hk
    | emit k => obtain ⟨f, fp, cs, hk, hc, -⟩ := step_emit h; simpa [hc, TaskPc.isDone] using hd hk
    | complete k => obtain ⟨-, -, -, -, -, hi, -⟩ := step_complete h; simp [hl] at hi
    | finish => obtain ⟨hb | ⟨hi, -⟩, -⟩ := step_finish h <;> simp [hl] at *
    | cancel => exact (step_cancel h).1 hl

theorem step_loop_finished {a : PoolAction} (h : w.step s a = some s') (hl : s.loop ≠ .finished)
    (hl' : s'.loop = .finished) : a = .finish := by
  cases a with
  | start k => obtain ⟨f, -, -, rfl⟩ := step_start h; exact absurd hl' hl
  | check k => obtain ⟨f, -, -, rfl⟩ := step_check h; exact absurd hl' hl
  | copy k o => obtain ⟨f, -, -, -, rfl⟩ := step_copy h; cases o <;> exact absurd hl' hl
  | emit k => obtain ⟨f, fp, cs, -, -, rfl⟩ := step_emit h; exact absurd hl' hl
  | complete k =>
    obtain ⟨f, ok, err, -, -, -, -, rfl⟩ := step_complete h
    simp only [PoolState.afterComplete] at hl'
    split at hl' <;> cases hl'
  | finish => rfl
  | cancel => obtain ⟨-, rfl⟩ := step_cancel h; exact absurd hl' hl

theorem step_signals {a : PoolAction} (h : w.step s a = some s') (hs : s.Inv) : s'.Signals :=
  fun hl' => by
  by_cases hl : s.loop = .finished
  · rw [step_of_finished hs hl a] at h; cases h
  obtain rfl := step_loop_finished h hl hl'
  obtain ⟨-, -, rfl⟩ := step_finish h
  have hrep : ∃ fc succ msg, s.report = .finished fc succ msg := by
    unfold PoolState.report; split_ifs <;> exact ⟨_, _, _, rfl⟩
  obtain ⟨fc, succ, msg, hr⟩ := hrep
  refine ⟨s.events, fc, succ, msg, by rw [hr], fun e he => ?_⟩
  cases e with
  | progressUpdate => rfl
  | finished fc' succ' msg' => exact absurd (hs.control.finished fc' succ' msg' he).1 hl

theorem runActions_signals {acts : List PoolAction} (h : w.runActions s acts = some s')
    (hs : s.Inv) (hsig : s.Signals) : s'.Signals := by
  induction acts generalizing s with
  | nil => cases h; exact hsig
  | cons a acts ih =>
    rw [runActions_cons] at h
    obtain ⟨s1, h1, h2⟩ := Option.bind_eq_some.mp h
    exact ih h2 (step_inv h1 hs) (step_signals h1 hs)

/-- For every plan and every schedule the pool admits: it takes at most five actions per
task and one more besides its cancels; until the run's loop is done, with at least one pool
thread, an action other than `cancel()` is enabled, and no `finished` has been sent; once it
is done, no action is enabled and the signals are progress updates followed by one
`finished`. -/
theorem execute_ends_with_finished (hw : 0 < w.maxWorkers) {plan : List CopyTask}
    {acts : List PoolAction} {s : PoolState} (h : w.execute plan acts = some s) :
    acts.countP (· != .cancel) ≤ 5 * plan.length + 1 ∧
    (s.loop ≠ .finished → (∃ a, a ≠ .cancel ∧ (w.step s a).isSome) ∧
      ∀ e ∈ s.events, e.progressFp.isSome) ∧
    (s.loop = .finished → (∀ a, w.step s a = none) ∧
      ∃ ups fc succ msg, s.events = ups ++ [.finished fc succ msg] ∧ ∀ e ∈ ups, e.progressFp.isSome) := by
  unfold execute at h
  split at h
  case isTrue =>
    obtain ⟨rfl, rfl⟩ := runActions_emptyReport h
    exact ⟨by simp, fun hl => absurd rfl hl, fun _ => ⟨step_emptyReport, [], _, _, _, rfl, by simp⟩⟩
  case isFalse =>
    have hs := runActions_inv h (PoolState.inv_init plan)
    have hr := runActions_remaining h
    rw [PoolState.remaining_init] at hr
    refine ⟨by omega, fun hl => ⟨exists_step hw hl, fun e he => ?_⟩, fun hl =>
      ⟨step_of_finished hs hl, runActions_signals h (PoolState.inv_init plan) (by
        simp [PoolState.Signals, PoolState.init]) hl⟩⟩
    cases e with
    | progressUpdate => rfl
    | finished fc succ msg => exact absurd (hs.control.finished fc succ msg he).1 hl

/-- The GUI cancels twice while the first copy is under way: that copy completes and is
reported, and the second task, taken off the queue before the flag is set but checked after,
is skipped. -/
def cancelSchedule : List PoolAction :=
  [.start 0, .start 1, .check 0, .cancel, .check 1, .cancel, .copy 0 .copied, .emit 0, .complete 0,
    .finish]

theorem execute_ends_with_finished_cancel :
    0 < raceWorker.maxWorkers ∧ ∃ s, raceWorker.execute racePlan cancelSchedule = some s ∧
      s.events = [.progressUpdate 1 "a" 10 10, .finished 1 false "Backup cancelled by user."] ∧
      ∀ a, raceWorker.step s a = none := by
  obtain ⟨s, hs⟩ := Option.isSome_iff_exists.mp
    (by decide : (raceWorker.execute racePlan cancelSchedule).isSome)
  have hev : (raceWorker.execute racePlan cancelSchedule).map PoolState.events =
      some [.progressUpdate 1 "a" 10 10, .finished 1 false "Backup cancelled by user."] := by
    decide
  have hl : (raceWorker.execute racePlan cancelSchedule).map PoolState.loop = some .finished := by
    decide
  rw [hs, Option.map_some'] at hev hl
  exact ⟨by decide, s, hs, Option.some.inj hev,
    ((execute_ends_with_finished (by decide) hs).2.2 (Option.some.inj hl)).1⟩

end BackupWorker

end SakUtility
