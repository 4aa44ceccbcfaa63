import SakUtility.Backup.Plan
import Mathlib.Algebra.BigOperators.Group.List

/-!
# The worker pool of `BackupWorker.run`

A free pool thread takes the `copy_one` calls off the queue in submission order; each then runs
its cancellation check, its copy with the locked counter update, and its `progress_update`. The
run's thread takes futures in the order `as_completed` yields them, and `cancel()` may come at
any moment. A schedule is a list of these actions.
-/

namespace SakUtility

set_option autoImplicit false

/-- How `shutil.copy2` and the digest comparison end, as the environment decides. -/
inductive CopyOutcome
  | copied
  | hashMismatch
  | failed (err : String)
  deriving DecidableEq, Repr

/-- Where one `copy_one` call is. -/
inductive TaskPc
  | queued
  /-- Taken off the queue by a pool thread, before its cancellation check. -/
  | started
  | copying
  /-- Past the locked increment, holding the counters it read under the lock. -/
  | counted (filesProcessed copiedSize : Nat)
  | done (ok : Bool) (err : Option String)
  deriving DecidableEq, Repr

/-- A signal of the worker. -/
inductive BackupEvent
  | progressUpdate (filesProcessed : Nat) (file : String) (fileSize copiedSize : Nat)
  | finished (filesCopied : Nat) (success : Bool) (message : String)
  deriving DecidableEq, Repr

/-- The `for fut in as_completed(futures)` loop of the run's thread. -/
inductive LoopPc
  | iterating
  | broken
  | finished
  deriving DecidableEq, Repr

/-- A submitted call: its task, where it is, and whether `as_completed` yielded it. -/
structure Future where
  task : CopyTask
  pc : TaskPc
  yielded : Bool
  deriving DecidableEq, Repr

/-- `BackupRunState` with the run's loop and the signals emitted so far, in order. -/
structure PoolState where
  futures : List Future
  filesCopied : Nat
  copiedSize : Nat
  cancelled : Bool
  errors : Nat
  loop : LoopPc
  events : List BackupEvent
  deriving DecidableEq, Repr

/-- One atomic action of some thread. -/
inductive PoolAction
  /-- A free pool thread takes call `k` off the executor's queue. -/
  | start (k : Nat)
  /-- Call `k` runs `if self.cancelled: return ... "cancelled"`. -/
  | check (k : Nat)
  /-- `makedirs`, `copy2`, the optional digest check and, on success, the locked update. -/
  | copy (k : Nat) (o : CopyOutcome)
  /-- `progress_update.emit(...)` after the lock, then `return True`. -/
  | emit (k : Nat)
  /-- `as_completed` yields future `k`; the run reads the flag and counts errors. -/
  | complete (k : Nat)
  /-- After the pool has shut down: the terminal `finished` signal. -/
  | finish
  /-- `cancel()` from the GUI thread. -/
  | cancel
  deriving DecidableEq, Repr

namespace TaskPc

/-- The call is on a pool thread: past its check and not yet returned. -/
def busy : TaskPc → Bool
  | started => true
  | copying => true
  | counted _ _ => true
  | _ => false

/-- The call has returned. -/
def isDone : TaskPc → Bool
  | done _ _ => true
  | _ => false

/-- The call has done the locked increment. -/
def copied : TaskPc → Bool
  | counted _ _ => true
  | done ok _ => ok
  | _ => false

/-- The counter value the call read under the lock and has not yet emitted. -/
def pendingFp : TaskPc → Option Nat
  | counted fp _ => some fp
  | _ => none

end TaskPc

/-- How far a call has got. -/
def TaskPc.rank : TaskPc → Nat
  | .queued => 0
  | .started => 1
  | .copying => 2
  | .counted _ _ => 3
  | .done _ _ => 4

/-- The `files_processed` a signal carries, if it is a progress update. -/
def BackupEvent.progressFp : BackupEvent → Option Nat
  | progressUpdate fp _ _ _ => some fp
  | finished _ _ _ => none

/-- The call returned `True`. -/
def Future.isOk (f : Future) : Bool := f.pc.isDone && f.pc.copied

/-- Outcomes the copy can have: a mismatch only when verifying, and never a successful
copy of a file onto itself (`shutil.SameFileError`). -/
def CopyOutcome.possible (verifyHash : Bool) (t : CopyTask) : CopyOutcome → Bool
  | copied => t.src != t.dst
  | hashMismatch => verifyHash && t.src != t.dst
  | failed _ => true

namespace PoolState

/-- Calls on a pool thread. -/
def busy (s : PoolState) : Nat := s.futures.countP (·.pc.busy)

/-- The terminal signal after the pool has shut down. -/
def report (s : PoolState) : BackupEvent :=
  if s.cancelled then .finished s.filesCopied false "Backup cancelled by user."
  else if s.errors = 0 then .finished s.filesCopied true "Backup completed successfully."
  else .finished s.filesCopied false
    ("DONE. Files copied: " ++ toString s.filesCopied ++ "; Errors: " ++ toString s.errors)

/-- The pool's start: every task submitted, counters at zero. -/
def init (plan : List CopyTask) : PoolState :=
  ⟨plan.map fun t => ⟨t, .queued, false⟩, 0, 0, false, 0, .iterating, []⟩

/-- Set the state of call `k`. -/
def setFuture (s : PoolState) (k : Nat) (f : Future) : PoolState := { s with futures := s.futures.set k f }

/-- Call `k` (state `f`) after its cancellation check. -/
def afterCheck (s : PoolState) (k : Nat) (f : Future) : PoolState :=
  s.setFuture k { f with pc := if s.cancelled then .done false (some "cancelled") else .copying }

/-- Call `k` after its copy ended with outcome `o`; a success takes the lock,
increments both counters and reads them. -/
def afterCopy (s : PoolState) (k : Nat) (f : Future) : CopyOutcome → PoolState
  | .copied =>
    { s.setFuture k { f with pc := .counted (s.filesCopied + 1) (s.copiedSize + f.task.size) } with
      filesCopied := s.filesCopied + 1, copiedSize := s.copiedSize + f.task.size }
  | .hashMismatch => s.setFuture k { f with pc := .done false (some "hash mismatch") }
  | .failed e => s.setFuture k { f with pc := .done false (some e) }

/-- Call `k` emits the counters it read under the lock, then returns `True`. -/
def afterEmit (s : PoolState) (k : Nat) (f : Future) (fp cs : Nat) : PoolState :=
  { s.setFuture k { f with pc := .done true none } with
    events := s.events ++ [.progressUpdate fp f.task.src.basename f.task.size cs] }

/-- `as_completed` yields call `k`, which returned `ok`; the run breaks if cancelled,
and otherwise counts a failure. -/
def afterComplete (s : PoolState) (k : Nat) (f : Future) (ok : Bool) : PoolState :=
  { s.setFuture k { f with yielded := true } with
    loop := if s.cancelled then .broken else .iterating,
    errors := if s.cancelled || ok then s.errors else s.errors + 1 }

end PoolState

namespace BackupWorker

variable (w : BackupWorker)

/-- One action, `none` when the schedule may not take it in this state. -/
def step (s : PoolState) : PoolAction → Option PoolState
  | .start k =>
    match s.futures[k]? with
    | some f =>
      if f.pc = .queued ∧ (s.futures.take k).all (·.pc != .queued) ∧ s.busy < w.maxWorkers then
        some (s.setFuture k { f with pc := .started })
      else none
    | none => none
  | .check k =>
    match s.futures[k]? with
    | some f => if f.pc = .started then some (s.afterCheck k f) else none
    | none => none
  | .copy k o =>
    match s.futures[k]? with
    | some f => if f.pc = .copying ∧ o.possible w.verifyHash f.task then some (s.afterCopy k f o) else none
    | none => none
  | .emit k =>
    match s.futures[k]? with
    | some f =>
      match f.pc with
      | .counted fp cs => some (s.afterEmit k f fp cs)
      | _ => none
    | none => none
  | .complete k =>
    match s.futures[k]? with
    | some f =>
      match f.pc with
      | .done ok _ => if s.loop = .iterating ∧ f.yielded = false then some (s.afterComplete k f ok) else none
      | _ => none
    | none => none
  | .finish =>
    if (s.loop = .broken ∨ (s.loop = .iterating ∧ s.futures.all (·.yielded))) ∧
        s.futures.all (·.pc.isDone) then
      some { s with loop := .finished, events := s.events ++ [s.report] }
    else none
  | .cancel => if s.loop ≠ .finished then some { s with cancelled := true } else none

/-- A schedule run from `s`; `none` when some action is not enabled. -/
def runActions (s : PoolState) (acts : List PoolAction) : Option PoolState := acts.foldlM w.step s

/-- The report on an empty plan, sent before any pool exists. -/
def emptyReport : PoolState :=
  ⟨[], 0, 0, false, 0, .finished,
    [.finished 0 false ("No files found to backup in: " ++ String.mk w.sourceDir.chars)]⟩

/-- `BackupWorker.run` after planning: the empty plan's report, else the pool under the
schedule `acts`. -/
def execute (plan : List CopyTask) (acts : List PoolAction) : Option PoolState :=
  if plan.length = 0 then w.runActions w.emptyReport acts else w.runActions (PoolState.init plan) acts

end BackupWorker

/-! ### Counting over one updated call -/

theorem filterMap_set_perm {α β : Type} (g : α → Option β) :
    ∀ {l : List α} {k : Nat} (hk : k < l.length) (a : α),
      ((l.set k a).filterMap g ++ (g l[k]).toList).Perm (l.filterMap g ++ (g a).toList)
  | x :: xs, 0, _, a => by
    have hcons : ∀ y, (y :: xs).filterMap g = (g y).toList ++ xs.filterMap g := fun y => by
      cases h : g y <;> simp [List.filterMap_cons, h]
    simp only [List.set_cons_zero, List.getElem_cons_zero, hcons, List.append_assoc]
    exact List.perm_append_comm.trans ((List.perm_append_comm.append_right _).trans
      (by simp only [List.append_assoc]; exact .refl _))
  | x :: xs, k + 1, hk, a => by
    have ih := filterMap_set_perm g (l := xs) (k := k) (by simpa using hk) a
    cases h : g x <;> simpa [List.filterMap_cons, h] using ih

/-- What a call adds to `copied_size`, once it has done the locked increment. -/
def Future.copiedPart (f : Future) : Option Nat := if f.pc.copied then some f.task.size else none

/-- A yielded call that did not return `True`. -/
def Future.failedYielded (f : Future) : Bool := f.yielded && !f.pc.copied

namespace PoolState

/-- The planned sizes of the calls that did the locked increment. -/
def copiedSizes (s : PoolState) : List Nat := s.futures.filterMap Future.copiedPart

/-- Counter values read under the lock and not yet emitted. -/
def pendingFps (s : PoolState) : List Nat := s.futures.filterMap (·.pc.pendingFp)

/-- The `files_processed` values of the emitted progress updates, in order. -/
def progressFps (s : PoolState) : List Nat := s.events.filterMap BackupEvent.progressFp

/-- How many yielded calls did not return `True`. -/
def failedYielded (s : PoolState) : Nat := s.futures.countP Future.failedYielded

/-- The shared counters agree with the calls and the emitted signals. -/
structure Counts (s : PoolState) : Prop where
  files : s.filesCopied = s.copiedSizes.length
  size : s.copiedSize = s.copiedSizes.sum
  fps : (s.progressFps ++ s.pendingFps).Perm (List.range' 1 s.filesCopied)

/-- The run's loop and its terminal signal agree with the calls. -/
structure Control (s : PoolState) : Prop where
  yielded_done : ∀ f ∈ s.futures, f.yielded = true → f.pc.isDone = true
  errors : s.cancelled = false → s.loop ≠ .broken ∧ s.errors = s.failedYielded
  frozen : s.loop = .finished → ∀ f ∈ s.futures, f.pc.isDone = true
  finished : ∀ fc succ msg, .finished fc succ msg ∈ s.events → s.loop = .finished ∧
    fc = s.filesCopied ∧ (s.cancelled = false → succ = decide (s.errors = 0) ∧
      ∀ f ∈ s.futures, f.yielded = true)

/-- What every state the pool reaches satisfies. -/
structure Inv (s : PoolState) : Prop where
  counts : s.Counts
  control : s.Control

theorem copiedSizes_init (plan : List CopyTask) : (init plan).copiedSizes = [] :=
  List.filterMap_eq_nil_iff.mpr (by simp [init, Future.copiedPart, TaskPc.copied])

theorem inv_init (plan : List CopyTask) : (init plan).Inv where
  counts := ⟨by rw [copiedSizes_init]; rfl, by rw [copiedSizes_init]; rfl,
    by simp [init, progressFps, pendingFps, TaskPc.pendingFp]⟩
  control := ⟨by simp [init], by simp [init, failedYielded, Future.failedYielded, Function.comp_def],
    by simp [init],
    by simp [init]⟩

section Update

variable {s : PoolState} {k : Nat} {f : Future}

theorem mem_of_get (hk : s.futures[k]? = some f) : f ∈ s.futures := List.getElem?_mem hk

theorem copiedSizes_setFuture (hk : s.futures[k]? = some f) (f' : Future) :
    ((s.setFuture k f').copiedSizes ++ f.copiedPart.toList).Perm
      (s.copiedSizes ++ f'.copiedPart.toList) := by
  obtain ⟨hlt, rfl⟩ := List.getElem?_eq_some_iff.mp hk
  exact filterMap_set_perm _ hlt f'

theorem pendingFps_setFuture (hk : s.futures[k]? = some f) (f' : Future) :
    ((s.setFuture k f').pendingFps ++ f.pc.pendingFp.toList).Perm
      (s.pendingFps ++ f'.pc.pendingFp.toList) := by
  obtain ⟨hlt, rfl⟩ := List.getElem?_eq_some_iff.mp hk
  exact filterMap_set_perm (·.pc.pendingFp) hlt f'

theorem failedYielded_setFuture (hk : s.futures[k]? = some f) {f' : Future}
    (h : f'.failedYielded = f.failedYielded) : (s.setFuture k f').failedYielded = s.failedYielded := by
  obtain ⟨hlt, rfl⟩ := List.getElem?_eq_some_iff.mp hk
  have hle := List.boole_getElem_le_countP Future.failedYielded s.futures k hlt
  simp only [failedYielded, setFuture, List.countP_set _ _ _ _ hlt, h]
  omega

theorem Control.loop_ne_finished (hc : s.Control) (hk : s.futures[k]? = some f)
    (hf : f.pc.isDone = false) : s.loop ≠ .finished := fun hl => by
  simp [hc.frozen hl f (mem_of_get hk)] at hf

theorem Control.not_yielded (hc : s.Control) (hk : s.futures[k]? = some f)
    (hf : f.pc.isDone = false) : f.yielded = false := by
  cases hy : f.yielded
  · rfl
  · simp [hc.yielded_done f (mem_of_get hk) hy] at hf

/-- A worker-side update of an unyielded call leaves the run's side as it was. -/
theorem Control.setFuture (hc : s.Control) (hk : s.futures[k]? = some f)
    (hf : f.pc.isDone = false) (f' : Future) (hy : f'.yielded = false) (s' : PoolState)
    (hfut : s'.futures = s.futures.set k f') (hcan : s'.cancelled = s.cancelled)
    (herr : s'.errors = s.errors) (hloop : s'.loop = s.loop)
    (hev : ∀ fc succ msg, .finished fc succ msg ∈ s'.events → .finished fc succ msg ∈ s.events) :
    s'.Control := by
  have hl := hc.loop_ne_finished hk hf
  have hfy := hc.not_yielded hk hf
  refine ⟨fun g hg hgy => ?_, fun hcf => ?_, fun h => absurd (hloop ▸ h) hl,
    fun fc succ msg he => absurd (hc.finished fc succ msg (hev fc succ msg he)).1 hl⟩
  · rw [hfut] at hg
    rcases List.mem_or_eq_of_mem_set hg with hg | rfl
    · exact hc.yielded_done g hg hgy
    · simp [hy] at hgy
  · have hfail : (s.setFuture k f').failedYielded = s.failedYielded :=
      failedYielded_setFuture hk (by simp [Future.failedYielded, hy, hfy])
    obtain ⟨hb, he⟩ := hc.errors (hcan ▸ hcf)
    refine ⟨hloop ▸ hb, ?_⟩
    rw [herr, he, ← hfail]
    simp only [failedYielded, hfut]
    rfl

/-- An update of call `k` that keeps its counter contributions keeps the counts. -/
theorem Counts.setFuture (hc : s.Counts) (hk : s.futures[k]? = some f) (f' : Future)
    (hcp : f'.copiedPart = f.copiedPart) (hpf : f'.pc.pendingFp = f.pc.pendingFp) (s' : PoolState)
    (hfut : s'.futures = s.futures.set k f') (hfiles : s'.filesCopied = s.filesCopied)
    (hsize : s'.copiedSize = s.copiedSize) (hev : s'.events = s.events) : s'.Counts := by
  have hC : s'.copiedSizes.Perm s.copiedSizes := by
    have h := copiedSizes_setFuture hk f'
    rw [hcp, List.perm_append_right_iff] at h
    simpa only [copiedSizes, hfut] using h
  have hP : s'.pendingFps.Perm s.pendingFps := by
    have h := pendingFps_setFuture hk f'
    rw [hpf, List.perm_append_right_iff] at h
    simpa only [pendingFps, hfut] using h
  refine ⟨by rw [hfiles, hc.files, hC.length_eq], by rw [hsize, hc.size, hC.sum_eq], ?_⟩
  rw [hfiles, progressFps, hev]
  exact (hP.append_left _).trans hc.fps

/-- A call a pool thread takes off the queue contributes nothing yet. -/
theorem Inv.afterStart (hs : s.Inv) (hk : s.futures[k]? = some f) (hq : f.pc = .queued) :
    (s.setFuture k { f with pc := .started }).Inv := by
  have hnd : f.pc.isDone = false := by simp [hq, TaskPc.isDone]
  have hy : f.yielded = false := hs.control.not_yielded hk hnd
  refine ⟨hs.counts.setFuture hk { f with pc := .started } ?_ ?_ _ rfl rfl rfl rfl,
    hs.control.setFuture hk hnd { f with pc := .started } hy _ rfl rfl rfl rfl fun _ _ _ h => h⟩
  · simp [Future.copiedPart, hq, TaskPc.copied]
  · simp [hq, TaskPc.pendingFp]

theorem Inv.afterCheck (hs : s.Inv) (hk : s.futures[k]? = some f) (hq : f.pc = .started) :
    (s.afterCheck k f).Inv := by
  have hnd : f.pc.isDone = false := by simp [hq, TaskPc.isDone]
  have hy := hs.control.not_yielded hk hnd
  let f' : Future := { f with pc := if s.cancelled then .done false (some "cancelled") else .copying }
  refine ⟨hs.counts.setFuture hk f' ?_ ?_ _ rfl rfl rfl rfl,
    hs.control.setFuture hk hnd f' hy _ rfl rfl rfl rfl fun _ _ _ h => h⟩
  · by_cases hc : s.cancelled <;> simp [f', hc, Future.copiedPart, hq, TaskPc.copied]
  · by_cases hc : s.cancelled <;> simp [f', hc, hq, TaskPc.pendingFp]

theorem Inv.afterCopy (hs : s.Inv) (hk : s.futures[k]? = some f) (hcp : f.pc = .copying)
    (o : CopyOutcome) : (s.afterCopy k f o).Inv := by
  have hnd : f.pc.isDone = false := by simp [hcp, TaskPc.isDone]
  have hy := hs.control.not_yielded hk hnd
  have hf0 : f.copiedPart = none := by simp [Future.copiedPart, hcp, TaskPc.copied]
  have hp0 : f.pc.pendingFp = none := by simp [hcp, TaskPc.pendingFp]
  have failed : ∀ e, (s.setFuture k { f with pc := .done false e }).Inv := fun e =>
    ⟨hs.counts.setFuture hk { f with pc := .done false e } hf0.symm hp0.symm _ rfl rfl rfl rfl,
     hs.control.setFuture hk hnd { f with pc := .done false e } hy _ rfl rfl rfl rfl fun _ _ _ h => h⟩
  cases o with
  | copied =>
    let f' : Future := { f with pc := .counted (s.filesCopied + 1) (s.copiedSize + f.task.size) }
    have hC := copiedSizes_setFuture hk f'
    have hP := pendingFps_setFuture hk f'
    rw [hf0, show f'.copiedPart = some f.task.size from rfl] at hC
    rw [hp0, show f'.pc.pendingFp = some (s.filesCopied + 1) from rfl] at hP
    simp only [Option.toList_none, Option.toList_some, List.append_nil] at hC hP
    refine ⟨⟨?_, ?_, ?_⟩, hs.control.setFuture hk hnd f' hy _ rfl rfl rfl rfl fun _ _ _ h => h⟩
    · show s.filesCopied + 1 = (s.setFuture k f').copiedSizes.length
      rw [hC.length_eq, hs.counts.files, List.length_append, List.length_singleton]
    · show s.copiedSize + f.task.size = (s.setFuture k f').copiedSizes.sum
      rw [hC.sum_eq, hs.counts.size, List.sum_append, List.sum_singleton]
    · show (s.progressFps ++ (s.setFuture k f').pendingFps).Perm (List.range' 1 (s.filesCopied + 1))
      rw [List.range'_concat, Nat.one_mul, Nat.add_comm 1]
      exact (hP.append_left _).trans (by
        rw [← List.append_assoc]
        exact hs.counts.fps.append_right _)
  | hashMismatch => exact failed _
  | failed e => exact failed _

theorem Inv.afterEmit (hs : s.Inv) (hk : s.futures[k]? = some f) {fp cs : Nat}
    (hpc : f.pc = .counted fp cs) : (s.afterEmit k f fp cs).Inv := by
  have hnd : f.pc.isDone = false := by simp [hpc, TaskPc.isDone]
  have hy := hs.control.not_yielded hk hnd
  let f' : Future := { f with pc := .done true none }
  have hC := copiedSizes_setFuture hk f'
  have hP := pendingFps_setFuture hk f'
  rw [show f.copiedPart = f'.copiedPart by simp [f', Future.copiedPart, hpc, TaskPc.copied],
    List.perm_append_right_iff] at hC
  rw [show f.pc.pendingFp = some fp by simp [hpc, TaskPc.pendingFp],
    show f'.pc.pendingFp = none from rfl] at hP
  simp only [Option.toList_none, Option.toList_some, List.append_nil] at hP
  have hev : (s.afterEmit k f fp cs).progressFps = s.progressFps ++ [fp] := by
    show (s.events ++ [BackupEvent.progressUpdate fp f.task.src.basename f.task.size cs]).filterMap
      BackupEvent.progressFp = _
    rw [List.filterMap_append]
    rfl
  refine ⟨⟨?_, ?_, ?_⟩, hs.control.setFuture hk hnd f' hy _ rfl rfl rfl rfl fun _ _ _ h => ?_⟩
  · exact hs.counts.files.trans hC.length_eq.symm
  · exact hs.counts.size.trans hC.sum_eq.symm
  · show (_ ++ (s.setFuture k f').pendingFps).Perm _
    rw [hev, List.append_assoc]
    exact ((List.perm_append_comm.trans hP).append_left _).trans hs.counts.fps
  · exact (List.mem_append.mp h).resolve_right (by simp)

theorem Inv.afterComplete (hs : s.Inv) (hk : s.futures[k]? = some f) {ok : Bool}
    {err : Option String} (hpc : f.pc = .done ok err) (hloop : s.loop = .iterating)
    (hfy : f.yielded = false) : (s.afterComplete k f ok).Inv := by
  let f' : Future := { f with yielded := true }
  refine ⟨hs.counts.setFuture hk f' rfl rfl _ rfl rfl rfl rfl, ⟨fun g hg hgy => ?_, fun hc => ?_,
    fun hl => ?_, fun fc succ msg he => ?_⟩⟩
  · rcases List.mem_or_eq_of_mem_set hg with hg | rfl
    · exact hs.control.yielded_done g hg hgy
    · simp [f', hpc, TaskPc.isDone]
  · have hc' : s.cancelled = false := hc
    obtain ⟨-, he⟩ := hs.control.errors hc'
    obtain ⟨hlt, rfl⟩ := List.getElem?_eq_some_iff.mp hk
    refine ⟨by simp [afterComplete, hc'], ?_⟩
    have hset := List.countP_set Future.failedYielded s.futures k f' hlt
    have h0 : s.futures[k].failedYielded = false := by simp [Future.failedYielded, hfy]
    have h1 : f'.failedYielded = !ok := by simp [f', Future.failedYielded, hpc, TaskPc.copied]
    show (if s.cancelled || ok then s.errors else s.errors + 1) = (s.futures.set k f').countP _
    rw [hset, h0, h1, he, hc']
    cases ok <;> rfl
  · have hne : (s.afterComplete k f ok).loop ≠ .finished := by
      show (if s.cancelled then LoopPc.broken else .iterating) ≠ .finished
      split <;> decide
    exact absurd hl hne
  · rw [(hs.control.finished fc succ msg he).1] at hloop
    cases hloop

theorem Inv.afterFinish (hs : s.Inv)
    (hl : s.loop = .broken ∨ (s.loop = .iterating ∧ ∀ f ∈ s.futures, f.yielded = true))
    (hd : ∀ f ∈ s.futures, f.pc.isDone = true) :
    ({ s with loop := .finished, events := s.events ++ [s.report] } : PoolState).Inv := by
  have hnf : s.loop ≠ .finished := by rcases hl with h | ⟨h, -⟩ <;> rw [h] <;> decide
  refine ⟨⟨hs.counts.files, hs.counts.size, ?_⟩,
    ⟨hs.control.yielded_done, fun hc => ⟨by simp, (hs.control.errors hc).2⟩, fun _ => hd, ?_⟩⟩
  · have hr : s.report.progressFp = none := by
      simp only [report]; split_ifs <;> rfl
    simpa [progressFps, hr] using hs.counts.fps
  · intro fc succ msg he
    rcases List.mem_append.mp he with he | he
    · exact absurd (hs.control.finished fc succ msg he).1 hnf
    · rw [List.mem_singleton] at he
      refine ⟨rfl, ?_, fun hc => ?_⟩
      · simp only [report] at he; split_ifs at he <;> cases he <;> rfl
      · have hc' : s.cancelled = false := hc
        have hb := (hs.control.errors hc').1
        have hy : ∀ f ∈ s.futures, f.yielded = true := by
          rcases hl with h | ⟨-, h⟩
          · exact absurd h hb
          · exact h
        simp only [report, hc', Bool.false_eq_true, if_false] at he
        split_ifs at he with h0 <;> cases he <;> exact ⟨by simp [h0], hy⟩

theorem Inv.afterCancel (hs : s.Inv) (hl : s.loop ≠ .finished) :
    ({ s with cancelled := true } : PoolState).Inv :=
  ⟨⟨hs.counts.files, hs.counts.size, hs.counts.fps⟩, ⟨hs.control.yielded_done, by simp, fun h => absurd h hl,
    fun fc succ msg he => absurd (hs.control.finished fc succ msg he).1 hl⟩⟩

end Update

end PoolState

namespace BackupWorker

variable {w : BackupWorker} {s s' : PoolState} {k : Nat}

theorem step_start (h : w.step s (.start k) = some s') :
    ∃ f, s.futures[k]? = some f ∧ f.pc = .queued ∧ s' = s.setFuture k { f with pc := .started } := by
  cases hf : s.futures[k]? with
  | none => simp [step, hf] at h
  | some f =>
    simp only [step, hf] at h
    split_ifs at h with hg
    exact ⟨f, rfl, hg.1, (Option.some.inj h).symm⟩

theorem step_check (h : w.step s (.check k) = some s') :
    ∃ f, s.futures[k]? = some f ∧ f.pc = .started ∧ s' = s.afterCheck k f := by
  cases hf : s.futures[k]? with
  | none => simp [step, hf] at h
  | some f =>
    simp only [step, hf] at h
    split_ifs at h with hg
    exact ⟨f, rfl, hg, (Option.some.inj h).symm⟩

theorem step_copy {o : CopyOutcome} (h : w.step s (.copy k o) = some s') :
    ∃ f, s.futures[k]? = some f ∧ f.pc = .copying ∧ o.possible w.verifyHash f.task = true ∧
      s' = s.afterCopy k f o := by
  cases hf : s.futures[k]? with
  | none => simp [step, hf] at h
  | some f =>
    simp only [step, hf] at h
    split_ifs at h with hg
    exact ⟨f, rfl, hg.1, hg.2, (Option.some.inj h).symm⟩

theorem step_emit (h : w.step s (.emit k) = some s') :
    ∃ f fp cs, s.futures[k]? = some f ∧ f.pc = .counted fp cs ∧ s' = s.afterEmit k f fp cs := by
  cases hf : s.futures[k]? with
  | none => simp [step, hf] at h
  | some f =>
    simp only [step, hf] at h
    split at h
    · exact ⟨f, _, _, rfl, ‹_›, (Option.some.inj h).symm⟩
    · cases h

theorem step_complete (h : w.step s (.complete k) = some s') :
    ∃ f ok err, s.futures[k]? = some f ∧ f.pc = .done ok err ∧ s.loop = .iterating ∧
      f.yielded = false ∧ s' = s.afterComplete k f ok := by
  cases hf : s.futures[k]? with
  | none => simp [step, hf] at h
  | some f =>
    simp only [step, hf] at h
    split at h
    · split_ifs at h with hg
      exact ⟨f, _, _, rfl, ‹_›, hg.1, hg.2, (Option.some.inj h).symm⟩
    · cases h

theorem step_finish (h : w.step s .finish = some s') :
    (s.loop = .broken ∨ (s.loop = .iterating ∧ ∀ f ∈ s.futures, f.yielded = true)) ∧
    (∀ f ∈ s.futures, f.pc.isDone = true) ∧
    s' = { s with loop := .finished, events := s.events ++ [s.report] } := by
  simp only [step] at h
  split_ifs at h with hg
  simp only [List.all_eq_true] at hg
  exact ⟨hg.1, hg.2, (Option.some.inj h).symm⟩

theorem step_cancel (h : w.step s .cancel = some s') :
    s.loop ≠ .finished ∧ s' = { s with cancelled := true } := by
  simp only [step] at h
  split_ifs at h with hg
  exact ⟨hg, (Option.some.inj h).symm⟩

theorem step_inv {a : PoolAction} (h : w.step s a = some s') (hs : s.Inv) : s'.Inv := by
  cases a with
  | start k =>
    obtain ⟨f, hk, hq, rfl⟩ := step_start h
    exact hs.afterStart hk hq
  | check k =>
    obtain ⟨f, hk, hq, rfl⟩ := step_check h
    exact hs.afterCheck hk hq
  | copy k o =>
    obtain ⟨f, hk, hc, -, rfl⟩ := step_copy h
    exact hs.afterCopy hk hc o
  | emit k =>
    obtain ⟨f, fp, cs, hk, hc, rfl⟩ := step_emit h
    exact hs.afterEmit hk hc
  | complete k =>
    obtain ⟨f, ok, err, hk, hc, hl, hy, rfl⟩ := step_complete h
    exact hs.afterComplete hk hc hl hy
  | finish =>
    obtain ⟨hl, hd, rfl⟩ := step_finish h
    exact hs.afterFinish hl hd
  | cancel =>
    obtain ⟨hl, rfl⟩ := step_cancel h
    exact hs.afterCancel hl

theorem runActions_cons (a : PoolAction) (acts : List PoolAction) :
    w.runActions s (a :: acts) = (w.step s a).bind (w.runActions · acts) := rfl

theorem runActions_append (pre post : List PoolAction) :
    w.runActions s (pre ++ post) = (w.runActions s pre).bind (w.runActions · post) := by
  simp [runActions, List.foldlM_append]

/-- Every state a schedule reaches from a state satisfying `Inv` satisfies it. -/
theorem runActions_inv {acts : List PoolAction} (h : w.runActions s acts = some s')
    (hs : s.Inv) : s'.Inv := by
  induction acts generalizing s with
  | nil => cases h; exact hs
  | cons a acts ih =>
    rw [runActions_cons] at h
    obtain ⟨s1, h1, h2⟩ := Option.bind_eq_some.mp h
    exact ih h2 (step_inv h1 hs)

end BackupWorker

end SakUtility
