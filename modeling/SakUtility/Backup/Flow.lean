import SakUtility.Backup.Sources

/-!
# The backup flow of `MainWindow`

A click runs `trigger_backup(name)`: it queues each resolved path with a new log (`prepare`,
which gives the log's name or raises) and starts one `PermissionUpdateWorker` over them; each
`finished` slot goes on with the queue after a success and drops it after a failure. A
progress dialog keeps clicks out while a worker runs, but Cancel hides it, so a click can
come while earlier workers run. Every run without such a click follows the protocol `Phase`,
and in every run a failure signal drops the queue, whichever worker sends it.
-/

namespace SakUtility

set_option autoImplicit false

/-- An item of `_backup_queue`: `(source_dir, patterns, destination_root, log_file)`. -/
structure QueueItem where
  sourceDir : String
  patterns : List String
  destinationRoot : String
  logFile : String
  deriving DecidableEq, Repr

/-- A worker the window starts: `PermissionUpdateWorker(paths, log_file)`, or the
`BackupWorker` of a queue item. -/
inductive Worker
  | permission (paths : List String) (logFile : String)
  | backup (item : QueueItem)
  deriving DecidableEq, Repr

/-- The attributes of `MainWindow` the backup flow reads and writes, and the file system. -/
structure Window (σ : Type) where
  fs : σ
  backupLocation : String
  resolvedSources : List (String × List String)
  backupQueue : List QueueItem
  pendingPermissionUpdate : List (String × String)

namespace Window

variable {σ E : Type}

/-- `start_backup(*item)`: the worker it starts; none, with a warning, when `backup_location`
or `source_dir` is empty. -/
def startBackup (w : Window σ) (item : QueueItem) : Option Worker :=
  if w.backupLocation = "" ∨ item.sourceDir = "" then none else some (.backup item)

/-- `_start_next_backup()`: `start_backup` on the item popped from the queue. -/
def startNextBackup (w : Window σ) : Window σ × Option Worker :=
  match w.backupQueue with
  | [] => (w, none)
  | item :: rest => ({ w with backupQueue := rest }, w.startBackup item)

/-- `_start_permission_update()`: one worker over the pending paths, with the first one's log. -/
def startPermissionUpdate (w : Window σ) : Window σ × Option Worker :=
  match w.pendingPermissionUpdate with
  | [] => w.startNextBackup
  | first :: rest => (w, some (.permission ((first :: rest).map Prod.fst) first.2))

/-- What the two `finished` slots do with the queue: go on after a success, drop it after a
failure. -/
def afterWorker (w : Window σ) (success : Bool) : Window σ × Option Worker :=
  if success then w.startNextBackup else ({ w with backupQueue := [] }, none)

/-- `_permission_update_finished(success, message)`. -/
def permissionUpdateFinished (w : Window σ) (success : Bool) : Window σ × Option Worker :=
  w.afterWorker success

/-- `backup_finished(files_copied, success, message)`. -/
def backupFinished (w : Window σ) (success : Bool) : Window σ × Option Worker :=
  w.afterWorker success

variable (prepare : σ → String → String → σ × Except E String) (pl : Platform)

/-- The loop of `trigger_backup` over the resolved paths: for each, `prepare` makes the
destination root and the log `f"backup_{dest}_{user}"`, and the item is queued. -/
def queueSources (patterns : List String) (dest : String) :
    List String → Window σ → Window σ × Option E
  | [], w => (w, none)
  | p :: ps, w =>
    match prepare w.fs (destinationRoot pl w.backupLocation (userLabel pl p) dest)
        ("backup_" ++ dest ++ "_" ++ userLabel pl p) with
    | (fs, .error e) => ({ w with fs := fs }, some e)
    | (fs, .ok logFile) =>
      queueSources patterns dest ps { w with
        fs := fs
        backupQueue := w.backupQueue ++
          [⟨p, patterns, destinationRoot pl w.backupLocation (userLabel pl p) dest, logFile⟩]
        pendingPermissionUpdate := w.pendingPermissionUpdate ++ [(p, logFile)] }

/-- `trigger_backup(name)` on the button of the `backup_sources` entry `(name, src)`: the
window after it, the worker it starts and the exception it raises. -/
def triggerBackup (w : Window σ) (name : String) (src : BackupSource) :
    Window σ × Option Worker × Option E :=
  match w.resolvedSources.lookup name with
  | none | some [] => (w, none, none)
  | some paths =>
    match queueSources prepare pl src.patterns src.dest paths
        { w with backupQueue := [], pendingPermissionUpdate := [] } with
    | (w', some e) => (w', none, some e)
    | (w', none) => (w'.startPermissionUpdate.1, w'.startPermissionUpdate.2, none)

end Window

/-- The two application-modal progress dialogs: `perm_dialog` and `progress_dialog`. -/
inductive Dialog
  | permission
  | progress
  deriving DecidableEq, Repr

/-- The dialog a worker's start shows and its `finished` slot closes. -/
def Worker.dialog : Worker → Dialog
  | .permission _ _ => .permission
  | .backup _ => .progress

/-- The window, the workers whose `finished` signal is still to come, in the order they were
started, and the progress dialogs shown. -/
structure Flow (σ : Type) where
  window : Window σ
  running : List Worker
  permDialog : Bool
  progressDialog : Bool

/-- What reaches the window: a click on the button of the `backup_sources` entry
`(name, src)`, Cancel on a progress dialog, or the `finished` signal of the `i`-th worker
running. -/
inductive FlowEvent
  | click (name : String) (src : BackupSource)
  | cancel (d : Dialog)
  | finished (i : Nat) (success : Bool)

def FlowEvent.isClick : FlowEvent → Bool
  | .click _ _ => true
  | _ => false

namespace Flow

variable {σ E : Type} (prepare : σ → String → String → σ × Except E String) (pl : Platform)

def shown (s : Flow σ) : Dialog → Bool
  | .permission => s.permDialog
  | .progress => s.progressDialog

/-- Dialog `d` set to `b`: shown, or closed or hidden. -/
def setDialog (s : Flow σ) (b : Bool) : Dialog → Flow σ
  | .permission => { s with permDialog := b }
  | .progress => { s with progressDialog := b }

/-- The dialog of the worker started, if one is, shown. -/
def showWorker (s : Flow σ) : Option Worker → Flow σ
  | none => s
  | some j => s.setDialog true j.dialog

/-- The `finished` slot of worker `j` on the window. -/
def slot (w : Window σ) (success : Bool) : Worker → Window σ × Option Worker
  | .permission _ _ => w.permissionUpdateFinished success
  | .backup _ => w.backupFinished success

/-- One event: the flow after it and the worker it starts; none when it cannot happen. A click
needs no dialog shown; Cancel hides its dialog, and the worker then winds down and sends its
`finished` signal like any other; a slot closes its own kind of dialog, whichever worker it
was shown for, then shows the dialog of the worker it starts. -/
def step (s : Flow σ) : FlowEvent → Option (Flow σ × Option Worker)
  | .click name src =>
    if !s.permDialog && !s.progressDialog && decide ((name, src) ∈ backupSources pl) then
      let r := s.window.triggerBackup prepare pl name src
      some ((⟨r.1, s.running ++ r.2.1.toList, s.permDialog, s.progressDialog⟩ : Flow σ).showWorker r.2.1,
        r.2.1)
    else none
  | .cancel d => if s.shown d then some (s.setDialog false d, none) else none
  | .finished i success =>
    match s.running[i]? with
    | none => none
    | some j =>
      let r := slot s.window success j
      some (({ s.setDialog false j.dialog with
        window := r.1, running := s.running.eraseIdx i ++ r.2.toList } : Flow σ).showWorker r.2, r.2)

/-- A run over a list of events: the flow at its end and the workers started, in order. -/
def run : Flow σ → List FlowEvent → Option (Flow σ × List Worker)
  | s, [] => some (s, [])
  | s, ev :: evs =>
    (step prepare pl s ev).bind fun r =>
      (run r.1 evs).map fun r' => (r'.1, r.2.toList ++ r'.2)

/-- Every click of the run comes when no worker started earlier is still running. -/
def clicksWhenIdle : Flow σ → List FlowEvent → Bool
  | _, [] => true
  | s, ev :: evs =>
    (!ev.isClick || s.running.isEmpty) &&
      match step prepare pl s ev with
      | some r => clicksWhenIdle r.1 evs
      | none => true

end Flow

/-! ### The protocol -/

/-- The protocol the flow is written for: no worker running; the permission update of a queue
running; or the backup of an item running, with the items after it to go. -/
inductive Phase
  | idle
  | permission (first : QueueItem) (rest : List QueueItem)
  | backup (item : QueueItem) (rest : List QueueItem)

namespace Phase

def worker : Phase → Option Worker
  | idle => none
  | permission first rest =>
    some (.permission ((first :: rest).map QueueItem.sourceDir) first.logFile)
  | backup item _ => some (.backup item)

/-- What `_backup_queue` holds: the whole queue during its permission update, the items after
the one backed up during a backup. -/
def Queue : Phase → List QueueItem → Prop
  | idle, _ => True
  | permission first rest, q => q = first :: rest
  | backup _ rest, q => q = rest

/-- The queue a click makes starts its permission update. -/
def ofQueue : List QueueItem → Phase
  | [] => idle
  | first :: rest => permission first rest

/-- The backup of the first item to go, when `start` takes it. -/
def next (start : QueueItem → Bool) : List QueueItem → Phase
  | [] => idle
  | item :: rest => if start item then backup item rest else idle

/-- The end of the worker running: after a success the queue goes on, after a failure it
stops. -/
def finish (start : QueueItem → Bool) : Phase → Bool → Phase
  | idle, _ => idle
  | _, false => idle
  | permission first rest, true => next start (first :: rest)
  | backup _ rest, true => next start rest

theorem eq_idle_of_worker {ph : Phase} (h : ph.worker.toList = []) : ph = idle := by
  cases ph <;> simp_all [worker]

theorem ofQueue_queue (q : List QueueItem) : (ofQueue q).Queue q := by
  cases q <;> trivial

theorem finish_true {start : QueueItem → Bool} {ph : Phase} {q : List QueueItem}
    (hq : ph.Queue q) (hph : ph ≠ idle) : ph.finish start true = next start q := by
  cases ph with
  | idle => exact absurd rfl hph
  | permission first rest | backup first rest =>
    simp only [Queue] at hq
    rw [hq]
    rfl

end Phase

/-- The traces the protocol allows from a phase: the workers started along a list of events.
A click comes only when no worker runs, and starts the permission update of the queue it makes,
if any; Cancel changes nothing the protocol sees; the end of the one worker running goes on or
stops as `Phase.finish` says. -/
inductive Follows (start : QueueItem → Bool) : Phase → List FlowEvent → List Worker → Prop
  | nil (ph : Phase) : Follows start ph [] []
  | click {name : String} {src : BackupSource} {evs : List FlowEvent} {ws : List Worker}
      (queue : List QueueItem) : Follows start (Phase.ofQueue queue) evs ws →
      Follows start .idle (.click name src :: evs) ((Phase.ofQueue queue).worker.toList ++ ws)
  | cancel {ph : Phase} {d : Dialog} {evs : List FlowEvent} {ws : List Worker} :
      Follows start ph evs ws → Follows start ph (.cancel d :: evs) ws
  | finished {ph : Phase} {success : Bool} {evs : List FlowEvent} {ws : List Worker} :
      ph ≠ .idle → Follows start (ph.finish start success) evs ws →
      Follows start ph (.finished 0 success :: evs) ((ph.finish start success).worker.toList ++ ws)

/-- What `start_backup` takes: a set `backup_location` and a nonempty `source_dir`. -/
def startable (backupLocation : String) (item : QueueItem) : Bool :=
  backupLocation != "" && item.sourceDir != ""

/-! ### The flow follows the protocol -/

namespace Window

variable {σ E : Type}

theorem startBackup_eq (w : Window σ) (item : QueueItem) :
    w.startBackup item = if startable w.backupLocation item then some (.backup item) else none := by
  unfold startBackup startable
  by_cases ha : w.backupLocation = "" <;> by_cases hi : item.sourceDir = "" <;> simp [ha, hi]

theorem startNextBackup_spec (w : Window σ) :
    w.startNextBackup.1.backupLocation = w.backupLocation ∧
      w.startNextBackup.2 = (Phase.next (startable w.backupLocation) w.backupQueue).worker ∧
      (Phase.next (startable w.backupLocation) w.backupQueue).Queue w.startNextBackup.1.backupQueue := by
  unfold startNextBackup
  cases hq : w.backupQueue with
  | nil => exact ⟨rfl, rfl, trivial⟩
  | cons item rest =>
    cases hs : startable w.backupLocation item <;>
      simp [startBackup_eq, hs, Phase.next, Phase.worker, Phase.Queue]

/-- The two `finished` slots, in a phase with a worker running, go to the phase the protocol
says. -/
theorem afterWorker_spec {w : Window σ} {ph : Phase} (hq : ph.Queue w.backupQueue)
    (hph : ph ≠ .idle) (success : Bool) :
    (w.afterWorker success).1.backupLocation = w.backupLocation ∧
      (w.afterWorker success).2 = (ph.finish (startable w.backupLocation) success).worker ∧
      (ph.finish (startable w.backupLocation) success).Queue (w.afterWorker success).1.backupQueue := by
  cases success with
  | false => cases ph <;> first | exact absurd rfl hph | exact ⟨rfl, rfl, trivial⟩
  | true =>
    rw [Phase.finish_true hq hph]
    exact w.startNextBackup_spec

variable (prepare : σ → String → String → σ × Except E String) (pl : Platform)

theorem queueSources_pending (patterns : List String) (dest : String) :
    ∀ (paths : List String) (w : Window σ),
      w.pendingPermissionUpdate = w.backupQueue.map (fun q => (q.sourceDir, q.logFile)) →
      (queueSources prepare pl patterns dest paths w).1.pendingPermissionUpdate =
        (queueSources prepare pl patterns dest paths w).1.backupQueue.map
          (fun q => (q.sourceDir, q.logFile)) ∧
      (queueSources prepare pl patterns dest paths w).1.backupLocation = w.backupLocation := by
  intro paths
  induction paths with
  | nil => exact fun w h => ⟨h, rfl⟩
  | cons p ps ih =>
    intro w h
    unfold queueSources
    split
    · exact ⟨h, rfl⟩
    · exact ih _ (by simp [h])

/-- A click leaves the location as it was, and the worker it starts is the permission update of
the queue it makes, if it makes one. -/
theorem triggerBackup_spec (w : Window σ) (name : String) (src : BackupSource) :
    (w.triggerBackup prepare pl name src).1.backupLocation = w.backupLocation ∧
      ∃ q, (w.triggerBackup prepare pl name src).2.1 = (Phase.ofQueue q).worker ∧
        (Phase.ofQueue q).Queue (w.triggerBackup prepare pl name src).1.backupQueue := by
  unfold triggerBackup
  split
  · exact ⟨rfl, [], rfl, trivial⟩
  · exact ⟨rfl, [], rfl, trivial⟩
  · rename_i paths _ _
    obtain ⟨hp, hl⟩ := queueSources_pending prepare pl src.patterns src.dest paths
      { w with backupQueue := [], pendingPermissionUpdate := [] } rfl
    split
    · rename_i w' e hr
      rw [hr] at hl
      exact ⟨hl, [], rfl, trivial⟩
    · rename_i w' hr
      rw [hr] at hp hl
      dsimp only at hp hl
      have hs : w'.startPermissionUpdate = (w', (Phase.ofQueue w'.backupQueue).worker) := by
        unfold startPermissionUpdate
        rw [hp]
        cases hq : w'.backupQueue with
        | nil => simp [startNextBackup, hq, Phase.ofQueue, Phase.worker]
        | cons first rest => simp [Phase.ofQueue, Phase.worker, Function.comp_def]
      rw [hs]
      exact ⟨hl, w'.backupQueue, rfl, Phase.ofQueue_queue _⟩

end Window

namespace Flow

variable {σ E : Type} (prepare : σ → String → String → σ × Except E String) (pl : Platform)

/-- The flow is in a phase: it waits for the phase's worker only, and its queue is the
phase's. -/
def InPhase (s : Flow σ) (ph : Phase) : Prop :=
  s.running = ph.worker.toList ∧ ph.Queue s.window.backupQueue

@[simp] theorem running_setDialog (s : Flow σ) (b : Bool) (d : Dialog) :
    (s.setDialog b d).running = s.running := by
  cases d <;> rfl

@[simp] theorem window_setDialog (s : Flow σ) (b : Bool) (d : Dialog) :
    (s.setDialog b d).window = s.window := by
  cases d <;> rfl

@[simp] theorem running_showWorker (s : Flow σ) (wk : Option Worker) :
    (s.showWorker wk).running = s.running := by
  cases wk <;> simp [showWorker]

@[simp] theorem window_showWorker (s : Flow σ) (wk : Option Worker) :
    (s.showWorker wk).window = s.window := by
  cases wk <;> simp [showWorker]

theorem slot_eq (w : Window σ) (success : Bool) (j : Worker) :
    slot w success j = w.afterWorker success := by
  cases j <;> rfl

/-- The `finished` signal of the `i`-th worker running is `afterWorker` on the window, which
drops that worker and adds the one it starts. -/
theorem step_finished {s : Flow σ} {i : Nat} {j : Worker} (h : s.running[i]? = some j)
    (success : Bool) :
    ∃ s', step prepare pl s (.finished i success) = some (s', (s.window.afterWorker success).2) ∧
      s'.window = (s.window.afterWorker success).1 ∧
      s'.running = s.running.eraseIdx i ++ (s.window.afterWorker success).2.toList := by
  refine ⟨_, by simp only [step, h, slot_eq]; rfl, ?_, ?_⟩ <;> simp

theorem step_finished_eq_some {s s' : Flow σ} {i : Nat} {success : Bool} {wk : Option Worker}
    (h : step prepare pl s (.finished i success) = some (s', wk)) :
    ∃ j, s.running[i]? = some j ∧ wk = (s.window.afterWorker success).2 ∧
      s'.window = (s.window.afterWorker success).1 ∧
      s'.running = s.running.eraseIdx i ++ (s.window.afterWorker success).2.toList := by
  cases hj : s.running[i]? with
  | none => simp [step, hj] at h
  | some j =>
    obtain ⟨s₁, h₁, hw, hr⟩ := step_finished prepare pl hj success
    rw [h₁] at h
    obtain ⟨rfl, rfl⟩ := Prod.mk.inj (Option.some.inj h)
    exact ⟨j, rfl, rfl, hw, hr⟩

theorem step_cancel_eq_some {s s' : Flow σ} {d : Dialog} {wk : Option Worker}
    (h : step prepare pl s (.cancel d) = some (s', wk)) :
    wk = none ∧ s'.window = s.window ∧ s'.running = s.running := by
  simp only [step] at h
  split_ifs at h
  cases h
  simp

/-- One event, in a phase, when it is not a click while a worker runs, leads to the phase the
protocol allows, starting its worker. -/
theorem step_follows {s : Flow σ} {ph : Phase} (hs : s.InPhase ph) {ev : FlowEvent}
    (hc : ev.isClick = true → s.running = []) {s' : Flow σ} {wk : Option Worker}
    (h : step prepare pl s ev = some (s', wk)) :
    s'.window.backupLocation = s.window.backupLocation ∧ ∃ ph', s'.InPhase ph' ∧
      ∀ evs ws, Follows (startable s.window.backupLocation) ph' evs ws →
        Follows (startable s.window.backupLocation) ph (ev :: evs) (wk.toList ++ ws) := by
  cases ev with
  | click name src =>
    simp only [step] at h
    split_ifs at h
    cases h
    have hr := hc rfl
    obtain rfl := Phase.eq_idle_of_worker (hs.1.symm.trans hr)
    obtain ⟨hl, q, hw, hq⟩ := s.window.triggerBackup_spec prepare pl name src
    refine ⟨by simpa using hl, Phase.ofQueue q, ⟨by simp [hr, hw], by simpa using hq⟩,
      fun evs ws hf => hw ▸ .click q hf⟩
  | cancel d =>
    obtain ⟨rfl, hw, hr⟩ := step_cancel_eq_some prepare pl h
    exact ⟨by rw [hw], ph, ⟨hr ▸ hs.1, hw ▸ hs.2⟩, fun evs ws hf => .cancel hf⟩
  | finished i success =>
    -- the one worker running is the phase's
    obtain ⟨j, hj, rfl, hw₁, hr₁⟩ := step_finished_eq_some prepare pl h
    have hph : ph ≠ .idle := fun he => by simp [hs.1, he, Phase.worker] at hj
    obtain ⟨rfl, hwj⟩ : i = 0 ∧ ph.worker = some j := by
      cases hw : ph.worker with
      | none => simp [hs.1, hw] at hj
      | some j' =>
        rw [hs.1, hw] at hj
        cases i <;> simp_all
    obtain ⟨hl, hw, hq⟩ := Window.afterWorker_spec hs.2 hph success
    refine ⟨by rw [hw₁, hl], _, ⟨by simp [hr₁, hs.1, hw, hwj], by rwa [hw₁]⟩,
      fun evs ws hf => hw ▸ .finished hph hf⟩

theorem run_cons (s : Flow σ) (ev : FlowEvent) (evs : List FlowEvent) :
    run prepare pl s (ev :: evs) = (step prepare pl s ev).bind fun r =>
      (run prepare pl r.1 evs).map fun r' => (r'.1, r.2.toList ++ r'.2) := rfl

theorem run_cons_eq_some {s s' : Flow σ} {ev : FlowEvent} {evs : List FlowEvent}
    {ws : List Worker} (h : run prepare pl s (ev :: evs) = some (s', ws)) :
    ∃ s₁ wk ws₂, step prepare pl s ev = some (s₁, wk) ∧ run prepare pl s₁ evs = some (s', ws₂) ∧
      ws = wk.toList ++ ws₂ := by
  obtain ⟨⟨s₁, wk⟩, h₁, h₂⟩ := Option.bind_eq_some.mp h
  obtain ⟨⟨s₂, ws₂⟩, h₃, h₄⟩ := Option.map_eq_some'.mp h₂
  cases h₄
  exact ⟨s₁, wk, ws₂, h₁, h₃, rfl⟩

/-- Every run from a phase in which no click comes while a worker runs follows the protocol. -/
theorem run_follows : ∀ (evs : List FlowEvent) {s : Flow σ} {ph : Phase} {s' : Flow σ}
    {ws : List Worker}, s.InPhase ph → clicksWhenIdle prepare pl s evs = true →
      run prepare pl s evs = some (s', ws) → Follows (startable s.window.backupLocation) ph evs ws := by
  intro evs
  induction evs with
  | nil =>
    intro s ph s' ws _ _ h
    cases h
    exact .nil ph
  | cons ev evs ih =>
    intro s ph s' ws hs hser h
    obtain ⟨s₁, wk, ws₂, h₁, h₃, rfl⟩ := run_cons_eq_some prepare pl h
    simp only [clicksWhenIdle, h₁, Bool.and_eq_true, Bool.or_eq_true, Bool.not_eq_true',
      List.isEmpty_iff] at hser
    obtain ⟨hl, ph', hs₁, hf⟩ := step_follows prepare pl hs
      (fun hc => hser.1.resolve_left (by simp [hc])) h₁
    exact hf evs ws₂ (hl ▸ ih hs₁ hser.2 h₃)

/-- Every run of the backup flow from a window with no worker running and no dialog shown, over
any clicks, Cancels and `finished` signals in which no click comes while a worker runs, follows
the protocol: a click starts the permission update of the whole queue it makes; after each
success the backup of the next item starts, in queue order, if `start_backup` takes it; after a
failure nothing more starts. -/
theorem run_follows_protocol {w : Window σ} {evs : List FlowEvent} {s' : Flow σ}
    {ws : List Worker} (hser : clicksWhenIdle prepare pl ⟨w, [], false, false⟩ evs = true)
    (h : run prepare pl ⟨w, [], false, false⟩ evs = some (s', ws)) :
    Follows (startable w.backupLocation) .idle evs ws :=
  run_follows prepare pl evs (show InPhase ⟨w, [], false, false⟩ .idle from ⟨rfl, trivial⟩) hser h


/-- A window backing up into `/backup`, with Bob's and Amy's `Documents` resolved. -/
def sampleWindow : Window Unit :=
  ⟨(), "/backup", [("Backup Documents", ["/Users/bob/Documents", "/Users/amy/Documents"])], [], []⟩

/-- Each log made where `new_log_file` names it, with the time stamp `T`. -/
def samplePrepare : Unit → String → String → Unit × Except Unit String :=
  fun _ root pre => ((), .ok (root ++ "/_logs/" ++ pre ++ "_T.log"))

/-- The `Backup Documents` entry of `backup_sources` on POSIX. -/
def documentsSource : BackupSource := ⟨Platform.posix.join userField ["Documents"], ["*"], "Documents"⟩

/-- Bob's backup succeeds and Amy's fails. -/
theorem run_follows_protocol_documents :
    clicksWhenIdle samplePrepare .posix ⟨sampleWindow, [], false, false⟩
        [.click "Backup Documents" documentsSource, .finished 0 true, .finished 0 true,
          .finished 0 false] = true ∧
    ∃ s' ws, run samplePrepare .posix ⟨sampleWindow, [], false, false⟩
        [.click "Backup Documents" documentsSource, .finished 0 true, .finished 0 true,
          .finished 0 false] = some (s', ws) ∧
      Follows (startable sampleWindow.backupLocation) .idle
        [.click "Backup Documents" documentsSource, .finished 0 true, .finished 0 true,
          .finished 0 false] ws :=
  ⟨rfl, _, _, rfl, run_follows_protocol samplePrepare .posix rfl rfl⟩

/-! ### A failure stops the queue, whichever worker sends it -/

/-- When every worker succeeds, the queue runs to its end: one backup per item, in order, each
showing its dialog and closing it when it ends. -/
theorem run_finished_true {loc : String} (hloc : loc ≠ "") :
    ∀ (rest : List QueueItem) (s : Flow σ) (j : Worker), s.running = [j] →
      s.permDialog = decide (j.dialog = .permission) →
      s.progressDialog = decide (j.dialog = .progress) →
      s.window.backupQueue = rest → s.window.backupLocation = loc →
      (∀ it ∈ rest, it.sourceDir ≠ "") →
      ∃ w', run prepare pl s (List.replicate (rest.length + 1) (.finished 0 true)) =
        some (⟨w', [], false, false⟩, rest.map Worker.backup) := by
  intro rest
  induction rest with
  | nil =>
    intro ⟨w, running, pd, qd⟩ j hj hpd hqd hq _ _
    simp only at hj hpd hqd hq
    subst hj hpd hqd
    refine ⟨w, ?_⟩
    cases j <;> simp [run, step, slot, Window.permissionUpdateFinished, Window.backupFinished,
      Window.afterWorker, Window.startNextBackup, hq, showWorker, setDialog, Worker.dialog]
  | cons item rest ih =>
    intro ⟨w, running, pd, qd⟩ j hj hpd hqd hq hl hs
    simp only at hj hpd hqd hq hl
    subst hj hpd hqd
    have hstart : w.startBackup item = some (.backup item) := by
      simp [Window.startBackup, hl, hloc, hs item (List.mem_cons_self _ _)]
    have h₁ : step prepare pl ⟨w, [j], decide (j.dialog = .permission), decide (j.dialog = .progress)⟩
        (.finished 0 true) =
        some (⟨{ w with backupQueue := rest }, [.backup item], false, true⟩, some (.backup item)) := by
      cases j <;> simp [step, slot, Window.permissionUpdateFinished, Window.backupFinished,
        Window.afterWorker, Window.startNextBackup, hq, hstart, showWorker, setDialog, Worker.dialog]
    obtain ⟨w', hw'⟩ := ih ⟨{ w with backupQueue := rest }, [.backup item], false, true⟩ (.backup item)
      rfl rfl rfl rfl hl fun it hit => hs it (List.mem_cons_of_mem _ hit)
    refine ⟨w', ?_⟩
    rw [List.length_cons, List.replicate_succ, run_cons, h₁]
    simp only [Option.some_bind, hw', Option.map_some']
    rfl

end Flow

namespace Window

variable {σ E : Type} (prepare : σ → String → String → σ × Except E String) (pl : Platform)

/-- When `prepare` never raises, the loop of `trigger_backup` queues one item per path, in
order, each with the button's patterns and its user's destination root. -/
theorem queueSources_ok (hprep : ∀ fs root pre, ∃ fs' log, prepare fs root pre = (fs', .ok log))
    (patterns : List String) (dest : String) :
    ∀ (paths : List String) (w : Window σ), ∃ w' items,
      queueSources prepare pl patterns dest paths w = (w', none) ∧
      w'.backupQueue = w.backupQueue ++ items ∧
      w'.pendingPermissionUpdate = w.pendingPermissionUpdate ++
        items.map (fun q => (q.sourceDir, q.logFile)) ∧
      items.map QueueItem.sourceDir = paths ∧
      (∀ it ∈ items, it.patterns = patterns ∧
        it.destinationRoot = destinationRoot pl w.backupLocation (userLabel pl it.sourceDir) dest) ∧
      w'.backupLocation = w.backupLocation := by
  intro paths
  induction paths with
  | nil => exact fun w => ⟨w, [], rfl, by simp, by simp, rfl, by simp, rfl⟩
  | cons p ps ih =>
    intro w
    obtain ⟨fs', log, hp⟩ := hprep w.fs (destinationRoot pl w.backupLocation (userLabel pl p) dest)
      ("backup_" ++ dest ++ "_" ++ userLabel pl p)
    obtain ⟨w', items, hr, hq, hpend, hsrc, hit, hl⟩ := ih { w with
      fs := fs'
      backupQueue := w.backupQueue ++
        [⟨p, patterns, destinationRoot pl w.backupLocation (userLabel pl p) dest, log⟩]
      pendingPermissionUpdate := w.pendingPermissionUpdate ++ [(p, log)] }
    refine ⟨w', ⟨p, patterns, destinationRoot pl w.backupLocation (userLabel pl p) dest, log⟩ :: items,
      by rw [queueSources, hp]; exact hr, by simpa using hq, by simpa using hpend, by simp [hsrc],
      ?_, hl⟩
    intro it hm
    rcases List.mem_cons.mp hm with rfl | hm
    · exact ⟨rfl, rfl⟩
    · exact hit it hm

end Window

namespace Flow

variable {σ E : Type} (prepare : σ → String → String → σ × Except E String) (pl : Platform)

/-- When the backup location is set, the file system lets every destination root and log be
made, and every worker succeeds, a click on a button with resolved paths starts the permission
update of all of them, and then the backup of each, in order, with the button's patterns and
its user's destination root; the flow ends with no worker running and no dialog shown. -/
theorem run_backs_up_all {w : Window σ} {name : String} {src : BackupSource}
    (hsrc : (name, src) ∈ backupSources pl) {paths : List String}
    (hp : w.resolvedSources.lookup name = some paths) (hne : paths ≠ [])
    (hpaths : ∀ p ∈ paths, p ≠ "") (hloc : w.backupLocation ≠ "")
    (hprep : ∀ fs root pre, ∃ fs' log, prepare fs root pre = (fs', .ok log)) :
    ∃ w' first rest, run prepare pl ⟨w, [], false, false⟩
        (.click name src :: List.replicate (paths.length + 1) (.finished 0 true)) =
        some (⟨w', [], false, false⟩, .permission paths first.logFile :: (first :: rest).map Worker.backup) ∧
      (first :: rest).map QueueItem.sourceDir = paths ∧
      ∀ it ∈ first :: rest, it.patterns = src.patterns ∧
        it.destinationRoot = destinationRoot pl w.backupLocation (userLabel pl it.sourceDir) src.dest := by
  obtain ⟨w₁, items, hr, hq, hpend, hmap, hit, hl⟩ := Window.queueSources_ok prepare pl hprep
    src.patterns src.dest paths { w with backupQueue := [], pendingPermissionUpdate := [] }
  simp only [List.nil_append] at hq hpend
  obtain ⟨first, rest, rfl⟩ : ∃ first rest, items = first :: rest := by
    cases items with
    | nil => exact absurd hmap.symm (by simpa using hne)
    | cons first rest => exact ⟨first, rest, rfl⟩
  have hclick : step prepare pl ⟨w, [], false, false⟩ (.click name src) =
      some (⟨w₁, [.permission paths first.logFile], true, false⟩, some (.permission paths first.logFile)) := by
    have ht : w.triggerBackup prepare pl name src = (w₁, some (.permission paths first.logFile), none) := by
      rw [Window.triggerBackup, hp]
      obtain ⟨p, ps, rfl⟩ := List.exists_cons_of_ne_nil hne
      simp only [hr, Window.startPermissionUpdate, hpend, List.map_cons]
      simp [← hmap, Function.comp_def]
    simp [step, hsrc, ht, showWorker, setDialog, Worker.dialog]
  obtain ⟨w', hw'⟩ := run_finished_true prepare pl hloc (first :: rest)
    ⟨w₁, [.permission paths first.logFile], true, false⟩ _ rfl rfl rfl hq hl
    fun it hm => hpaths _ (hmap ▸ List.mem_map_of_mem _ hm)
  have hlen : paths.length = (first :: rest).length := by rw [← hmap, List.length_map]
  refine ⟨w', first, rest, ?_, hmap, hit⟩
  rw [hlen, run_cons, hclick]
  simp only [Option.some_bind, hw', Option.map_some']
  rfl

theorem run_backs_up_all_documents :
    ∃ w' first rest, run samplePrepare .posix ⟨sampleWindow, [], false, false⟩
        (.click "Backup Documents" documentsSource :: List.replicate 3 (.finished 0 true)) =
        some (⟨w', [], false, false⟩, .permission ["/Users/bob/Documents", "/Users/amy/Documents"] first.logFile ::
          (first :: rest).map Worker.backup) ∧
      (first :: rest).map QueueItem.sourceDir = ["/Users/bob/Documents", "/Users/amy/Documents"] ∧
      ∀ it ∈ first :: rest, it.patterns = documentsSource.patterns ∧
        it.destinationRoot = destinationRoot .posix sampleWindow.backupLocation
          (userLabel .posix it.sourceDir) documentsSource.dest :=
  run_backs_up_all samplePrepare .posix
    (by decide : ("Backup Documents", documentsSource) ∈ backupSources .posix)
    (rfl : sampleWindow.resolvedSources.lookup "Backup Documents" =
      some ["/Users/bob/Documents", "/Users/amy/Documents"])
    (by decide) (by decide) (by decide) fun _ _ _ => ⟨(), _, rfl⟩

end Flow

end SakUtility
