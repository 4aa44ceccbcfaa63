import SakUtility.Scan.Spec
import Mathlib.Algebra.BigOperators.Group.List
import Mathlib.Algebra.Order.Ring.Nat

/-!
# The copy plan of `BackupWorker.run`

The planning loop walks `fast_scan(source_dir)`, mirrors each directory under the
destination root and plans one task for each file that matches a pattern. The `fname`
it joins is the full `entry.path` that `fast_scan` yields, so for an absolute source
both joins return `fname` itself: the mirrored folders are right, the destinations
are not.
-/

namespace SakUtility

set_option autoImplicit false

/-- One planned copy `(src, dst, size)`. -/
structure CopyTask where
  src : Path
  dst : Path
  size : Nat
  deriving DecidableEq, Repr

/-- `any(fname.lower().endswith(p.lstrip("*").lower()) or p == "*" for p in patterns)`, with
`str.lower` given as `lower`. -/
def matchesPatterns (lower : List Char → List Char) (patterns : List String) (fname : Path) :
    Bool :=
  patterns.any fun p => endswith (lower fname.chars) (lower (lstrip '*' p.toList)) || p == "*"

theorem matchesPatterns_of_star (lower : List Char → List Char) {patterns : List String}
    (h : "*" ∈ patterns) (fname : Path) : matchesPatterns lower patterns fname = true :=
  List.any_eq_true.mpr ⟨"*", h, by simp⟩

/-- The worker's parameters that the planning and the copies read. -/
structure BackupWorker where
  sourceDir : Path
  destinationRoot : Path
  patterns : List String
  maxWorkers : Nat
  verifyHash : Bool
  deriving DecidableEq, Repr

/-- `max_workers or max(2, min(8, (os.cpu_count() or 4) * 2))`; `0` stands for `None`. -/
def defaultMaxWorkers (maxWorkers cpuCount : Nat) : Nat :=
  if maxWorkers ≠ 0 then maxWorkers
  else max 2 (min 8 ((if cpuCount ≠ 0 then cpuCount else 4) * 2))

/-- The loop variables of the planning loop, and the folders given to `os.makedirs`. -/
structure PlanState where
  plan : List CopyTask
  totalSize : Nat
  totalFiles : Nat
  folders : List Path
  deriving DecidableEq, Repr

namespace BackupWorker

variable (w : BackupWorker) (lower : List Char → List Char) (cwd : Path)
  (getsize : Path → Option Nat)

/-- The task planned for `fname`; `os.path.getsize` failing gives size `0`. -/
def fileTask (root dstFolder fname : Path) : CopyTask :=
  ⟨root.join fname, dstFolder.join fname, (getsize (root.join fname)).getD 0⟩

/-- One file of the inner loop. -/
def planFile (root dstFolder : Path) (st : PlanState) (fname : Path) : PlanState :=
  if matchesPatterns lower w.patterns fname then
    let t := fileTask getsize root dstFolder fname
    { st with plan := st.plan ++ [t], totalFiles := st.totalFiles + 1,
              totalSize := st.totalSize + t.size }
  else st

/-- `os.path.join(self.destination_root, os.path.relpath(root, self.source_dir))`. -/
def dstFolder (root : Path) : Path := w.destinationRoot.join (Path.relpath cwd root w.sourceDir)

/-- One `(root, dirs, files)` triple of the outer loop. -/
def planRoot (st : PlanState) (y : Yield) : PlanState :=
  y.files.foldl (w.planFile lower getsize y.root (w.dstFolder cwd y.root))
    { st with folders := st.folders ++ [w.dstFolder cwd y.root] }

/-- The planning loop over the triples `fast_scan` yielded. -/
def buildPlan (out : List Yield) : PlanState :=
  out.foldl (w.planRoot lower cwd getsize) ⟨[], 0, 0, []⟩

/-- The tasks one triple contributes. -/
def rootTasks (y : Yield) : List CopyTask :=
  (y.files.filter (matchesPatterns lower w.patterns)).map
    (fileTask getsize y.root (w.dstFolder cwd y.root))

theorem foldl_planFile (root dst : Path) (fnames : List Path) (st : PlanState) :
    fnames.foldl (w.planFile lower getsize root dst) st =
      let ts := (fnames.filter (matchesPatterns lower w.patterns)).map (fileTask getsize root dst)
      { st with plan := st.plan ++ ts, totalFiles := st.totalFiles + ts.length,
                totalSize := st.totalSize + (ts.map CopyTask.size).sum } := by
  induction fnames generalizing st with
  | nil => simp
  | cons f fs ih =>
    by_cases hf : matchesPatterns lower w.patterns f = true
    · simp [planFile, hf, ih, List.filter_cons]
      omega
    · simp [planFile, hf, ih, List.filter_cons]

theorem foldl_planRoot (out : List Yield) (st : PlanState) :
    out.foldl (w.planRoot lower cwd getsize) st =
      let ts := out.flatMap (w.rootTasks lower cwd getsize)
      { plan := st.plan ++ ts, totalFiles := st.totalFiles + ts.length,
        totalSize := st.totalSize + (ts.map CopyTask.size).sum,
        folders := st.folders ++ out.map (w.dstFolder cwd ·.root) } := by
  induction out generalizing st with
  | nil => simp
  | cons y out ih =>
    simp only [List.foldl_cons, ih, planRoot, foldl_planFile, rootTasks, List.flatMap_cons]
    simp [List.sum_append]
    omega

/-- The plan in closed form: the matching files in scan order, their totals, and one
mirrored folder per yielded directory. -/
theorem buildPlan_eq (out : List Yield) : w.buildPlan lower cwd getsize out =
    { plan := out.flatMap (w.rootTasks lower cwd getsize),
      totalFiles := (out.flatMap (w.rootTasks lower cwd getsize)).length,
      totalSize := ((out.flatMap (w.rootTasks lower cwd getsize)).map CopyTask.size).sum,
      folders := out.map (w.dstFolder cwd ·.root) } := by
  simp [buildPlan, foldl_planRoot]

theorem mem_buildPlan {out : List Yield} {t : CopyTask} :
    t ∈ (w.buildPlan lower cwd getsize out).plan ↔ ∃ y ∈ out, ∃ f ∈ y.files,
      matchesPatterns lower w.patterns f = true ∧ t = fileTask getsize y.root (w.dstFolder cwd y.root) f := by
  simp only [buildPlan_eq, List.mem_flatMap, rootTasks, List.mem_map, List.mem_filter]
  constructor
  · rintro ⟨y, hy, f, ⟨hf, hm⟩, rfl⟩; exact ⟨y, hy, f, hf, hm, rfl⟩
  · rintro ⟨y, hy, f, hf, hm, rfl⟩; exact ⟨y, hy, f, ⟨hf, hm⟩, rfl⟩

section Scan

variable {Id : Type} [DecidableEq Id] (fs : ScanFS Id) {n : Nat} {out : List Yield}

/-- With an absolute source every entry path is absolute, and `os.path.join` returns it
unchanged: a task's source and destination are both the entry path. -/
theorem eq_selfTask_of_mem_plan (habs : w.sourceDir.isabs = true)
    (h : fs.fastScan n w.sourceDir = some out) {t : CopyTask}
    (ht : t ∈ (w.buildPlan lower cwd getsize out).plan) :
    ∃ f ∈ out.flatMap Yield.files, t = ⟨f, f, (getsize f).getD 0⟩ := by
  obtain ⟨y, hy, f, hf, -, rfl⟩ := (w.mem_buildPlan lower cwd getsize).mp ht
  have hfa : f.isabs = true := ((fs.fastScan_isabs h y hy).2 f hf).trans habs
  exact ⟨f, List.mem_flatMap.mpr ⟨y, hy, hf⟩, by simp [fileTask, hfa]⟩

/-- Each planned destination is its own source. -/
theorem plan_dst_eq_src (habs : w.sourceDir.isabs = true)
    (h : fs.fastScan n w.sourceDir = some out) :
    ∀ t ∈ (w.buildPlan lower cwd getsize out).plan, t.dst = t.src := by
  intro t ht
  obtain ⟨f, -, rfl⟩ := w.eq_selfTask_of_mem_plan lower cwd getsize fs habs h ht
  rfl

/-- The plan has one task per matching file entry of the scan, in scan order, with the
entry as source and its size (`0` when `getsize` fails); sources and destinations are
pairwise distinct, and `total_size` is the sum of the planned sizes. -/
theorem buildPlan_spec (habs : w.sourceDir.isabs = true)
    (h : fs.fastScan n w.sourceDir = some out) :
    (w.buildPlan lower cwd getsize out).plan.map CopyTask.src =
      (out.flatMap Yield.files).filter (matchesPatterns lower w.patterns) ∧
    (∀ t ∈ (w.buildPlan lower cwd getsize out).plan, t.size = (getsize t.src).getD 0) ∧
    ((w.buildPlan lower cwd getsize out).plan.map CopyTask.src).Nodup ∧
    ((w.buildPlan lower cwd getsize out).plan.map CopyTask.dst).Nodup ∧
    (w.buildPlan lower cwd getsize out).totalSize =
      ((w.buildPlan lower cwd getsize out).plan.map CopyTask.size).sum := by
  have hself := fun t (ht : t ∈ _) => w.eq_selfTask_of_mem_plan lower cwd getsize fs habs h ht
  have hsrc : (w.buildPlan lower cwd getsize out).plan.map CopyTask.src =
      (out.flatMap Yield.files).filter (matchesPatterns lower w.patterns) := by
    rw [buildPlan_eq, List.map_flatMap, List.filter_flatMap]
    refine List.flatMap_congr fun y hy => ?_
    rw [rootTasks, List.map_map]
    refine (List.map_congr_left fun f hf => ?_).trans (List.map_id _)
    have hfa : f.isabs = true := ((fs.fastScan_isabs h y hy).2 f (List.mem_filter.mp hf).1).trans habs
    simp [fileTask, hfa]
  have hnd : ((w.buildPlan lower cwd getsize out).plan.map CopyTask.src).Nodup :=
    hsrc ▸ (fs.loop_files_nodup h).filter _
  refine ⟨hsrc, fun t ht => ?_, hnd, ?_, by rw [buildPlan_eq]⟩
  · obtain ⟨f, -, rfl⟩ := hself t ht
    rfl
  · have hds : (w.buildPlan lower cwd getsize out).plan.map CopyTask.dst =
        (w.buildPlan lower cwd getsize out).plan.map CopyTask.src :=
      List.map_congr_left fun t ht => by obtain ⟨f, -, rfl⟩ := hself t ht; rfl
    exact hds ▸ hnd

end Scan

end BackupWorker

/-- `/Users/u/Documents` holding the one file `a.txt`. -/
def documentsTree : DirGraph Nat where
  root := 0
  cwd := 0
  listing i := if i = 0 then some [⟨"Users", some true⟩] else if i = 1 then some [⟨"u", some true⟩]
    else if i = 2 then some [⟨"Documents", some true⟩]
    else if i = 3 then some [⟨"a.txt", some false⟩] else none
  child i n := if i = 0 ∧ n = "Users" then 1 else if i = 1 ∧ n = "u" then 2
    else if i = 2 ∧ n = "Documents" then 3 else 4
  listing_nodup i es h := by
    dsimp only at h
    split_ifs at h <;> cases h <;> decide

/-- The backup of `Documents` for user `u` into `/backup/u/Documents`. -/
def documentsBackup : BackupWorker :=
  ⟨⟨true, ["Users", "u", "Documents"]⟩, ⟨true, ["backup", "u", "Documents"]⟩, ["*"], 8, true⟩

theorem documents_scan : documentsTree.toScanFS.fastScan 2 documentsBackup.sourceDir =
    some [⟨⟨true, ["Users", "u", "Documents"]⟩, [], [⟨true, ["Users", "u", "Documents", "a.txt"]⟩]⟩] := by
  decide

/-- The plan copies `/Users/u/Documents/a.txt` onto itself, where the mirrored destination
is `/backup/u/Documents/a.txt`. -/
theorem plan_dst_eq_src_documents :
    (documentsBackup.buildPlan asciiLower ⟨true, []⟩ (fun _ => some 10)
        [⟨⟨true, ["Users", "u", "Documents"]⟩, [], [⟨true, ["Users", "u", "Documents", "a.txt"]⟩]⟩]).plan =
      [⟨⟨true, ["Users", "u", "Documents", "a.txt"]⟩, ⟨true, ["Users", "u", "Documents", "a.txt"]⟩, 10⟩] ∧
    (∀ t ∈ (documentsBackup.buildPlan asciiLower ⟨true, []⟩ (fun _ => some 10)
        [⟨⟨true, ["Users", "u", "Documents"]⟩, [], [⟨true, ["Users", "u", "Documents", "a.txt"]⟩]⟩]).plan,
      t.dst = t.src) ∧
    documentsBackup.destinationRoot.join (Path.relpath ⟨true, []⟩
        ⟨true, ["Users", "u", "Documents", "a.txt"]⟩ documentsBackup.sourceDir) =
      ⟨true, ["backup", "u", "Documents", "a.txt"]⟩ :=
  ⟨by decide, documentsBackup.plan_dst_eq_src _ _ _ documentsTree.toScanFS rfl documents_scan,
    by decide⟩

theorem buildPlan_spec_documents :
    (documentsBackup.buildPlan asciiLower ⟨true, []⟩ (fun _ => some 10)
        [⟨⟨true, ["Users", "u", "Documents"]⟩, [], [⟨true, ["Users", "u", "Documents", "a.txt"]⟩]⟩]).totalSize =
      10 := by
  have h := (documentsBackup.buildPlan_spec asciiLower ⟨true, []⟩ (fun _ => some 10) documentsTree.toScanFS rfl
    documents_scan).2.2.2.2
  rw [h]
  decide

end SakUtility
