import SakUtility.Dedupe.Find
import SakUtility.Posix.Retains
import SakUtility.Organize.Run

/-!
# The "Delete Duplicates" action of `run_deduplication`

`os.remove` is called on every path of each group but its first, with a `DELETED` line for each
call that returns and an `ERROR` line for each that raises, in the log `new_log_file` makes
first. A symbolic link is listed as a file and hashes like its target, so a link leading its
group gets the target removed, the last copy of its content. Without links, when no two
contents under the directory share a digest and the log does not exist yet, every content held
under the directory is still held there afterwards.
-/

namespace SakUtility

set_option autoImplicit false

/-- `chunked_file_hash(filepath)`: the digest of the bytes `open(filepath, "rb")` reads,
`none` when the call raises. -/
def chunkedFileHash (md5 : String → String) (fs : PosixFS) (filepath : Path) : Option String :=
  (fs.readFile filepath).map md5

/-- The log line `f"DELETED {path}"`. -/
def deletedLine (path : Path) : String := "DELETED " ++ String.mk path.chars

/-- The log line `f"ERROR deleting {path}: {e}"`. -/
def deleteErrorLine (errorText : OSError → String) (path : Path) (e : OSError) : String :=
  "ERROR deleting " ++ String.mk path.chars ++ ": " ++ errorText e

section Action

variable (logFile : Path) (fileMode : Nat) (errorText : OSError → String)

/-- One turn of the delete loop on `path`, with `total_deleted`: `os.remove(path)`, then its
log line. -/
def deleteOne (st : PosixFS × Nat) (path : Path) : PosixFS × Nat :=
  match st.1.unlinkE path with
  | .ok fs' => (fs'.logLine logFile (deletedLine path) fileMode, st.2 + 1)
  | .error e => (st.1.logLine logFile (deleteErrorLine errorText path e) fileMode, st.2)

/-- The `clicked == delete_btn` branch: `paths[1:]` of every group, in dict order. -/
def deleteDuplicates (fs : PosixFS) (duplicates : List (String × List Path)) : PosixFS × Nat :=
  duplicates.foldl (fun st kv => kv.2.tail.foldl (deleteOne logFile fileMode errorText) st) (fs, 0)

theorem deleteDuplicates_eq (fs : PosixFS) (duplicates : List (String × List Path)) :
    deleteDuplicates logFile fileMode errorText fs duplicates =
      (duplicates.flatMap fun kv => kv.2.tail).foldl (deleteOne logFile fileMode errorText) (fs, 0) := by
  unfold deleteDuplicates
  generalize (fs, 0) = st
  induction duplicates generalizing st with
  | nil => rfl
  | cons kv ds ih => rw [List.foldl_cons, List.flatMap_cons, List.foldl_append, ih]

end Action

/-- How a run of the delete action ends: the file system, `total_deleted`, and the exception
that ended it, if one did. -/
structure DeleteRun where
  fs : PosixFS
  totalDeleted : Nat
  raised : Option OSError

/-- `run_deduplication` on the triples `fast_scan(directory)` yields, with the delete action;
`ts` is the time stamp of the log's name. With `file_extensions = None` no name is lowered. With
no duplicates it returns before the log's folder is made. -/
def runDeduplication (md5 : String → String) (fs : PosixFS) (out : List Yield) (directory : Path)
    (ts : String) (dirMode fileMode : Nat) (errorText : OSError → String) : DeleteRun :=
  let duplicates := findDuplicates asciiLower [] 0 fs.getsize (chunkedFileHash md5 fs) out
  if duplicates.isEmpty then ⟨fs, 0, none⟩
  else
    match fs.newLogFile directory "dedupe" ts dirMode with
    | .error e => ⟨fs, 0, some e⟩
    | .ok (fs1, logFile) =>
      let r := deleteDuplicates logFile fileMode errorText fs1 duplicates
      ⟨r.1, r.2, none⟩

theorem content_of_chunkedFileHash {md5 : String → String} {fs : PosixFS} {f : Path} {j : Nat}
    (hf : fs.resolve f = some j) {h : String} (hh : chunkedFileHash md5 fs f = some h) :
    ∃ c m, fs.get? j = some ⟨.file c, m⟩ ∧ md5 c = h := by
  obtain ⟨c, hc, rfl⟩ := Option.map_eq_some'.mp hh
  obtain ⟨i, m, hi, hg⟩ := fs.readFile_eq_some hc
  exact ⟨c, m, Option.some.inj (hi.symm.trans hf) ▸ hg, rfl⟩

/-- `os.makedirs(directory/_logs, exist_ok=True)` in the directory `D`: it raises, or leaves the
directory `ld` at `_logs`, the one that was there or a new empty one, with no entry `logName`;
nothing of `fs` is lost. -/
theorem makedirs_logs {fs : PosixFS} (hl : fs.LinkFree) {directory : Path} {D : Nat}
    (hD : fs.resolve directory = some D) (hDd : fs.entryIsDir D = some true) (logName : String)
    (hlog : fs.pathExists ((directory.join (.ofName "_logs")).join (.ofName logName)) = false)
    (dirMode : Nat) :
    (∃ e, fs.makedirs (directory.join (.ofName "_logs")) dirMode = .error e) ∨
    ∃ base ld, fs.makedirs (directory.join (.ofName "_logs")) dirMode = .ok base ∧
      base.LinkFree ∧ fs.Retains base [] ∧ fs.inodes.length ≤ base.inodes.length ∧
      base.entryTotal ≤ fs.entryTotal + 1 ∧
      base.resolve (directory.join (.ofName "_logs")) = some ld ∧ base.entryIsDir ld = some true ∧
      (fs.resolve (directory.join (.ofName "_logs")) = some ld ∨ ld = fs.inodes.length) ∧
      base.child ld logName = none := by
  rcases fs.makedirs_join_cases hl hD hDd "_logs" dirMode with
    h | ⟨j, hc, hj, h⟩ | ⟨hc, es, m, hg, hs, h⟩
  · exact .inl h
  · -- `_logs` is there
    have hres : fs.resolve (directory.join (.ofName "_logs")) = some j := by
      rw [hl.resolve_join, hD, Option.some_bind, hc]
    rw [PosixFS.pathExists, hl.resolve_join, hres, Option.some_bind] at hlog
    exact .inr ⟨fs, j, h, hl, fs.retains_refl, le_rfl, Nat.le_succ _, hres, hj, .inl hres,
      by simpa using hlog⟩
  · -- `_logs` is made, new and empty
    have hnew : (fs.create D "_logs" ⟨.dir [], dirMode⟩ rfl).get? fs.inodes.length =
        some ⟨.dir [], dirMode⟩ := by
      simp [PosixFS.create, (fs.lt_of_get?_eq_some hg).ne]
    have hb := hl.create D "_logs" (x := ⟨.dir [], dirMode⟩) rfl (fun t h => nomatch h) rfl
    have hr := fs.retains_refl.create hg hs hc (x := ⟨.dir [], dirMode⟩) rfl
    refine .inr ⟨_, fs.inodes.length, h, hb, hr, by simp [PosixFS.create],
      fs.entryTotal_create_le D "_logs" (by rfl) (by rfl), ?_, by simp [PosixFS.entryIsDir, hnew],
      .inr rfl, by simp [PosixFS.child, hnew]⟩
    rw [hb.resolve_join, hl.resolve_create (x := ⟨.dir [], dirMode⟩) rfl (fun t h => nomatch h) rfl
      hc hD hDd, Option.some_bind, PosixFS.child_create_self (by rfl) hg hs]

/-! ### The loop unlinks entries of files only -/

section Loop

variable (base : PosixFS) (logs : Path) (ld : Nat) (logName : String) (R : List Path)

/-- What holds of the file system the loop starts from: the log's folder `logs` is the
directory `ld`, with no entry `logName` yet, and every path to remove is in a directory. -/
structure DeleteStart : Prop where
  linkFree : base.LinkFree
  logs : base.resolve logs = some ld
  logsIsDir : base.entryIsDir ld = some true
  logFree : base.child ld logName = none
  cand : ∀ p ∈ R, ∃ d, base.resolve p.dirname = some d ∧ base.entryIsDir d = some true

/-- What holds after each turn: the entries `K` are unlinked, none of them leading to a
directory, each the last component of a path of `R` in the directory its parent names; the
log, if made, is a new inode. -/
structure DeleteInv (fs : PosixFS) (K : List (Nat × String)) : Prop where
  linkFree : fs.LinkFree
  grows : base.inodes.length ≤ fs.inodes.length
  retains : base.Retains fs K
  nonDir : base.NonDirEntries K
  named : ∀ k ∈ K, ∃ p ∈ R, base.resolve p.dirname = some k.1 ∧ p.parts.getLast? = some k.2
  logFresh : ∀ j, fs.child ld logName = some j → base.inodes.length ≤ j

variable {base logs ld logName R}

theorem DeleteStart.inv (hs : DeleteStart base logs ld logName R) : DeleteInv base ld logName R base [] :=
  ⟨hs.linkFree, le_rfl, base.retains_refl, fun _ h => (nomatch h), fun _ h => (nomatch h),
    fun _ hj => by rw [hs.logFree] at hj; cases hj⟩

section Inv

variable {fs : PosixFS} {K : List (Nat × String)} (hs : DeleteStart base logs ld logName R)
  (hi : DeleteInv base ld logName R fs K)
include hs hi

theorem DeleteInv.resolve_dir {q : Path} {e : Nat} (hq : base.resolve q = some e)
    (he : base.entryIsDir e = some true) : fs.resolve q = some e :=
  hi.retains.keeps.resolve_dir hs.linkFree hi.linkFree (fun _ _ j hk hc =>
    let ⟨es, m, hg, _, hj⟩ := base.child_eq_some hc; hi.nonDir _ hk es m j hg hj) hq he

theorem DeleteInv.logLine (text : String) (fileMode : Nat) :
    DeleteInv base ld logName R (fs.logLine (logs.join (.ofName logName)) text fileMode) K := by
  rcases fs.logLine_cases hi.linkFree (hi.resolve_dir hs hs.logs hs.logsIsDir) logName text fileMode
    with h | ⟨j, g, hj, h⟩ | ⟨hj, ⟨es, m, hg, hsm⟩, c, h⟩ <;> rw [h]
  · exact hi
  · -- the log was there: a new inode, whose content changes
    exact { hi with
      linkFree := hi.linkFree.setContent j g
      grows := by simpa using hi.grows
      retains := hi.retains.setContent (hi.logFresh j hj) g
      logFresh := fun k hk => hi.logFresh k (by rwa [PosixFS.child_setContent] at hk) }
  · -- the log is made, a new file in `ld`
    refine { hi with
      linkFree := hi.linkFree.create ld logName (x := ⟨.file c, fileMode⟩) rfl (fun t h => nomatch h) rfl
      grows := by
        simp only [PosixFS.create, PosixFS.length_setEntry, PosixFS.length_push]
        exact Nat.le_succ_of_le hi.grows
      retains := hi.retains.create hg hsm hj (x := ⟨.file c, fileMode⟩) rfl
      logFresh := fun k hk => ?_ }
    rcases fs.child_create_eq_some (by rfl) hk with ⟨-, -, rfl⟩ | hk
    · exact hi.grows
    · exact hi.logFresh _ hk

/-- `os.remove(p)` returning unlinks the entry `p` names, one more entry of a file. -/
theorem DeleteInv.remove {p : Path} (hp : p ∈ R) {fs' : PosixFS} (hr : fs.remove p = some fs') :
    ∃ K', DeleteInv base ld logName R fs' K' := by
  obtain ⟨name, d, es, m, j, hn, hd, hg, -, hj, hnd, rfl⟩ := fs.remove_eq_some hr
  obtain ⟨d₀, hd₀, hdir⟩ := hs.cand p hp
  obtain rfl : d = d₀ := Option.some.inj (hd.symm.trans (hi.resolve_dir hs hd₀ hdir))
  refine ⟨(d, name) :: K, hi.linkFree.unlink d name, by simpa using hi.grows,
    hi.retains.unlink d name, ?_, ?_, fun k hk => hi.logFresh k (fs.child_unlink_eq_some hk).2⟩
  · rintro k (_ | ⟨_, hk⟩) es₀ m₀ j₀ hg₀ hj₀
    · -- the entry unlinked now leads to `j`, no directory
      intro hdir₀
      obtain ⟨es', hg', hmem⟩ := hi.retains.dir d es₀ m₀ hg₀
      obtain ⟨rfl, -⟩ : es' = es ∧ m₀ = m := by simpa using hg'.symm.trans hg
      obtain rfl := snd_eq_of_mem (fs.entries_nodup d es' m₀ hg')
        (hmem _ hj₀ (hi.nonDir.not_mem hg₀ hj₀ hdir₀)) hj
      exact hnd (hi.retains.entryIsDir hdir₀)
    · exact hi.nonDir k hk es₀ m₀ j₀ hg₀ hj₀
  · rintro k (_ | ⟨_, hk⟩)
    · exact ⟨p, hp, hd₀, hn⟩
    · exact hi.named k hk

end Inv

theorem DeleteInv.step (hs : DeleteStart base logs ld logName R) (fileMode : Nat)
    (errorText : OSError → String) {st : PosixFS × Nat} {K : List (Nat × String)}
    (hi : DeleteInv base ld logName R st.1 K) {p : Path} (hp : p ∈ R) :
    ∃ K', DeleteInv base ld logName R
      (deleteOne (logs.join (.ofName logName)) fileMode errorText st p).1 K' := by
  unfold deleteOne PosixFS.unlinkE
  cases hr : st.1.remove p with
  | some fs' =>
    obtain ⟨K', hi'⟩ := hi.remove hs hp hr
    exact ⟨K', hi'.logLine hs _ fileMode⟩
  | none => exact ⟨K, hi.logLine hs _ fileMode⟩

theorem deleteLoop_inv (hs : DeleteStart base logs ld logName R) (fileMode : Nat)
    (errorText : OSError → String) : ∀ (ps : List Path), (∀ p ∈ ps, p ∈ R) →
      ∀ (st : PosixFS × Nat) (K : List (Nat × String)), DeleteInv base ld logName R st.1 K →
      ∃ K', DeleteInv base ld logName R
        (ps.foldl (deleteOne (logs.join (.ofName logName)) fileMode errorText) st).1 K'
  | [], _, _, K, hi => ⟨K, hi⟩
  | p :: ps, hps, _, _, hi =>
    let ⟨_, hi'⟩ := hi.step hs fileMode errorText (hps p (List.mem_cons_self _ _))
    deleteLoop_inv hs fileMode errorText ps (fun q hq => hps q (List.mem_cons_of_mem _ hq)) _ _ hi'

end Loop

/-! ### The files a scan lists are entries under the directory scanned -/

section Listed

variable {fs : PosixFS} {n : Nat} {directory : Path} {out : List Yield} {D : Nat}

/-- A directory the walk reaches is under the directory it started from. -/
theorem reach_dirUnder (hD : fs.resolve directory = some D) {d : Path}
    (hd : fs.toScanFS.Reach directory d) : ∃ i, fs.resolve d = some i ∧ fs.DirUnder D i := by
  induction hd with
  | base => exact ⟨D, hD, .self⟩
  | child _ hs he hdir ih =>
    obtain ⟨i, hi, hu⟩ := ih
    obtain ⟨i', es, m, j, hi', hg, hsearch, hj, he'⟩ := fs.mem_scandir hs he
    obtain rfl : i = i' := Option.some.inj (hi.symm.trans hi')
    obtain ⟨es', m', hg'⟩ := fs.dir_of_entryIsDir (he' ▸ hdir)
    exact ⟨j, fs.resolve_join_ofName hi hg hsearch hj hg' (fun t ht => nomatch ht),
      .child hu hg hj (he' ▸ hdir)⟩

/-- A file the scan lists is the entry `name` of a directory under `D`, and names the
inode of that entry. -/
theorem listed_file (hnl : fs.NoLinks) (hscan : fs.toScanFS.fastScan n directory = some out)
    (hD : fs.resolve directory = some D) {f : Path} (hf : f ∈ out.flatMap Yield.files) :
    ∃ i es m name j, fs.resolve f.dirname = some i ∧ f.parts.getLast? = some name ∧
      fs.DirUnder D i ∧ fs.get? i = some ⟨.dir es, m⟩ ∧ (name, j) ∈ es ∧ fs.resolve f = some j := by
  obtain ⟨y, hy, les, e, hles, he, hfalse, rfl⟩ := fs.toScanFS.loop_mem_files hscan hf
  obtain ⟨i, es, m, j, hi, hg, hs, hj, he'⟩ := fs.mem_scandir hles he
  obtain ⟨i', hi', hu⟩ := reach_dirUnder hD
    (fs.toScanFS.loop_reach hscan (by simpa [ScanFS.StackReach] using ScanFS.Reach.base) y hy)
  obtain rfl : i = i' := Option.some.inj (hi.symm.trans hi')
  obtain ⟨x, hx⟩ := fs.get_of_entryIsDir (he' ▸ hfalse)
  exact ⟨i, es, m, e.name, j, by rw [DirEntry.path, Path.dirname_join_ofName]; exact hi,
    by simp [DirEntry.path], hu, hg, hj,
    fs.resolve_join_ofName hi hg hs hj hx (hnl j x hx)⟩

theorem listed_eq_of_entry (hscan : fs.toScanFS.fastScan n directory = some out) {f g : Path}
    (hf : f ∈ out.flatMap Yield.files) (hg : g ∈ out.flatMap Yield.files) {i : Nat}
    (hfi : fs.resolve f.dirname = some i) (hgi : fs.resolve g.dirname = some i)
    (hn : f.parts.getLast? = g.parts.getLast?) : f = g := by
  obtain ⟨y, hy, -, a, -, -, -, rfl⟩ := fs.toScanFS.loop_mem_files hscan hf
  obtain ⟨y', hy', -, b, -, -, -, rfl⟩ := fs.toScanFS.loop_mem_files hscan hg
  simp only [DirEntry.path, Path.dirname_join_ofName] at hfi hgi
  have hr : fs.toScanFS.realpath y.root = fs.toScanFS.realpath y'.root :=
    (fs.resolve_eq_some.mp hfi).trans (fs.resolve_eq_some.mp hgi).symm
  obtain rfl := List.inj_on_of_nodup_map (fs.toScanFS.loop_ids_nodup hscan).1 hy hy' hr
  simp_all [DirEntry.path]

end Listed

/-! ### Without links the action keeps every content -/

/-- The paths the action removes, `paths[1:]` of every group, are listed files with a digest,
in directories of the file system scanned. -/
theorem removedPaths_listed (md5 : String → String) {fs : PosixFS} (hnl : fs.NoLinks) {n : Nat}
    {directory : Path} {out : List Yield} (hscan : fs.toScanFS.fastScan n directory = some out)
    {D : Nat} (hD : fs.resolve directory = some D) {st : DupState}
    (ht : Tracks asciiLower [] 0 fs.getsize (chunkedFileHash md5 fs) (out.flatMap Yield.files) st) :
    ∀ p ∈ st.duplicates.flatMap (fun kv => kv.2.tail), p ∈ out.flatMap Yield.files ∧
      (∃ h, countedDigest asciiLower [] 0 fs.getsize (chunkedFileHash md5 fs) p = some h) ∧
      ∃ d, fs.resolve p.dirname = some d ∧ fs.entryIsDir d = some true := by
  intro p hp
  obtain ⟨kv, hkv, hpk⟩ := List.mem_flatMap.mp hp
  obtain ⟨hpf, hph⟩ := ht.mem_tail hkv hpk
  obtain ⟨i, es, m, -, -, hi, -, -, hg, -⟩ := listed_file hnl hscan hD hpf
  exact ⟨hpf, ⟨_, hph⟩, i, hi, fs.entryIsDir_of_get hg⟩

/-- A file whose entry the action unlinks, through one of the paths `paths[1:]`, has a twin:
the first path of its group, which is kept, names a file with the same digest, so with no two
contents under `D` sharing a digest, one with the same content, whose entry is not unlinked. -/
theorem exists_kept_twin {md5 : String → String} {fs : PosixFS} (hnl : fs.NoLinks) {n : Nat}
    {directory : Path} {out : List Yield} (hscan : fs.toScanFS.fastScan n directory = some out)
    {D : Nat} (hD : fs.resolve directory = some D) {st : DupState}
    (ht : Tracks asciiLower [] 0 fs.getsize (chunkedFileHash md5 fs) (out.flatMap Yield.files) st)
    (hmd5 : ∀ c₁ c₂, fs.HoldsUnder D c₁ → fs.HoldsUnder D c₂ → md5 c₁ = md5 c₂ → c₁ = c₂)
    {K : List (Nat × String)} (hnamed : ∀ k ∈ K, ∃ p ∈ st.duplicates.flatMap (fun kv => kv.2.tail),
      fs.resolve p.dirname = some k.1 ∧ p.parts.getLast? = some k.2)
    {d j m m' : Nat} {es : List (String × Nat)} {name c : String} (hu : fs.DirUnder D d)
    (hg : fs.get? d = some ⟨.dir es, m⟩) (hj : (name, j) ∈ es) (hf : fs.get? j = some ⟨.file c, m'⟩)
    (hk : (d, name) ∈ K) :
    ∃ d₀ es₀ m₀ n₀ j₀ m₂, fs.DirUnder D d₀ ∧ fs.get? d₀ = some ⟨.dir es₀, m₀⟩ ∧ (n₀, j₀) ∈ es₀ ∧
      fs.get? j₀ = some ⟨.file c, m₂⟩ ∧ (d₀, n₀) ∉ K := by
  have hRL := removedPaths_listed md5 hnl hscan hD ht
  -- the entry was removed through a path `p`; its digest is that of `c`
  obtain ⟨p, hpR, hpd, hpn⟩ := hnamed _ hk
  obtain ⟨hpL, ⟨h, hph⟩, -⟩ := hRL p hpR
  obtain ⟨i, es', m'', name', j', hi, hn, -, hg', hj', hpj⟩ := listed_file hnl hscan hD hpL
  obtain rfl : d = i := Option.some.inj (hpd.symm.trans hi)
  obtain rfl : name = name' := Option.some.inj (hpn.symm.trans hn)
  obtain ⟨rfl, -⟩ : es = es' ∧ m = m'' := by simpa using hg.symm.trans hg'
  obtain rfl := snd_eq_of_mem (fs.entries_nodup d es m hg) hj hj'
  obtain ⟨c₁, m₁, hf₁, hc₁⟩ := content_of_chunkedFileHash hpj (hash_of_countedDigest hph)
  obtain ⟨rfl, -⟩ : c₁ = c ∧ m₁ = m' := by simpa using hf₁.symm.trans hf
  -- the group's first path is kept, and holds `c` too
  obtain ⟨g, hgL, hgh, hgR⟩ := ht.exists_kept (fs.toScanFS.loop_files_nodup hscan) hpL hph
  obtain ⟨i₀, es₀, m₀, n₀, j₀, hi₀, hn₀, hu₀, hg₀, hj₀, hgj⟩ := listed_file hnl hscan hD hgL
  obtain ⟨c₂, m₂, hf₂, hc₂⟩ := content_of_chunkedFileHash hgj (hash_of_countedDigest hgh)
  obtain rfl : c₂ = c₁ := hmd5 c₂ c₁ ⟨i₀, es₀, m₀, n₀, j₀, m₂, hu₀, hg₀, hj₀, hf₂⟩
    ⟨d, es, m, name, j, m', hu, hg, hj, hf⟩ (hc₂.trans hc₁.symm)
  refine ⟨i₀, es₀, m₀, n₀, j₀, m₂, hu₀, hg₀, hj₀, hf₂, fun hk₀ => ?_⟩
  obtain ⟨q, hqR, hqd, hqn⟩ := hnamed _ hk₀
  have hqg := listed_eq_of_entry hscan (hRL q hqR).1 hgL hqd hi₀ (hqn.trans hn₀.symm)
  obtain ⟨kv, hkv, hgk⟩ := List.mem_flatMap.mp (hqg ▸ hqR)
  exact hgR kv hkv hgk

/-- On a file system without links, when no two contents held under the directory share a
digest and the run's log does not exist yet, the delete action of `run_deduplication` leaves
under the directory a regular file with each content a regular file held there before,
whether it returns or `ensure_logs_dir` raises. -/
theorem runDeduplication_keeps_content {md5 : String → String} {fs : PosixFS} (hl : fs.LinkFree)
    {n : Nat} {directory : Path} {out : List Yield}
    (hscan : fs.toScanFS.fastScan n directory = some out) {D : Nat}
    (hD : fs.resolve directory = some D)
    (hmd5 : ∀ c₁ c₂, fs.HoldsUnder D c₁ → fs.HoldsUnder D c₂ → md5 c₁ = md5 c₂ → c₁ = c₂)
    (ts : String)
    (hlog : fs.pathExists ((directory.join (.ofName "_logs")).join
      (.ofName ("dedupe" ++ "_" ++ ts ++ ".log"))) = false)
    (dirMode fileMode : Nat) (errorText : OSError → String) {c : String} (hc : fs.HoldsUnder D c) :
    (runDeduplication md5 fs out directory ts dirMode fileMode errorText).fs.HoldsUnder D c := by
  have ⟨d, es, m, name, j, m', hu, hg, hj, hf⟩ := hc
  have hDd : fs.entryIsDir D = some true :=
    let ⟨_, _, h⟩ := hu.dir_base hg; fs.entryIsDir_of_get h
  obtain ⟨st, ht, hdups⟩ :=
    findDuplicates_tracks asciiLower [] 0 fs.getsize (chunkedFileHash md5 fs) fs.toScanFS hscan
  have hRL := removedPaths_listed md5 hl.noLinks hscan hD ht
  unfold runDeduplication
  dsimp only
  split_ifs
  · exact hc
  rcases makedirs_logs hl hD hDd _ hlog dirMode with
    ⟨e, he⟩ | ⟨base, ld, hmk, hb, hr₀, -, -, hld, hldd, -, hlf⟩
  · simpa only [PosixFS.newLogFile, PosixFS.ensureLogsDir, he, Except.map] using hc
  simp only [PosixFS.newLogFile, PosixFS.ensureLogsDir, hmk, Except.map, deleteDuplicates_eq, hdups]
  have hbase : ∀ {q : Path} {e : Nat}, fs.resolve q = some e → fs.entryIsDir e = some true →
      base.resolve q = some e := fun hq he =>
    hr₀.keeps.resolve_dir hl hb (fun _ _ _ h => (List.not_mem_nil _ h).elim) hq he
  have hs : DeleteStart base _ ld _ (st.duplicates.flatMap fun kv => kv.2.tail) :=
    ⟨hb, hld, hldd, hlf, fun p hp =>
      let ⟨_, _, i, hi, hidir⟩ := hRL p hp; ⟨i, hbase hi hidir, hr₀.entryIsDir hidir⟩⟩
  obtain ⟨K, hK⟩ := deleteLoop_inv hs fileMode errorText _ (fun _ h => h) (base, 0) [] hs.inv
  have hR := hr₀.trans hK.retains
  rw [List.append_nil] at hR
  have hN : fs.NonDirEntries K := hr₀.nonDirEntries hK.nonDir
  -- each unlinked entry is that of a removed path, in the directory of `fs` its parent names
  have hnamed : ∀ k ∈ K, ∃ p ∈ st.duplicates.flatMap (fun kv => kv.2.tail),
      fs.resolve p.dirname = some k.1 ∧ p.parts.getLast? = some k.2 := fun k hk => by
    obtain ⟨p, hp, hpd, hpn⟩ := hK.named k hk
    obtain ⟨-, -, i, hi, hidir⟩ := hRL p hp
    rw [hbase hi hidir] at hpd
    exact ⟨p, hp, hpd ▸ hi, hpn⟩
  by_cases hk : (d, name) ∈ K
  case neg => exact hR.holdsUnder hN hu hg hj hf hk
  obtain ⟨d₀, es₀, m₀, n₀, j₀, m₂, hu₀, hg₀, hj₀, hf₀, hk₀⟩ :=
    exists_kept_twin hl.noLinks hscan hD ht hmd5 hnamed hu hg hj hf hk
  exact hR.holdsUnder hN hu₀ hg₀ hj₀ hf₀ hk₀

/-- `/` holding two copies `a` and `b` of one file. -/
def twinsTree : PosixFS := PosixFS.ofInodes
  [⟨.dir [("a", 1), ("b", 2)], 0o755⟩, ⟨.file "x", 0o644⟩, ⟨.file "x", 0o644⟩] 0 0 (by decide)

/-- The action removes one copy, and `x` is still held under `/`. -/
theorem runDeduplication_keeps_content_twins :
    (runDeduplication id twinsTree [⟨⟨true, []⟩, [], [⟨true, ["a"]⟩, ⟨true, ["b"]⟩]⟩] ⟨true, []⟩
      "T" 0o755 0o644 (fun _ => "")).totalDeleted = 1 ∧
    (runDeduplication id twinsTree [⟨⟨true, []⟩, [], [⟨true, ["a"]⟩, ⟨true, ["b"]⟩]⟩] ⟨true, []⟩
      "T" 0o755 0o644 (fun _ => "")).fs.HoldsUnder 0 "x" :=
  ⟨by decide, runDeduplication_keeps_content (PosixFS.linkFree_of_check _ (by decide))
    (by decide : twinsTree.toScanFS.fastScan 2 ⟨true, []⟩ =
      some [⟨⟨true, []⟩, [], [⟨true, ["a"]⟩, ⟨true, ["b"]⟩]⟩])
    rfl (fun _ _ _ _ h => h) "T" (by decide) 0o755 0o644 (fun _ => "")
    ⟨0, _, 0o755, "a", 1, 0o644, .self, rfl, List.mem_cons_self _ _, rfl⟩⟩

/-! ### With a link leading its group the last copy goes -/

/-- No directory of `S`, which holds `D` and every directory an entry of one of them leads
to, has an entry leading to a regular file holding `c`: then nothing under `D` holds `c`. -/
theorem PosixFS.not_holdsUnder {fs : PosixFS} {D : Nat} {c : String} (S : List Nat) (hD : D ∈ S)
    (hS : ∀ d ∈ S, ∀ e ∈ ((fs.get? d).map Inode.entries).getD [],
      (fs.entryIsDir e.2 = some true → e.2 ∈ S) ∧ (fs.get? e.2).map Inode.node ≠ some (.file c)) :
    ¬ fs.HoldsUnder D c := by
  have hmem : ∀ {d es m e}, fs.get? d = some ⟨.dir es, m⟩ → e ∈ es →
      e ∈ ((fs.get? d).map Inode.entries).getD [] := fun hg he => by
    simpa [hg, Inode.entries] using he
  have hU : ∀ d, fs.DirUnder D d → d ∈ S := by
    intro d hd
    induction hd with
    | self => exact hD
    | child _ hg hj hdir ih => exact (hS _ ih _ (hmem hg hj)).1 hdir
  rintro ⟨d, es, m, name, j, m', hu, hg, hj, hf⟩
  exact (hS d (hU d hu) _ (hmem hg hj)).2 (by simp [hf])

/-- `/` holding the file `b` and, listed after it, the link `a` to it. -/
def linkedCopyTree : PosixFS := PosixFS.ofInodes
  [⟨.dir [("b", 1), ("a", 2)], 0o755⟩, ⟨.file "x", 0o644⟩, ⟨.symlink ⟨true, ["b"]⟩, 0o777⟩] 0 0
  (by decide)

/-- What `fast_scan("/")` yields on it: one triple, the file `b` listed before the link. -/
def linkedCopyScan : List Yield := [⟨⟨true, []⟩, [], [⟨true, ["b"]⟩, ⟨true, ["a"]⟩]⟩]

/-- The link `/a` hashes like `/b` and leads the group of `x`, so `/b` is removed, as the log
records, and no regular file under `/` holds `x` any more. -/
theorem runDeduplication_removes_last_copy :
    linkedCopyTree.toScanFS.fastScan 2 ⟨true, []⟩ = some linkedCopyScan ∧
    linkedCopyTree.resolve ⟨true, []⟩ = some 0 ∧ linkedCopyTree.HoldsUnder 0 "x" ∧
    (runDeduplication id linkedCopyTree linkedCopyScan ⟨true, []⟩ "T" 0o755 0o644
      (fun _ => "")).fs.readFile ⟨true, ["_logs", "dedupe_T.log"]⟩ = some "DELETED /b\n" ∧
    ¬ (runDeduplication id linkedCopyTree linkedCopyScan ⟨true, []⟩ "T" 0o755 0o644
      (fun _ => "")).fs.HoldsUnder 0 "x" :=
  ⟨by decide, rfl, ⟨0, _, 0o755, "b", 1, 0o644, .self, rfl, List.mem_cons_self _ _, rfl⟩, by decide,
    PosixFS.not_holdsUnder [0, 3] (List.mem_cons_self _ _) (by decide)⟩

end SakUtility
