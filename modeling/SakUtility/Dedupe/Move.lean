import SakUtility.Dedupe.Delete
import SakUtility.Organize.Safety

/-!
# The "Move Duplicates" action of `run_deduplication`

Every path of each group but its first is renamed into `target_dir`, under its own name or
the first free `f"{stem}_{counter}{ext}"`, with a `MOVED` line when `os.rename` returns and an
`ERROR` line when it raises; `fuel` bounds the existence checks per path. Each name chosen does
not exist when it is chosen, so on a file system without links, with `target_dir` not the
folder of the logs, the action loses no file: each moved path ends at its own name or its
target, with its content and mode, and every other file is as it was.
-/

namespace SakUtility

set_option autoImplicit false

/-- The paths the action renames: `paths[1:]` of every group, in dict order. -/
def movedPaths (duplicates : List (String × List Path)) : List Path :=
  duplicates.flatMap fun kv => kv.2.tail

section Action

variable (targetDir logFile : Path) (fileMode fuel : Nat) (errorText : OSError → String)

/-- One turn of the move loop on `path`, with the moves logged so far: `target_path` is the
name `moveTarget` settles on, then `os.rename(path, target_path)`. -/
def moveDuplicate (st : PosixFS × List (Path × Path)) (path : Path) :
    Option (PosixFS × List (Path × Path)) :=
  (moveTarget st.1.pathExists fuel targetDir path).map fun targetPath =>
    match st.1.rename path targetPath with
    | .ok fs' => (fs'.logLine logFile (movedLine path targetPath) fileMode,
        st.2 ++ [(path, targetPath)])
    | .error e => (st.1.logLine logFile (errorLine errorText path e) fileMode, st.2)

/-- The `clicked == move_btn` branch: `paths[1:]` of every group, in dict order. -/
def moveDuplicates (duplicates : List (String × List Path))
    (st : PosixFS × List (Path × Path)) : Option (PosixFS × List (Path × Path)) :=
  duplicates.foldlM (fun st kv => kv.2.tail.foldlM (moveDuplicate targetDir logFile fileMode
    fuel errorText) st) st

theorem moveDuplicates_eq (duplicates : List (String × List Path))
    (st : PosixFS × List (Path × Path)) :
    moveDuplicates targetDir logFile fileMode fuel errorText duplicates st =
      (movedPaths duplicates).foldlM (moveDuplicate targetDir logFile fileMode fuel errorText) st := by
  induction duplicates generalizing st with
  | nil => rfl
  | cons kv ds ih =>
    simp only [moveDuplicates, movedPaths, List.foldlM_cons, List.flatMap_cons,
      List.foldlM_append] at ih ⊢
    exact congrArg _ (funext ih)

end Action

/-- How a run of the move action ends: the file system, the moves its log records, in order,
and the exception that ended it, if one did. -/
structure MoveRun where
  fs : PosixFS
  moved : List (Path × Path)
  raised : Option OSError

/-- `run_deduplication` on the triples `fast_scan(directory)` yields, with the move action into
`target_dir`; `ts` is the time stamp of the log's name. With `file_extensions = None` no name
is lowered. With no duplicates it returns before the log's folder is made. -/
def runDeduplicationMove (md5 : String → String) (fs : PosixFS) (out : List Yield)
    (directory : Path) (ts : String) (targetDir : Path) (dirMode fileMode fuel : Nat)
    (errorText : OSError → String) : Option MoveRun :=
  let duplicates := findDuplicates asciiLower [] 0 fs.getsize (chunkedFileHash md5 fs) out
  if duplicates.isEmpty then some ⟨fs, [], none⟩
  else
    match fs.newLogFile directory "dedupe" ts dirMode with
    | .error e => some ⟨fs, [], some e⟩
    | .ok (fs1, logFile) =>
      (moveDuplicates targetDir logFile fileMode fuel errorText duplicates (fs1, [])).map
        fun r => ⟨r.1, r.2, none⟩

/-! ### Where each path is -/

/-- Where the loop has put `p`: the target of its `MOVED` line, or `p` itself. -/
def movePlace (moved : List (Path × Path)) (p : Path) : Path := (moved.lookup p).getD p

theorem movePlace_of_not_mem {moved : List (Path × Path)} {p : Path}
    (h : p ∉ moved.map Prod.fst) : movePlace moved p = p := by
  rw [movePlace, List.lookup_eq_none_iff.mpr fun x hx =>
    bne_iff_ne.mpr fun (he : p = x.1) => h (he ▸ List.mem_map_of_mem Prod.fst hx)]
  rfl

theorem movePlace_append {moved : List (Path × Path)} {p : Path} (t : Path)
    (h : p ∉ moved.map Prod.fst) (q : Path) :
    movePlace (moved ++ [(p, t)]) q = if q = p then t else movePlace moved q := by
  unfold movePlace
  rw [List.lookup_append]
  split_ifs with hq
  · subst hq
    rw [List.lookup_eq_none_iff.mpr fun x hx =>
      bne_iff_ne.mpr fun (he : q = x.1) => h (he ▸ List.mem_map_of_mem Prod.fst hx)]
    simp
  · cases moved.lookup q <;> simp [List.lookup_cons, beq_false_of_ne hq]

/-- The move loop settles on a name of `target_dir` that does not exist, given more existence
checks than the folder has entries. -/
theorem moveTarget_free {fs : PosixFS} (hl : fs.LinkFree) {targetDir : Path} {T : Nat}
    (hT : fs.resolve targetDir = some T) {x : Inode} (hx : fs.get? T = some x) {fuel : Nat}
    (hfuel : x.entries.length < fuel) (path : Path) :
    ∃ t, moveTarget fs.pathExists fuel targetDir path = some (targetDir.join (.ofName t)) ∧
      fs.child T t = none := by
  have hE : ∀ name, fs.pathExists (targetDir.join (.ofName name)) = true →
      name ∈ (x.entries.map Prod.fst).toFinset := by
    intro name h
    simp only [PosixFS.pathExists, hl.resolve_join, hT, Option.some_bind,
      Option.isSome_iff_exists] at h
    obtain ⟨j, hj⟩ := h
    obtain ⟨es, m, hg, -, hmem⟩ := fs.child_eq_some hj
    rw [hx] at hg
    cases hg
    simpa [Inode.entries] using ⟨j, hmem⟩
  obtain ⟨fuel, rfl⟩ : ∃ f, fuel = f + 1 := ⟨fuel - 1, by omega⟩
  obtain ⟨k, -, hr, hfree, -⟩ := suffixLoop_join_firstFree fs.pathExists targetDir _ hE
    (dedupeNames_injective path.basename)
    (show _ < fuel + 1 from (List.toFinset_card_le _).trans_lt (by simpa using hfuel))
  refine ⟨dedupeNames path.basename k, by rw [moveTarget_eq, dedupeLoop, hr]; rfl, ?_⟩
  rw [PosixFS.pathExists, hl.resolve_join, hT, Option.some_bind] at hfree
  simpa using hfree

theorem movePlace_cases (moved : List (Path × Path)) (p : Path) :
    movePlace moved p = p ∨ (p, movePlace moved p) ∈ moved := by
  unfold movePlace
  cases h : moved.lookup p with
  | none => exact .inl rfl
  | some t =>
    obtain ⟨l₁, l₂, rfl, -⟩ := List.lookup_eq_some_iff.mp h
    exact .inr (by simp)

theorem Path.getLast?_parts {p : Path} (h : p.parts ≠ []) : p.parts.getLast? = some p.basename := by
  rw [Path.basename, List.getLast?_eq_getLast p.parts h]
  rfl

/-! ### The paths a scan gives to move -/

theorem Tracks.movedPaths_nodup {lower : List Char → List Char} {exts : List String} {minSize : Int}
    {getsize : Path → Option Nat} {hash : Path → Option String} {fs : List Path} {st : DupState}
    (ht : Tracks lower exts minSize getsize hash fs st) (hnd : fs.Nodup) :
    (movedPaths st.duplicates).Nodup := by
  refine List.nodup_flatMap.mpr ⟨fun kv hkv => ?_, ?_⟩
  · rw [(ht.mem_duplicates hkv).2]
    exact ((perm_swapFirstTwo _).nodup_iff.mpr (hnd.filter _)).sublist (List.tail_sublist _)
  · -- a path is in the group of its own digest only
    exact (List.pairwise_map.mp ht.keys_nodup).imp_of_mem fun ha hb hne p hpa hpb =>
      hne (Option.some.inj ((ht.mem_tail ha hpa).2.symm.trans (ht.mem_tail hb hpb).2))

/-- The paths the action renames name entries of regular files of `fs`, each entry by one path
only. -/
structure MovePaths (fs : PosixFS) (R : List Path) : Prop where
  nodup : R.Nodup
  file : ∀ p ∈ R, p.parts ≠ [] ∧ ∃ d i c m, fs.resolve p.dirname = some d ∧
    fs.child d p.basename = some i ∧ fs.get? i = some ⟨.file c, m⟩
  inj : ∀ p ∈ R, ∀ q ∈ R, ∀ d, fs.resolve p.dirname = some d →
    fs.resolve q.dirname = some d → p.basename = q.basename → p = q

theorem MovePaths.resolve_file {fs : PosixFS} {R : List Path} (hP : MovePaths fs R)
    (hl : fs.LinkFree) {p : Path} (hp : p ∈ R) :
    ∃ i c m, fs.resolve p = some i ∧ fs.get? i = some ⟨.file c, m⟩ := by
  obtain ⟨hne, d, i, c, m, hd, hc, hf⟩ := hP.file p hp
  refine ⟨i, c, m, ?_, hf⟩
  rw [Path.eq_join_of_ne_nil hne, hl.resolve_join, hd, Option.some_bind, hc]

/-- On a file system without links, the paths to move that a scan of a directory gives name
distinct regular files. -/
theorem movePaths_of_scan (md5 : String → String) {fs : PosixFS} (hl : fs.LinkFree) {n : Nat}
    {directory : Path} {out : List Yield} (hscan : fs.toScanFS.fastScan n directory = some out)
    {D : Nat} (hD : fs.resolve directory = some D) :
    MovePaths fs (movedPaths (findDuplicates asciiLower [] 0 fs.getsize (chunkedFileHash md5 fs) out)) := by
  obtain ⟨st, ht, hdups⟩ :=
    findDuplicates_tracks asciiLower [] 0 fs.getsize (chunkedFileHash md5 fs) fs.toScanFS hscan
  rw [hdups]
  have hL : ∀ p ∈ movedPaths st.duplicates, p ∈ out.flatMap Yield.files ∧
      ∃ h, countedDigest asciiLower [] 0 fs.getsize (chunkedFileHash md5 fs) p = some h := fun p hp => by
    obtain ⟨kv, hkv, hpk⟩ := List.mem_flatMap.mp hp
    exact ⟨(ht.mem_tail hkv hpk).1, _, (ht.mem_tail hkv hpk).2⟩
  have hfile : ∀ p ∈ movedPaths st.duplicates, p.parts ≠ [] ∧ ∃ d i c m,
      fs.resolve p.dirname = some d ∧ fs.child d p.basename = some i ∧
        fs.get? i = some ⟨.file c, m⟩ := fun p hp => by
    obtain ⟨hpL, h, hph⟩ := hL p hp
    obtain ⟨d, -, -, _, i, hd, hn, -, -, -, hpi⟩ := listed_file hl.noLinks hscan hD hpL
    obtain ⟨c, m, hf, -⟩ := content_of_chunkedFileHash hpi (hash_of_countedDigest hph)
    have hne : p.parts ≠ [] := fun h => by simp [h] at hn
    rw [Path.eq_join_of_ne_nil hne, hl.resolve_join, hd, Option.some_bind] at hpi
    exact ⟨hne, d, i, c, m, hd, hpi, hf⟩
  refine ⟨ht.movedPaths_nodup (fs.toScanFS.loop_files_nodup hscan), hfile,
    fun p hp q hq d hpd hqd hb => listed_eq_of_entry hscan (hL p hp).1 (hL q hq).1 hpd hqd ?_⟩
  rw [Path.getLast?_parts (hfile p hp).1, Path.getLast?_parts (hfile q hq).1, hb]

/-- What a run `r` of the move action from `fs` leaves of the paths `R` it renames: each names
its file, with its content and mode, at its place, its own name or the name in `target_dir`
its log line records, and no two share a place; every file no path of `R` names is reached as
before and is as it was. -/
structure MovesKept (fs : PosixFS) (targetDir : Path) (R : List Path) (r : MoveRun) : Prop where
  placed : ∀ p ∈ R, ∀ i c m, fs.resolve p = some i → fs.get? i = some ⟨.file c, m⟩ →
    r.fs.resolve (movePlace r.moved p) = some i ∧ r.fs.get? i = some ⟨.file c, m⟩
  targets : ∀ x ∈ r.moved, x.1 ∈ R ∧ ∃ t, x.2 = targetDir.join (.ofName t)
  distinct : ∀ p ∈ R, ∀ q ∈ R, movePlace r.moved p = movePlace r.moved q → p = q
  untouched : ∀ q j c m, fs.resolve q = some j → fs.get? j = some ⟨.file c, m⟩ →
    (∀ p ∈ R, fs.resolve p ≠ some j) → r.fs.resolve q = some j ∧ r.fs.get? j = some ⟨.file c, m⟩

theorem movesKept_nil (fs : PosixFS) (targetDir : Path) (R : List Path) (raised : Option OSError) :
    MovesKept fs targetDir R ⟨fs, [], raised⟩ where
  placed _ _ _ _ _ hp hf := ⟨hp, hf⟩
  targets _ h := nomatch h
  distinct _ _ _ _ h := h
  untouched _ _ _ _ hq hf _ := ⟨hq, hf⟩

/-! ### The loop keeps every file -/

section Loop

variable (base : PosixFS) (targetDir logs : Path) (T ld : Nat) (logName : String)
  (R : List Path)

/-- The entries of the paths moved so far, in the directories of `base`. -/
def MovedGone (moved : List (Path × Path)) (d : Nat) (n : String) : Prop :=
  ∃ x ∈ moved, base.resolve x.1.dirname = some d ∧ x.1.basename = n

/-- What holds of the file system the loop starts from: `target_dir` is the directory `T`, the
log's folder `logs` the directory `ld`, another one, where no file `logName` is yet; the paths
`R` to move name entries of files, each entry by one path only. -/
structure MoveStart : Prop where
  linkFree : base.LinkFree
  target : base.resolve targetDir = some T
  targetIsDir : base.entryIsDir T = some true
  logs : base.resolve logs = some ld
  logsIsDir : base.entryIsDir ld = some true
  target_ne : T ≠ ld
  logFree : base.child ld logName = none
  cand : ∀ p ∈ R, p.parts ≠ [] ∧ ∃ d i, base.resolve p.dirname = some d ∧
    base.child d p.basename = some i ∧ base.entryIsDir i ≠ some true
  inj : ∀ p ∈ R, ∀ q ∈ R, ∀ d, base.resolve p.dirname = some d →
    base.resolve q.dirname = some d → p.basename = q.basename → p = q

/-- What holds after each turn of the loop, with the moves logged so far and the paths left:
every path of `R` names its file at its place, and no two places are one entry. -/
structure MoveInv (fs : PosixFS) (moved : List (Path × Path)) (rest : List Path) : Prop where
  linkFree : fs.LinkFree
  grows : base.inodes.length ≤ fs.inodes.length
  keeps : base.Keeps fs (MovedGone base moved) (base.inodes.length ≤ ·)
  pending : ∀ p ∈ rest, p ∈ R ∧ p ∉ moved.map Prod.fst
  movedR : ∀ x ∈ moved, x.1 ∈ R
  movedTarget : ∀ x ∈ moved, ∃ t, x.2 = targetDir.join (.ofName t)
  placed : ∀ p ∈ R, ∀ i, base.resolve p = some i → fs.resolve (movePlace moved p) = some i
  distinct : ∀ p ∈ R, ∀ q ∈ R, ∀ e, fs.resolve (movePlace moved p).dirname = some e →
    fs.resolve (movePlace moved q).dirname = some e →
    (movePlace moved p).basename = (movePlace moved q).basename → p = q
  logFresh : ∀ j, fs.child ld logName = some j → base.inodes.length ≤ j

variable {base targetDir logs T ld logName R}

section Start

variable (hs : MoveStart base targetDir logs T ld logName R)
include hs

theorem MoveStart.gone_file {moved : List (Path × Path)} (hR : ∀ x ∈ moved, x.1 ∈ R) {d : Nat}
    {n : String} {j : Nat} (hg : MovedGone base moved d n) (hc : base.child d n = some j) :
    base.entryIsDir j ≠ some true := by
  obtain ⟨x, hx, hd, rfl⟩ := hg
  obtain ⟨-, d', i, hd', hi, hnd⟩ := hs.cand x.1 (hR x hx)
  rw [hd] at hd'
  cases hd'
  rw [hc] at hi
  cases hi
  exact hnd

theorem MoveStart.resolve_dir {fs : PosixFS} {moved : List (Path × Path)} {w : Nat → Prop}
    (hR : ∀ x ∈ moved, x.1 ∈ R) (hk : base.Keeps fs (MovedGone base moved) w) (hl : fs.LinkFree)
    {q : Path} {e : Nat} (hq : base.resolve q = some e) (he : base.entryIsDir e = some true) :
    fs.resolve q = some e :=
  hk.resolve_dir hs.linkFree hl (fun _ _ _ hg hc => hs.gone_file hR hg hc) hq he

/-- A path to move is the entry of a directory of `base`, which names its file. -/
theorem MoveStart.cand_dir {p : Path} (hp : p ∈ R) :
    ∃ d i, base.resolve p.dirname = some d ∧ base.entryIsDir d = some true ∧
      base.child d p.basename = some i ∧ base.resolve p = some i := by
  obtain ⟨hne, d, i, hd, hc, -⟩ := hs.cand p hp
  obtain ⟨es, m, hg, -⟩ := base.child_eq_some hc
  refine ⟨d, i, hd, base.entryIsDir_of_get hg, hc, ?_⟩
  rw [Path.eq_join_of_ne_nil hne, hs.linkFree.resolve_join, hd, Option.some_bind, hc]

/-- The place of a path to move is an entry of a directory of `base`. -/
theorem MoveStart.place_dir {moved : List (Path × Path)}
    (ht : ∀ x ∈ moved, ∃ t, x.2 = targetDir.join (.ofName t)) {p : Path} (hp : p ∈ R) :
    (movePlace moved p).parts ≠ [] ∧ ∃ e, base.resolve (movePlace moved p).dirname = some e ∧
      base.entryIsDir e = some true := by
  rcases movePlace_cases moved p with h | h
  · obtain ⟨d, -, hd, hdir, -⟩ := hs.cand_dir hp
    rw [h]
    exact ⟨(hs.cand p hp).1, d, hd, hdir⟩
  · obtain ⟨t, htp⟩ := ht _ h
    rw [show movePlace moved p = targetDir.join (.ofName t) from htp]
    exact ⟨by simp, T, by rw [Path.dirname_join_ofName]; exact hs.target, hs.targetIsDir⟩

/-- The folder a place is in is reached as in `base` in every file system the loop keeps. -/
theorem MoveStart.resolve_place_dirname {moved moved' : List (Path × Path)}
    (ht : ∀ x ∈ moved, ∃ t, x.2 = targetDir.join (.ofName t)) (hR : ∀ x ∈ moved', x.1 ∈ R)
    {fs : PosixFS} {w : Nat → Prop} (hk : base.Keeps fs (MovedGone base moved') w)
    (hl : fs.LinkFree) {p : Path} (hp : p ∈ R) :
    fs.resolve (movePlace moved p).dirname = base.resolve (movePlace moved p).dirname := by
  obtain ⟨-, e, he, hdir⟩ := hs.place_dir ht hp
  rw [he, hs.resolve_dir hR hk hl he hdir]

end Start

theorem MoveInv.tail {fs : PosixFS} {moved : List (Path × Path)} {p : Path} {rest : List Path}
    (hi : MoveInv base targetDir ld logName R fs moved (p :: rest)) :
    MoveInv base targetDir ld logName R fs moved rest :=
  { hi with pending := fun q hq => hi.pending q (List.mem_cons_of_mem p hq) }

section Inv

variable {fs : PosixFS} {moved : List (Path × Path)} {rest : List Path}
  (hs : MoveStart base targetDir logs T ld logName R)
  (hi : MoveInv base targetDir ld logName R fs moved rest)
include hs hi

theorem MoveInv.resolve_place (p : Path) (hp : p ∈ R) :
    ∃ e, fs.resolve (movePlace moved p).dirname = some e ∧
      fs.resolve (movePlace moved p) = fs.child e (movePlace moved p).basename := by
  obtain ⟨hne, e, he, hdir⟩ := hs.place_dir hi.movedTarget hp
  have hd := hs.resolve_dir hi.movedR hi.keeps hi.linkFree he hdir
  refine ⟨e, hd, ?_⟩
  conv_lhs => rw [Path.eq_join_of_ne_nil hne]
  rw [hi.linkFree.resolve_join, hd, Option.some_bind]

/-- A change that drops no entry, writes only files the loop made, and gives `ld` no entry
`logName` but a new one keeps the invariant. -/
theorem MoveInv.of_keeps {fs' : PosixFS} {w : Nat → Prop}
    (hk : fs.Keeps fs' (fun _ _ => False) w) (hw : ∀ j, w j → base.inodes.length ≤ j)
    (hl' : fs'.LinkFree) (hlen : fs.inodes.length ≤ fs'.inodes.length)
    (hlog : ∀ {j}, fs'.child ld logName = some j → base.inodes.length ≤ j) :
    MoveInv base targetDir ld logName R fs' moved rest := by
  have hk' : base.Keeps fs' (MovedGone base moved) (base.inodes.length ≤ ·) :=
    (hi.keeps.trans hk).mono (fun _ _ h => h.elim id False.elim) fun _ h => h.elim id (hw _)
  refine
    { hi with
      linkFree := hl'
      grows := hi.grows.trans hlen
      keeps := hk'
      placed := fun p hp i hb => ?_
      distinct := fun p hp q hq e h₁ h₂ hb => ?_
      logFresh := fun _ hj => hlog hj }
  · have hne := (hs.place_dir hi.movedTarget hp).1
    have := hi.placed p hp i hb
    rw [Path.eq_join_of_ne_nil hne] at this ⊢
    exact hk.resolve_file hi.linkFree hl' (fun _ _ _ h => h.elim) this fun _ _ h => h
  · rw [hs.resolve_place_dirname hi.movedTarget hi.movedR hk' hl' hp,
      ← hs.resolve_place_dirname hi.movedTarget hi.movedR hi.keeps hi.linkFree hp] at h₁
    rw [hs.resolve_place_dirname hi.movedTarget hi.movedR hk' hl' hq,
      ← hs.resolve_place_dirname hi.movedTarget hi.movedR hi.keeps hi.linkFree hq] at h₂
    exact hi.distinct p hp q hq e h₁ h₂ hb

theorem MoveInv.logLine (text : String) (fileMode : Nat) :
    MoveInv base targetDir ld logName R (fs.logLine (logs.join (.ofName logName)) text fileMode)
      moved rest := by
  have hlogs := hs.resolve_dir hi.movedR hi.keeps hi.linkFree hs.logs hs.logsIsDir
  rcases fs.logLine_cases hi.linkFree hlogs logName text fileMode with
    h | ⟨j, g, hj, h⟩ | ⟨hj, -, c, h⟩ <;> rw [h]
  · exact hi
  · -- the log was there: only its content changes
    exact hi.of_keeps hs (fs.keeps_setContent j g) (fun _ he => he ▸ hi.logFresh j hj)
      (hi.linkFree.setContent j g) (by simp)
      fun hk => hi.logFresh _ (by rwa [PosixFS.child_setContent] at hk)
  · -- the log is made, a new file in `ld`
    refine hi.of_keeps hs (PosixFS.keeps_create (by rfl) (by rfl) hj) (fun _ (h : False) => h.elim)
      (hi.linkFree.create ld logName (x := ⟨.file c, fileMode⟩) rfl (fun t h => nomatch h) rfl)
      (by simp [PosixFS.create]) fun hk => ?_
    rcases fs.child_create_eq_some (by rfl) hk with ⟨-, -, rfl⟩ | hk
    · exact hi.grows
    · exact hi.logFresh _ hk

end Inv

section Head

variable {fs : PosixFS} {moved : List (Path × Path)} {p : Path} {rest : List Path}
  (hs : MoveStart base targetDir logs T ld logName R)
  (hi : MoveInv base targetDir ld logName R fs moved (p :: rest))
include hs hi

theorem MoveInv.head_child {d i : Nat} (hd : base.resolve p.dirname = some d)
    (hc : base.child d p.basename = some i) : fs.child d p.basename = some i := by
  obtain ⟨hpR, hpm⟩ := hi.pending p (List.mem_cons_self _ _)
  refine hi.keeps.child d _ i hc fun ⟨x, hx, hxd, hxn⟩ => hpm ?_
  rw [← hs.inj x.1 (hi.movedR x hx) p hpR d hxd hd hxn]
  exact List.mem_map_of_mem Prod.fst hx

/-- Renaming the path the loop is at to the free name `t` of `target_dir` keeps the invariant
with that move logged. -/
theorem MoveInv.move (hpr : p ∉ rest) {d i : Nat} (hd : base.resolve p.dirname = some d)
    (hc : fs.child d p.basename = some i) {t : String} (ht : fs.child T t = none)
    {et : List (String × Nat)} {mt : Nat} (hgT : fs.get? T = some ⟨.dir et, mt⟩)
    (hsT : canSearch mt = true) :
    MoveInv base targetDir ld logName R ((fs.unlink d p.basename).setEntry T t i)
      (moved ++ [(p, targetDir.join (.ofName t))]) rest := by
  obtain ⟨hpR, hpm⟩ := hi.pending p (List.mem_cons_self _ _)
  obtain ⟨d', i', hd', hdir, hc', hbp⟩ := hs.cand_dir hpR
  rw [hd] at hd'
  cases hd'
  rw [hi.head_child hs hd hc'] at hc
  cases hc
  have hdfs := hs.resolve_dir hi.movedR hi.keeps hi.linkFree hd hdir
  have hdT : d ≠ T ∨ t ≠ p.basename := not_and_or.mp fun ⟨h₁, h₂⟩ => by
    have hc0 := hi.head_child hs hd hc'
    rw [h₁, ← h₂, ht] at hc0
    cases hc0
  have ht1 : (fs.unlink d p.basename).child T t = none := by rw [fs.child_unlink_of_ne hdT, ht]
  have hk : fs.Keeps ((fs.unlink d p.basename).setEntry T t i) (fun d' n' => d' = d ∧ n' = p.basename)
      (fun _ => False) :=
    ((fs.keeps_unlink d p.basename).trans ((fs.unlink d p.basename).keeps_setEntry i ht1)).mono
      (fun _ _ h => h.elim id False.elim) fun _ h => h.elim id id
  have hl2 : ((fs.unlink d p.basename).setEntry T t i).LinkFree :=
    (hi.linkFree.unlink d p.basename).setEntry T t (by
      obtain ⟨es, m, hg, -, hj⟩ := fs.child_eq_some (hi.head_child hs hd hc')
      simpa using hi.linkFree.entriesExist d es m hg _ hj)
  have hR2 : ∀ x ∈ moved ++ [(p, targetDir.join (.ofName t))], x.1 ∈ R := fun x hx => by
    rcases List.mem_append.mp hx with hx | hx
    · exact hi.movedR x hx
    · rw [List.mem_singleton.mp hx]
      exact hpR
  have hk2 : base.Keeps ((fs.unlink d p.basename).setEntry T t i)
      (MovedGone base (moved ++ [(p, targetDir.join (.ofName t))])) (base.inodes.length ≤ ·) :=
    (hi.keeps.trans hk).mono
      (fun d' n' h => h.elim (fun ⟨x, hx, h₁, h₂⟩ => ⟨x, List.mem_append_left _ hx, h₁, h₂⟩)
        fun ⟨h₁, h₂⟩ => ⟨(p, targetDir.join (.ofName t)),
          List.mem_append_right _ (List.mem_singleton_self _), h₁ ▸ hd, h₂.symm⟩)
      fun _ h => h.elim id False.elim
  have hT2 := hs.resolve_dir hR2 hk2 hl2 hs.target hs.targetIsDir
  have hchild : ((fs.unlink d p.basename).setEntry T t i).child T t = some i := by
    obtain ⟨es', hg'⟩ : ∃ es', (fs.unlink d p.basename).get? T = some ⟨.dir es', mt⟩ := by
      rw [PosixFS.get?_unlink, hgT]
      by_cases h : d = T <;> simp [Inode.dropEntry, h]
    exact PosixFS.child_setEntry_self _ hg' hsT
  have hplace := movePlace_append (targetDir.join (.ofName t)) hpm
  have hdn : ∀ q ∈ R, ((fs.unlink d p.basename).setEntry T t i).resolve (movePlace moved q).dirname =
      fs.resolve (movePlace moved q).dirname := fun q hq =>
    (hs.resolve_place_dirname hi.movedTarget hR2 hk2 hl2 hq).trans
      (hs.resolve_place_dirname hi.movedTarget hi.movedR hi.keeps hi.linkFree hq).symm
  -- another place is an entry of its folder that is neither the one of `p` nor `t`
  have hother : ∀ q ∈ R, q ≠ p → ∀ iq, base.resolve q = some iq →
      ((fs.unlink d p.basename).setEntry T t i).resolve (movePlace moved q) = some iq := by
    intro q hq hqp iq hb
    obtain ⟨e, he, hres⟩ := hi.resolve_place hs q hq
    have hce : fs.child e (movePlace moved q).basename = some iq := hres ▸ hi.placed q hq iq hb
    have h1 : T ≠ e ∨ (movePlace moved q).basename ≠ t := not_and_or.mp fun ⟨h₁, h₂⟩ => by
      rw [← h₁, h₂, ht] at hce
      cases hce
    have h2 : d ≠ e ∨ (movePlace moved q).basename ≠ p.basename := not_and_or.mp fun ⟨h₁, h₂⟩ =>
      hqp (hi.distinct q hq p hpR e he (by rw [movePlace_of_not_mem hpm, hdfs, h₁]) (by
        rw [h₂, movePlace_of_not_mem hpm]))
    conv_lhs => rw [Path.eq_join_of_ne_nil (hs.place_dir hi.movedTarget hq).1]
    rw [hl2.resolve_join, hdn q hq, he, Option.some_bind, PosixFS.child_setEntry_of_ne _ h1,
      PosixFS.child_unlink_of_ne _ h2, hce]
  -- and no other place is the entry `t` of `T`
  have hnotT : ∀ q ∈ R, q ≠ p → fs.resolve (movePlace moved q).dirname = some T →
      (movePlace moved q).basename ≠ t := by
    intro q hq hqp hqT hqt
    obtain ⟨-, iq, -, -, -, hbq⟩ := hs.cand_dir hq
    obtain ⟨e, he, hres⟩ := hi.resolve_place hs q hq
    rw [hqT] at he
    cases he
    have := hi.placed q hq iq hbq
    rw [hres, hqt, ht] at this
    cases this
  refine
    { linkFree := hl2
      grows := by simpa using hi.grows
      keeps := hk2
      pending := fun q hq => by
        obtain ⟨hqR, hqm⟩ := hi.pending q (List.mem_cons_of_mem _ hq)
        refine ⟨hqR, ?_⟩
        simp only [List.map_append, List.map_cons, List.map_nil, List.mem_append,
          List.mem_singleton, not_or]
        exact ⟨hqm, fun h => hpr (h ▸ hq)⟩
      movedR := hR2
      movedTarget := fun x hx => by
        rcases List.mem_append.mp hx with hx | hx
        · exact hi.movedTarget x hx
        · exact ⟨t, by rw [List.mem_singleton.mp hx]⟩
      placed := fun q hq iq hb => ?_
      distinct := fun q₁ hq₁ q₂ hq₂ e h₁ h₂ hb => ?_
      logFresh := fun j hj => ?_ }
  · -- the moved file is at its target, every other one where it was
    rw [hplace]
    split_ifs with hqp
    · subst hqp
      rw [hbp] at hb
      cases hb
      rw [hl2.resolve_join, hT2, Option.some_bind, hchild]
    · exact hother q hq hqp iq hb
  · -- the target is an entry no other place is
    rw [hplace q₁] at h₁ hb
    rw [hplace q₂] at h₂ hb
    by_cases hp₁ : q₁ = p <;> by_cases hp₂ : q₂ = p
    · exact hp₁.trans hp₂.symm
    · rw [if_pos hp₁, Path.dirname_join_ofName, hT2] at h₁
      rw [if_neg hp₂, hdn q₂ hq₂] at h₂
      rw [if_pos hp₁, if_neg hp₂, Path.basename_join_ofName] at hb
      cases h₁
      exact absurd hb.symm (hnotT q₂ hq₂ hp₂ h₂)
    · rw [if_pos hp₂, Path.dirname_join_ofName, hT2] at h₂
      rw [if_neg hp₁, hdn q₁ hq₁] at h₁
      rw [if_pos hp₂, if_neg hp₁, Path.basename_join_ofName] at hb
      cases h₂
      exact absurd hb (hnotT q₁ hq₁ hp₁ h₁)
    · rw [if_neg hp₁, hdn q₁ hq₁] at h₁
      rw [if_neg hp₂, hdn q₂ hq₂] at h₂
      rw [if_neg hp₁, if_neg hp₂] at hb
      exact hi.distinct q₁ hq₁ q₂ hq₂ e h₁ h₂ hb
  · -- the target is not the log
    rcases (fs.unlink d p.basename).child_setEntry_eq_some hj with ⟨hTl, -, -⟩ | ⟨-, hj⟩
    · exact absurd hTl hs.target_ne
    · exact hi.logFresh j (fs.child_unlink_eq_some hj).2

end Head

/-- One turn of the loop on the path `p`: it settles on a free name of `target_dir`, renames
`p` there or logs the error, and keeps the invariant with at most two entries more. -/
theorem MoveInv.step (hs : MoveStart base targetDir logs T ld logName R) (fileMode fuel : Nat)
    (errorText : OSError → String) {fs : PosixFS} {moved : List (Path × Path)} {p : Path}
    {rest : List Path} (hi : MoveInv base targetDir ld logName R fs moved (p :: rest))
    (hpr : p ∉ rest) (hfuel : fs.entryTotal < fuel) :
    ∃ fs' moved', moveDuplicate targetDir (logs.join (.ofName logName)) fileMode fuel errorText
        (fs, moved) p = some (fs', moved') ∧
      MoveInv base targetDir ld logName R fs' moved' rest ∧ fs'.entryTotal ≤ fs.entryTotal + 2 := by
  have hT := hs.resolve_dir hi.movedR hi.keeps hi.linkFree hs.target hs.targetIsDir
  obtain ⟨et, mt, hgT⟩ : ∃ et mt, fs.get? T = some ⟨.dir et, mt⟩ := by
    obtain ⟨es, m, hg⟩ := base.dir_of_entryIsDir hs.targetIsDir
    obtain ⟨es', hg'⟩ := hi.keeps.dir T es m hg
    exact ⟨es', m, hg'⟩
  obtain ⟨t, hmt, ht⟩ := moveTarget_free hi.linkFree hT hgT
    ((fs.length_entries_le_entryTotal hgT).trans_lt hfuel) p
  have hlogs := hs.resolve_dir hi.movedR hi.keeps hi.linkFree hs.logs hs.logsIsDir
  obtain ⟨hpR, -⟩ := hi.pending p (List.mem_cons_self _ _)
  obtain ⟨d, i, hd, hdir, hc, -⟩ := hs.cand_dir hpR
  have hc' := hi.head_child hs hd hc
  cases hren : fs.rename p (targetDir.join (.ofName t)) with
  | ok fs2 =>
    -- the rename moved the entry
    obtain ⟨rfl, et', mt', hgT', hsT'⟩ := fs.rename_of_fresh (Path.getLast?_parts (hs.cand p hpR).1)
      (by simp) (hs.resolve_dir hi.movedR hi.keeps hi.linkFree hd hdir)
      (by rw [Path.dirname_join_ofName]; exact hT) hc' ht hren
    have hi2 := hi.move hs hpr hd hc' ht hgT' hsT'
    refine ⟨_, _, by simp only [moveDuplicate, hmt, Option.map_some', hren],
      hi2.logLine hs (movedLine p (targetDir.join (.ofName t))) fileMode, ?_⟩
    have h1 := PosixFS.entryTotal_logLine_le hi2.linkFree
      (hs.resolve_dir hi2.movedR hi2.keeps hi2.linkFree hs.logs hs.logsIsDir) logName
      (movedLine p (targetDir.join (.ofName t))) fileMode
    have h2 := (fs.unlink d p.basename).entryTotal_setEntry_le T t i
    have h3 := fs.entryTotal_unlink_le d p.basename
    omega
  | error e =>
    -- the error is logged
    refine ⟨_, _, by simp only [moveDuplicate, hmt, Option.map_some', hren],
      hi.tail.logLine hs (errorLine errorText p e) fileMode, ?_⟩
    have := PosixFS.entryTotal_logLine_le hi.linkFree hlogs logName (errorLine errorText p e) fileMode
    omega

/-- With more existence checks than the entries the run can make, the loop over the paths to
move ends with the invariant. -/
theorem moveLoop_inv (hs : MoveStart base targetDir logs T ld logName R) (fileMode fuel : Nat)
    (errorText : OSError → String) {K : Nat} (hK : K < fuel) :
    ∀ (rest : List Path) (fs : PosixFS) (moved : List (Path × Path)),
      MoveInv base targetDir ld logName R fs moved rest → rest.Nodup →
      fs.entryTotal + 2 * rest.length ≤ K →
      ∃ fs' moved', rest.foldlM (moveDuplicate targetDir (logs.join (.ofName logName)) fileMode
          fuel errorText) (fs, moved) = some (fs', moved') ∧
        MoveInv base targetDir ld logName R fs' moved' [] := by
  intro rest
  induction rest with
  | nil => exact fun fs moved hi _ _ => ⟨fs, moved, rfl, hi⟩
  | cons p rest ih =>
    intro fs moved hi hnd hcount
    obtain ⟨hpr, hnd⟩ := List.nodup_cons.mp hnd
    rw [List.length_cons] at hcount
    obtain ⟨fs1, m1, h1, hi1, hc1⟩ := hi.step hs fileMode fuel errorText hpr (by omega)
    obtain ⟨fs', m', h', hi'⟩ := ih fs1 m1 hi1 hnd (by omega)
    exact ⟨fs', m', by rw [List.foldlM_cons, h1]; exact h', hi'⟩

theorem MoveStart.inv (hs : MoveStart base targetDir logs T ld logName R) :
    MoveInv base targetDir ld logName R base [] R where
  linkFree := hs.linkFree
  grows := le_rfl
  keeps := base.keeps_refl
  pending := fun p hp => ⟨hp, List.not_mem_nil p⟩
  movedR := fun _ h => nomatch h
  movedTarget := fun _ h => nomatch h
  placed := fun _ _ _ h => h
  distinct := hs.inj
  logFresh := fun j hj => by rw [hs.logFree] at hj; cases hj

/-- A file system that keeps `fs` and adds only new inodes, where `target_dir` and the folder
of the logs are two directories and the log does not exist, is one the loop can start from. -/
theorem MovePaths.moveStart {fs : PosixFS} (hP : MovePaths fs R) (hl : fs.LinkFree)
    (hb : base.LinkFree) (hk : fs.Keeps base (fun _ _ => False) (fun _ => False))
    (hT : fs.resolve targetDir = some T) (hTd : fs.entryIsDir T = some true)
    (hld : base.resolve logs = some ld) (hldd : base.entryIsDir ld = some true) (hne : T ≠ ld)
    (hlf : base.child ld logName = none) : MoveStart base targetDir logs T ld logName R := by
  have hdir : ∀ p ∈ R, ∃ d, fs.resolve p.dirname = some d ∧ base.resolve p.dirname = some d :=
    fun p hp => by
      obtain ⟨-, d, i, c, m, hd, hc, -⟩ := hP.file p hp
      obtain ⟨es, m', hg, -⟩ := fs.child_eq_some hc
      exact ⟨d, hd, hk.resolve_dir hl hb (fun _ _ _ h => h.elim) hd (fs.entryIsDir_of_get hg)⟩
  obtain ⟨es, m, hg⟩ := fs.dir_of_entryIsDir hTd
  obtain ⟨es', hg'⟩ := hk.dir T es m hg
  refine ⟨hb, hk.resolve_dir hl hb (fun _ _ _ h => h.elim) hT hTd, base.entryIsDir_of_get hg', hld,
    hldd, hne, hlf, fun p hp => ?_, fun p hp q hq d hpd hqd hbn => ?_⟩
  · obtain ⟨hne, d, i, c, m, hd, hc, hf⟩ := hP.file p hp
    obtain ⟨d', hd', hbd⟩ := hdir p hp
    obtain rfl : d = d' := Option.some.inj (hd.symm.trans hd')
    refine ⟨hne, d, i, hbd, hk.child d _ i hc id, ?_⟩
    simp [PosixFS.entryIsDir, hk.file i c m hf id]
  · obtain ⟨dp, hp0, hp1⟩ := hdir p hp
    obtain ⟨dq, hq0, hq1⟩ := hdir q hq
    obtain rfl : d = dp := Option.some.inj (hpd.symm.trans hp1)
    obtain rfl : d = dq := Option.some.inj (hqd.symm.trans hq1)
    exact hP.inj p hp q hq d hp0 hq0 hbn

/-- The invariant at the end of the loop, from a `base` that keeps `fs` and adds only new
inodes, is the conclusion for `fs`. -/
theorem MoveInv.movesKept (hs : MoveStart base targetDir logs T ld logName R) {fs fs' : PosixFS}
    {moved : List (Path × Path)} (hi : MoveInv base targetDir ld logName R fs' moved [])
    (hP : MovePaths fs R) (hl : fs.LinkFree) (hk : fs.Keeps base (fun _ _ => False) (fun _ => False))
    (hlen : fs.inodes.length ≤ base.inodes.length) (raised : Option OSError) :
    MovesKept fs targetDir R ⟨fs', moved, raised⟩ := by
  have hfile : ∀ i c m, fs.get? i = some ⟨.file c, m⟩ → fs'.get? i = some ⟨.file c, m⟩ :=
    fun i c m hf => hi.keeps.file i c m (hk.file i c m hf id)
      (not_le.mpr ((fs.lt_of_get?_eq_some hf).trans_le hlen))
  have hbase : ∀ {q : Path} {j : Nat}, q.parts ≠ [] → fs.resolve q = some j →
      base.resolve q = some j := fun hne hq => by
    rw [Path.eq_join_of_ne_nil hne] at hq ⊢
    exact hk.resolve_file hl hs.linkFree (fun _ _ _ h => h.elim) hq fun _ _ h => h
  refine ⟨fun p hp i c m hpi hf => ⟨hi.placed p hp i (hbase (hP.file p hp).1 hpi), hfile i c m hf⟩,
    fun x hx => ⟨hi.movedR x hx, hi.movedTarget x hx⟩, fun p hp q hq he => ?_,
    fun q j c m hq hf hnot => ⟨?_, hfile j c m hf⟩⟩
  · obtain ⟨e, hpe, -⟩ := hi.resolve_place hs p hp
    exact hi.distinct p hp q hq e hpe (he ▸ hpe) (congrArg Path.basename he)
  · -- a file no moved path names is reached as before
    by_cases hq0 : q.parts = []
    · rw [hi.linkFree.resolve_eq, hq0]
      rw [hl.resolve_eq, hq0] at hq
      cases hq
      simp [PosixFS.lookupFrom, PosixFS.start, hi.keeps.root, hi.keeps.cwd, hk.root, hk.cwd]
    have hqb := hbase hq0 hq
    rw [Path.eq_join_of_ne_nil hq0] at hqb ⊢
    refine hi.keeps.resolve_file hs.linkFree hi.linkFree
      (fun _ _ _ hg hc => hs.gone_file hi.movedR hg hc) hqb fun d hd ⟨x, hx, hxd, hxn⟩ => ?_
    have hxR := hi.movedR x hx
    obtain ⟨i, -, -, hxi, -⟩ := hP.resolve_file hl hxR
    have hxb := hbase (hP.file _ hxR).1 hxi
    rw [Path.eq_join_of_ne_nil (hP.file _ hxR).1, hs.linkFree.resolve_join, hxd, Option.some_bind,
      hxn] at hxb
    rw [hs.linkFree.resolve_join, hd, Option.some_bind] at hqb
    exact hnot x.1 hxR (by rw [hxi, Option.some.inj (hxb.symm.trans hqb)])

/-- From such a start, with more existence checks than the entries the run can make, the loop
ends and loses no file of `fs`. -/
theorem MovePaths.loop_movesKept {fs : PosixFS} (hP : MovePaths fs R) (hl : fs.LinkFree)
    (hk : fs.Keeps base (fun _ _ => False) (fun _ => False))
    (hlen : fs.inodes.length ≤ base.inodes.length) (hs : MoveStart base targetDir logs T ld logName R)
    (fileMode fuel : Nat) (errorText : OSError → String) (hfuel : base.entryTotal + 2 * R.length < fuel) :
    ∃ r, R.foldlM (moveDuplicate targetDir (logs.join (.ofName logName)) fileMode fuel errorText)
        (base, []) = some r ∧ MovesKept fs targetDir R ⟨r.1, r.2, none⟩ := by
  obtain ⟨fs', moved, hr, hi⟩ :=
    moveLoop_inv hs fileMode fuel errorText hfuel R base [] hs.inv hP.nodup le_rfl
  exact ⟨(fs', moved), hr, hi.movesKept hs hP hl hk hlen none⟩

end Loop

/-- `os.makedirs(directory/_logs, exist_ok=True)` in the directory `D`: it raises, or leaves
the directory `ld` at `_logs`, made new and empty when it was missing, which is not the
target folder `T` and holds no log named `logName`. -/
theorem makedirs_logs_of_dir {fs : PosixFS} (hl : fs.LinkFree) {directory : Path} {D : Nat}
    (hD : fs.resolve directory = some D) (hDd : fs.entryIsDir D = some true) {T : Nat}
    (hTd : fs.entryIsDir T = some true) (hTl : fs.resolve (directory.join (.ofName "_logs")) ≠ some T)
    (logName : String)
    (hlog : fs.pathExists ((directory.join (.ofName "_logs")).join (.ofName logName)) = false)
    (dirMode : Nat) :
    (∃ e, fs.makedirs (directory.join (.ofName "_logs")) dirMode = .error e) ∨
    ∃ base ld, fs.makedirs (directory.join (.ofName "_logs")) dirMode = .ok base ∧
      base.LinkFree ∧ fs.Keeps base (fun _ _ => False) (fun _ => False) ∧
      fs.inodes.length ≤ base.inodes.length ∧ base.entryTotal ≤ fs.entryTotal + 1 ∧
      base.resolve (directory.join (.ofName "_logs")) = some ld ∧
      base.entryIsDir ld = some true ∧ T ≠ ld ∧ base.child ld logName = none := by
  rcases makedirs_logs hl hD hDd logName hlog dirMode with
    h | ⟨base, ld, hmk, hb, hr, hlen, hcount, hld, hldd, hold, hlf⟩
  · exact .inl h
  refine .inr ⟨base, ld, hmk, hb, hr.keeps.mono (fun _ _ h => List.not_mem_nil _ h) fun _ h => h,
    hlen, hcount, hld, hldd, fun hT => ?_, hlf⟩
  subst hT
  rcases hold with h | h
  · exact hTl h
  · -- a new `_logs` is no directory `fs` had
    obtain ⟨x, hx⟩ := fs.get_of_entryIsDir hTd
    exact (fs.lt_of_get?_eq_some hx).ne h

/-- On a file system without links, when the folder of the logs is not `target_dir` and the
log of the time stamp `ts` does not exist, with more existence checks than the entries the run
can make, the move action of `run_deduplication` ends, returning or raising, and loses no
file: each path it renames names its file at its own name or in `target_dir`, no two at one
place, and every other file is where it was. -/
theorem runDeduplicationMove_keeps_files {md5 : String → String} {fs : PosixFS} (hl : fs.LinkFree)
    {n : Nat} {directory : Path} {out : List Yield}
    (hscan : fs.toScanFS.fastScan n directory = some out) {D : Nat}
    (hD : fs.resolve directory = some D) (hDd : fs.entryIsDir D = some true) (ts : String)
    {targetDir : Path} {T : Nat} (hT : fs.resolve targetDir = some T)
    (hTd : fs.entryIsDir T = some true)
    (hTl : fs.resolve (directory.join (.ofName "_logs")) ≠ some T)
    (hlog : fs.pathExists ((directory.join (.ofName "_logs")).join
      (.ofName ("dedupe" ++ "_" ++ ts ++ ".log"))) = false) (dirMode fileMode : Nat) {fuel : Nat}
    (hfuel : fs.entryTotal +
      2 * (movedPaths (findDuplicates asciiLower [] 0 fs.getsize (chunkedFileHash md5 fs) out)).length + 1 < fuel)
    (errorText : OSError → String) :
    ∃ r, runDeduplicationMove md5 fs out directory ts targetDir dirMode fileMode fuel errorText =
        some r ∧
      MovesKept fs targetDir (movedPaths (findDuplicates asciiLower [] 0 fs.getsize (chunkedFileHash md5 fs) out))
        r := by
  have hP := movePaths_of_scan md5 hl hscan hD
  unfold runDeduplicationMove
  dsimp only
  split_ifs with hE
  · exact ⟨_, rfl, movesKept_nil _ _ _ _⟩
  obtain ⟨e, he⟩ | ⟨base, ld, hmk, hb, hk, hlen, hcount, hld, hldd, hne, hlf⟩ :=
    makedirs_logs_of_dir hl hD hDd hTd hTl _ hlog dirMode
  · exact ⟨_, by simp only [PosixFS.newLogFile, PosixFS.ensureLogsDir, he]; rfl,
      movesKept_nil _ _ _ _⟩
  obtain ⟨r, hr, hkept⟩ := hP.loop_movesKept hl hk hlen (hP.moveStart hl hb hk hT hTd hld hldd hne hlf)
    fileMode fuel errorText (by omega)
  refine ⟨_, ?_, hkept⟩
  simp only [PosixFS.newLogFile, PosixFS.ensureLogsDir, hmk, Except.map, moveDuplicates_eq, hr,
    Option.map_some']

/-- `/` holding two copies `a` and `b` of one file and the empty folder `t`. -/
def moveSampleTree : PosixFS := PosixFS.ofInodes
  [⟨.dir [("a", 1), ("b", 2), ("t", 3)], 0o755⟩, ⟨.file "x", 0o644⟩, ⟨.file "x", 0o644⟩,
    ⟨.dir [], 0o755⟩] 0 0 (by decide)

/-- What `fast_scan("/")` yields on `moveSampleTree`. -/
def moveSampleScan : List Yield :=
  [⟨⟨true, []⟩, [⟨true, ["t"]⟩], [⟨true, ["a"]⟩, ⟨true, ["b"]⟩]⟩, ⟨⟨true, ["t"]⟩, [], []⟩]

theorem runDeduplicationMove_keeps_files_sample :
    ∃ r, runDeduplicationMove id moveSampleTree moveSampleScan ⟨true, []⟩ "T" ⟨true, ["t"]⟩ 0o755
        0o644 10 (fun _ => "") = some r ∧
      MovesKept moveSampleTree ⟨true, ["t"]⟩
        (movedPaths (findDuplicates asciiLower [] 0 moveSampleTree.getsize (chunkedFileHash id moveSampleTree)
          moveSampleScan)) r :=
  runDeduplicationMove_keeps_files (PosixFS.linkFree_of_check _ (by decide))
    (by decide : moveSampleTree.toScanFS.fastScan 3 ⟨true, []⟩ = some moveSampleScan) rfl rfl "T"
    (rfl : moveSampleTree.resolve ⟨true, ["t"]⟩ = some 3) rfl (by decide) rfl 0o755 0o644
    (by decide) _

end SakUtility
