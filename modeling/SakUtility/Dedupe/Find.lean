import SakUtility.Scan.Spec
import SakUtility.Dict

/-!
# `MainWindow.find_duplicates`

The two dicts of the scan are association lists in insertion order. The size and the
digest of a file are parameters, `none` when `os.path.getsize` or `chunked_file_hash`
raises. The module proves that the accumulator groups the files by digest: each digest
seen at least twice maps to its files in traversal order with the first two swapped.
The digest function itself is not modelled here.
-/

namespace SakUtility

set_option autoImplicit false

/-- `duplicates.setdefault(h, []).append(p)`. -/
def appendAt : List (String × List Path) → String → Path → List (String × List Path)
  | [], h, p => [(h, [p])]
  | (k, v) :: d, h, p => if h = k then (k, v ++ [p]) :: d else (k, v) :: appendAt d h p

/-- The `hashes` and `duplicates` dicts of `find_duplicates`. -/
structure DupState where
  hashes : List (String × Path)
  duplicates : List (String × List Path)
  deriving DecidableEq, Repr

/-- The `if file_hash in hashes:` block for a file that passed the filters. -/
def DupState.record (st : DupState) (h : String) (filepath : Path) : DupState :=
  match st.hashes.lookup h with
  | some first =>
    let d := appendAt st.duplicates h filepath
    { st with duplicates := if first ∈ (d.lookup h).getD [] then d else appendAt d h first }
  | none => { st with hashes := st.hashes ++ [(h, filepath)] }

/-- `file_extensions and not filename.lower().endswith(tuple(file_extensions))`, with
`str.lower` given as `lower`; `None` is the empty list. -/
def skipsExtension (lower : List Char → List Char) (exts : List String) (filename : Path) :
    Bool :=
  !exts.isEmpty && !exts.any fun e => endswith (lower filename.chars) e.toList

/-- `os.path.join(dirpath, os.path.basename(filename)) if not os.path.isabs(filename)
else filename`. -/
def filePath (dirpath filename : Path) : Path :=
  if filename.isabs then filename else dirpath.join (Path.ofName filename.basename)

section Find

variable (lower : List Char → List Char) (exts : List String) (minSize : Int)
  (getsize : Path → Option Nat) (hash : Path → Option String)

/-- The body of `for filename in filenames`. -/
def scanFile (dirpath : Path) (st : DupState) (filename : Path) : DupState :=
  if skipsExtension lower exts filename then st
  else
    let filepath := filePath dirpath filename
    match getsize filepath with
    | none => st
    | some size =>
      if (size : Int) < minSize then st
      else match hash filepath with
        | none => st
        | some h => st.record h filepath

/-- `find_duplicates` over the triples `fast_scan(directory)` yielded. -/
def findDuplicates (out : List Yield) : List (String × List Path) :=
  let st := out.foldl (fun st y => y.files.foldl (scanFile lower exts minSize getsize hash y.root) st)
    ⟨[], []⟩
  st.duplicates.filter fun kv => 1 < kv.2.length

/-- The digest under which the loop counts a file: one that passes the extension filter,
whose size is known and at least `min_size`, and whose digest is known. -/
def countedDigest (f : Path) : Option String :=
  if !skipsExtension lower exts f && (getsize f).any fun size => minSize ≤ (size : Int) then hash f
  else none

/-- The counted files with digest `h`, in traversal order. -/
def digestGroup (files : List Path) (h : String) : List Path :=
  files.filter fun f => countedDigest lower exts minSize getsize hash f = some h

end Find

/-- `[q_b, q_a, q_c, ...]` from `[q_a, q_b, q_c, ...]`. -/
def swapFirstTwo {α : Type} : List α → List α
  | a :: b :: t => b :: a :: t
  | l => l

theorem lookup_appendAt (d : List (String × List Path)) (h : String) (p : Path) (k : String) :
    (appendAt d h p).lookup k = if k = h then some ((d.lookup h).getD [] ++ [p]) else d.lookup k := by
  induction d with
  | nil => by_cases hk : k = h <;> simp [appendAt, lookup_cons_eq, hk]
  | cons kv d ih =>
    obtain ⟨k', v⟩ := kv
    by_cases hh : h = k'
    · subst hh
      by_cases hk : k = h <;> simp [appendAt, lookup_cons_eq, hk]
    · simp only [appendAt, if_neg hh, lookup_cons_eq, ih]
      by_cases hk : k = h
      · simp [hk, hh]
      · simp only [hk, if_false]

theorem keys_appendAt (d : List (String × List Path)) (h : String) (p : Path) :
    (appendAt d h p).map Prod.fst =
      if h ∈ d.map Prod.fst then d.map Prod.fst else d.map Prod.fst ++ [h] := by
  induction d with
  | nil => simp [appendAt]
  | cons kv d ih =>
    obtain ⟨k, v⟩ := kv
    by_cases hh : h = k
    · simp [appendAt, hh]
    · simp only [appendAt, hh, if_false, List.map_cons, ih, List.mem_cons, false_or]
      split <;> rfl

theorem keys_appendAt_nodup {d : List (String × List Path)} (hnd : (d.map Prod.fst).Nodup)
    (h : String) (p : Path) : ((appendAt d h p).map Prod.fst).Nodup := by
  rw [keys_appendAt]
  split
  · exact hnd
  · rename_i hn
    simpa [List.nodup_append, hnd] using hn

/-! ### One recorded file -/

namespace DupState

variable {st : DupState} {h : String} {p : Path}

theorem record_of_none (hn : st.hashes.lookup h = none) :
    st.record h p = { st with hashes := st.hashes ++ [(h, p)] } := by
  simp [record, hn]

theorem record_of_some {a : Path} (hs : st.hashes.lookup h = some a) :
    (st.record h p).hashes = st.hashes ∧ ∀ k, (st.record h p).duplicates.lookup k =
      if k = h then
        some (if a ∈ (st.duplicates.lookup h).getD [] ++ [p] then (st.duplicates.lookup h).getD [] ++ [p]
          else (st.duplicates.lookup h).getD [] ++ [p] ++ [a])
      else st.duplicates.lookup k := by
  have hd := lookup_appendAt st.duplicates h p
  have hdh : (appendAt st.duplicates h p).lookup h =
      some ((st.duplicates.lookup h).getD [] ++ [p]) := by rw [hd, if_pos rfl]
  refine ⟨by simp [record, hs], fun k => ?_⟩
  simp only [record, hs, hdh, Option.getD_some]
  by_cases ha : a ∈ (st.duplicates.lookup h).getD [] ++ [p]
  · simp only [if_pos ha]
    exact hd k
  · simp only [if_neg ha]
    rw [lookup_appendAt, hdh, hd k, Option.getD_some]
    split <;> rfl

theorem record_keys_nodup (hnd : (st.duplicates.map Prod.fst).Nodup) :
    ((st.record h p).duplicates.map Prod.fst).Nodup := by
  unfold record
  split
  · dsimp only
    split
    · exact keys_appendAt_nodup hnd _ _
    · exact keys_appendAt_nodup (keys_appendAt_nodup hnd _ _) _ _
  · exact hnd

end DupState

theorem perm_swapFirstTwo {α : Type} (l : List α) : (swapFirstTwo l).Perm l := by
  match l with
  | a :: b :: t => exact .swap a b t
  | [] => exact .refl _
  | [_] => exact .refl _

theorem length_swapFirstTwo {α : Type} (l : List α) : (swapFirstTwo l).length = l.length :=
  (perm_swapFirstTwo l).length_eq

/-- The group of a digest after one more file: the first file is added unless present. -/
theorem swapFirstTwo_concat {a f : Path} {r : List Path} (hf : a ≠ f) :
    let old := if 2 ≤ (a :: r).length then some (swapFirstTwo (a :: r)) else none
    (if a ∈ old.getD [] ++ [f] then old.getD [] ++ [f] else old.getD [] ++ [f] ++ [a]) =
      swapFirstTwo (a :: r ++ [f]) := by
  cases r with
  | nil => simp [swapFirstTwo, hf]
  | cons b t => simp [swapFirstTwo]

/-! ### The loop groups the counted files by digest -/

section Groups

variable (lower : List Char → List Char) (exts : List String) (minSize : Int)
  (getsize : Path → Option Nat) (hash : Path → Option String)

/-- The loop body on a file whose `filepath` is the file itself. -/
def recordCounted (st : DupState) (f : Path) : DupState :=
  match countedDigest lower exts minSize getsize hash f with
  | none => st
  | some h => st.record h f

/-- The dicts after the files `fs`: `hashes` holds the first counted file of each
digest, and `duplicates` the files of each digest counted twice, first two swapped. -/
structure Tracks (fs : List Path) (st : DupState) : Prop where
  hashes : ∀ h, st.hashes.lookup h = (digestGroup lower exts minSize getsize hash fs h).head?
  duplicates : ∀ h, st.duplicates.lookup h =
    if 2 ≤ (digestGroup lower exts minSize getsize hash fs h).length then
      some (swapFirstTwo (digestGroup lower exts minSize getsize hash fs h))
    else none
  keys_nodup : (st.duplicates.map Prod.fst).Nodup

variable {lower exts minSize getsize hash}

theorem hash_of_countedDigest {f : Path} {h : String}
    (hc : countedDigest lower exts minSize getsize hash f = some h) : hash f = some h := by
  unfold countedDigest at hc
  split_ifs at hc
  exact hc

@[simp] theorem mem_digestGroup {files : List Path} {h : String} {f : Path} :
    f ∈ digestGroup lower exts minSize getsize hash files h ↔
      f ∈ files ∧ countedDigest lower exts minSize getsize hash f = some h := by
  simp [digestGroup]

theorem scanFile_eq {dirpath f : Path} (hf : filePath dirpath f = f) (st : DupState) :
    scanFile lower exts minSize getsize hash dirpath st f = recordCounted lower exts minSize getsize hash st f := by
  unfold scanFile recordCounted countedDigest
  rw [hf]
  cases skipsExtension lower exts f with
  | true => rfl
  | false =>
    cases hg : getsize f with
    | none => simp [hg]
    | some size =>
      by_cases hs : minSize ≤ (size : Int)
      · simp [hg, hs, not_lt.mpr hs]
      · simp [hg, hs, lt_of_not_le hs]

theorem digestGroup_concat (fs : List Path) (f : Path) (k : String) :
    digestGroup lower exts minSize getsize hash (fs ++ [f]) k =
      digestGroup lower exts minSize getsize hash fs k ++
        if countedDigest lower exts minSize getsize hash f = some k then [f] else [] := by
  by_cases hk : countedDigest lower exts minSize getsize hash f = some k <;>
    simp [digestGroup, List.filter_append, List.filter_cons, hk]

theorem tracks_nil : Tracks lower exts minSize getsize hash [] ⟨[], []⟩ :=
  ⟨fun _ => rfl, fun _ => rfl, List.nodup_nil⟩

theorem Tracks.recordCounted {fs : List Path} {st : DupState}
    (ht : Tracks lower exts minSize getsize hash fs st) {f : Path} (hf : f ∉ fs) :
    Tracks lower exts minSize getsize hash (fs ++ [f]) (recordCounted lower exts minSize getsize hash st f) := by
  unfold SakUtility.recordCounted
  split
  case h_1 hn =>
    refine ⟨fun k => ?_, fun k => ?_, ht.keys_nodup⟩
    · rw [ht.hashes k, digestGroup_concat, hn]; simp
    · rw [ht.duplicates k, digestGroup_concat, hn]; simp
  case h_2 h hd =>
    have hg : ∀ k, digestGroup lower exts minSize getsize hash (fs ++ [f]) k =
        if k = h then digestGroup lower exts minSize getsize hash fs h ++ [f]
        else digestGroup lower exts minSize getsize hash fs k := fun k => by
      rw [digestGroup_concat, hd]
      by_cases hk : k = h
      · subst hk; simp
      · simp [hk, Ne.symm hk]
    cases hgh : digestGroup lower exts minSize getsize hash fs h with
    | nil =>
      have hn : st.hashes.lookup h = none := by rw [ht.hashes, hgh]; rfl
      rw [DupState.record_of_none hn]
      refine ⟨fun k => ?_, fun k => ?_, ht.keys_nodup⟩
      · rw [lookup_append, ht.hashes k, hg k, lookup_cons_eq]
        by_cases hk : k = h <;> simp [hk, hgh]
      · rw [ht.duplicates k, hg k]
        by_cases hk : k = h <;> simp [hk, hgh]
    | cons a r =>
      have hs : st.hashes.lookup h = some a := by rw [ht.hashes, hgh]; rfl
      have ha : a ≠ f := fun e => hf (e ▸ (mem_digestGroup.mp
        (hgh ▸ List.mem_cons_self a r : a ∈ digestGroup lower exts minSize getsize hash fs h)).1)
      obtain ⟨hh, hdup⟩ := DupState.record_of_some (p := f) hs
      refine ⟨fun k => ?_, fun k => ?_, DupState.record_keys_nodup ht.keys_nodup⟩
      · rw [hh, ht.hashes k, hg k]
        by_cases hk : k = h <;> simp [hk, hgh]
      · rw [hdup k, hg k]
        by_cases hk : k = h
        · subst hk
          rw [if_pos rfl, if_pos rfl, ht.duplicates, hgh, swapFirstTwo_concat ha]
          simp
        · simp only [hk, if_false, ht.duplicates k]

theorem Tracks.mem_duplicates {fs : List Path} {st : DupState}
    (ht : Tracks lower exts minSize getsize hash fs st) {kv : String × List Path} (hkv : kv ∈ st.duplicates) :
    2 ≤ (digestGroup lower exts minSize getsize hash fs kv.1).length ∧
      kv.2 = swapFirstTwo (digestGroup lower exts minSize getsize hash fs kv.1) := by
  have hkv := (lookup_of_mem ht.keys_nodup hkv).symm.trans (ht.duplicates kv.1)
  split at hkv
  · exact ⟨‹_›, Option.some.inj hkv⟩
  · cases hkv

/-- A path the delete action removes, one of a group's `paths[1:]`, is a counted file of
the group's digest. -/
theorem Tracks.mem_tail {fs : List Path} {st : DupState} (ht : Tracks lower exts minSize getsize hash fs st)
    {kv : String × List Path} (hkv : kv ∈ st.duplicates) {p : Path} (hp : p ∈ kv.2.tail) :
    p ∈ fs ∧ countedDigest lower exts minSize getsize hash p = some kv.1 :=
  mem_digestGroup.mp ((perm_swapFirstTwo _).subset ((ht.mem_duplicates hkv).2 ▸ List.mem_of_mem_tail hp))

/-- Each digest of a counted file keeps one of its files out of every group's `paths[1:]`:
the group's first path. -/
theorem Tracks.exists_kept {fs : List Path} {st : DupState} (ht : Tracks lower exts minSize getsize hash fs st)
    (hnd : fs.Nodup) {f : Path} {h : String} (hf : f ∈ fs)
    (hfh : countedDigest lower exts minSize getsize hash f = some h) :
    ∃ g ∈ fs, countedDigest lower exts minSize getsize hash g = some h ∧
      ∀ kv ∈ st.duplicates, g ∉ kv.2.tail := by
  have hperm := perm_swapFirstTwo (digestGroup lower exts minSize getsize hash fs h)
  obtain ⟨g, rest, hgr⟩ := List.exists_cons_of_ne_nil
    (List.ne_nil_of_mem (hperm.symm.subset (mem_digestGroup.mpr ⟨hf, hfh⟩)))
  have hnd' : (g :: rest).Nodup := hgr ▸ hperm.nodup_iff.mpr (hnd.filter _)
  obtain ⟨hgf, hgh⟩ := mem_digestGroup.mp (hperm.subset (hgr ▸ List.mem_cons_self g rest))
  refine ⟨g, hgf, hgh, fun kv hkv hg => ?_⟩
  have hk : kv.1 = h := Option.some.inj ((ht.mem_tail hkv hg).2.symm.trans hgh)
  rw [(ht.mem_duplicates hkv).2, hk, hgr] at hg
  exact (List.nodup_cons.mp hnd').1 hg

theorem tracks_foldl (fs : List Path) : ∀ (pre : List Path) (st : DupState), (pre ++ fs).Nodup →
    Tracks lower exts minSize getsize hash pre st →
      Tracks lower exts minSize getsize hash (pre ++ fs) (fs.foldl (recordCounted lower exts minSize getsize hash) st) := by
  induction fs with
  | nil => intro pre st _ ht; simpa using ht
  | cons f fs ih =>
    intro pre st hnd ht
    have hf : f ∉ pre := fun h => (List.nodup_append.mp hnd).2.2 h (List.mem_cons_self f fs)
    have hnd' : (pre ++ [f] ++ fs).Nodup := by simpa using hnd
    simpa using ih (pre ++ [f]) _ hnd' (ht.recordCounted hf)

theorem foldl_scanFile {dirpath : Path} {files : List Path}
    (hp : ∀ f ∈ files, filePath dirpath f = f) (st : DupState) :
    files.foldl (scanFile lower exts minSize getsize hash dirpath) st =
      files.foldl (recordCounted lower exts minSize getsize hash) st := by
  induction files generalizing st with
  | nil => rfl
  | cons f files ih =>
    simp only [List.foldl_cons, scanFile_eq (hp f (List.mem_cons_self _ _)),
      ih (fun g hg => hp g (List.mem_cons_of_mem _ hg))]

theorem foldl_scanRoots {out : List Yield} (hp : ∀ y ∈ out, ∀ f ∈ y.files, filePath y.root f = f)
    (st : DupState) :
    out.foldl (fun st y => y.files.foldl (scanFile lower exts minSize getsize hash y.root) st) st =
      (out.flatMap Yield.files).foldl (recordCounted lower exts minSize getsize hash) st := by
  induction out generalizing st with
  | nil => rfl
  | cons y out ih =>
    rw [List.foldl_cons, List.flatMap_cons, List.foldl_append, foldl_scanFile (hp y (List.mem_cons_self _ _)),
      ih (fun y' hy' => hp y' (List.mem_cons_of_mem _ hy'))]

end Groups

/-! ### Over a scan -/

section Scan

variable (lower : List Char → List Char) (exts : List String) (minSize : Int)
  (getsize : Path → Option Nat) (hash : Path → Option String) {Id : Type} [DecidableEq Id]
  (fs : ScanFS Id) {n : Nat} {directory : Path} {out : List Yield}

omit [DecidableEq Id] in
theorem filePath_of_listing (hl : ∀ y ∈ out, ∃ es, fs.scandir y.root = some es ∧ y = yieldOf y.root es) :
    ∀ y ∈ out, ∀ f ∈ y.files, filePath y.root f = f := by
  intro y hy f hf
  obtain ⟨es, -, hes⟩ := hl y hy
  rw [hes] at hf
  obtain ⟨e, -, -, rfl⟩ := mem_filesOf.mp hf
  unfold filePath
  split
  · rfl
  · simp [DirEntry.path, Path.basename]

/-- Over a scan, `find_duplicates` returns the `duplicates` dict of a state that tracks
the listed files: its final filter keeps every group. -/
theorem findDuplicates_tracks (h : fs.fastScan n directory = some out) :
    ∃ st, Tracks lower exts minSize getsize hash (out.flatMap Yield.files) st ∧
      findDuplicates lower exts minSize getsize hash out = st.duplicates := by
  have ht := tracks_foldl (out.flatMap Yield.files) [] ⟨[], []⟩ (by simpa using fs.loop_files_nodup h)
    (tracks_nil : Tracks lower exts minSize getsize hash [] ⟨[], []⟩)
  rw [List.nil_append] at ht
  refine ⟨_, ht, ?_⟩
  unfold findDuplicates
  rw [foldl_scanRoots (filePath_of_listing fs (fs.loop_yield_listing h)),
    List.filter_eq_self.mpr fun kv hkv => decide_eq_true ?_]
  have := (ht.mem_duplicates hkv).1
  rw [(ht.mem_duplicates hkv).2, length_swapFirstTwo]
  omega

/-- `find_duplicates` keys exactly the digests shared by at least two counted files, and
gives each the counted files with that digest in traversal order, the first two swapped. -/
theorem findDuplicates_spec (h : fs.fastScan n directory = some out) (d : String) :
    ((findDuplicates lower exts minSize getsize hash out).map Prod.fst).Nodup ∧
    (findDuplicates lower exts minSize getsize hash out).lookup d =
      if 2 ≤ (digestGroup lower exts minSize getsize hash (out.flatMap Yield.files) d).length then
        some (swapFirstTwo (digestGroup lower exts minSize getsize hash (out.flatMap Yield.files) d))
      else none := by
  obtain ⟨st, ht, heq⟩ := findDuplicates_tracks lower exts minSize getsize hash fs h
  rw [heq]
  exact ⟨ht.keys_nodup, ht.duplicates d⟩

end Scan

/-- `/` holding `a.jpg`, `b.jpg` and the directory `sub` with `c.jpg`. -/
def photosTree : DirGraph Nat where
  root := 0
  cwd := 0
  listing i := if i = 0 then some [⟨"a.jpg", some false⟩, ⟨"b.jpg", some false⟩, ⟨"sub", some true⟩]
    else if i = 1 then some [⟨"c.jpg", some false⟩] else none
  child i n := if i = 0 ∧ n = "sub" then 1 else 2
  listing_nodup i es h := by
    dsimp only at h
    split_ifs at h <;> cases h <;> decide

theorem photos_scan : photosTree.toScanFS.fastScan 3 ⟨true, []⟩ = some
    [⟨⟨true, []⟩, [⟨true, ["sub"]⟩], [⟨true, ["a.jpg"]⟩, ⟨true, ["b.jpg"]⟩]⟩,
     ⟨⟨true, ["sub"]⟩, [], [⟨true, ["sub", "c.jpg"]⟩]⟩] := by
  decide

/-- Three copies of one picture: `b.jpg` leads its group. -/
theorem findDuplicates_spec_photos :
    (findDuplicates asciiLower [] 0 (fun _ => some 1) (fun _ => some "h")
        [⟨⟨true, []⟩, [⟨true, ["sub"]⟩], [⟨true, ["a.jpg"]⟩, ⟨true, ["b.jpg"]⟩]⟩,
         ⟨⟨true, ["sub"]⟩, [], [⟨true, ["sub", "c.jpg"]⟩]⟩]).lookup "h" =
      some [⟨true, ["b.jpg"]⟩, ⟨true, ["a.jpg"]⟩, ⟨true, ["sub", "c.jpg"]⟩] := by
  rw [(findDuplicates_spec asciiLower [] 0 (fun _ => some 1) (fun _ => some "h") photosTree.toScanFS
    photos_scan "h").2]
  decide

end SakUtility
