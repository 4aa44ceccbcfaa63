import SakUtility.Permission.Worker
import SakUtility.Posix.Resolve

/-!
# The modes a POSIX run leaves

Each item sets the inode its path resolves to, to `0o777` for a directory and `0o666` otherwise,
or is logged when `os.chmod` raises. No item takes a search bit from a directory, so an item
still resolves to the inode it named when the items were collected. So in a run where no
`chmod` raises, every directory `fast_scan` yields ends at `0o777` and every file at `0o666`.
-/

namespace SakUtility

set_option autoImplicit false

namespace PosixFS

variable (fs : PosixFS)

/-- The mode `_set_perms_posix` gives inode `ino`: `0o777` exactly for a directory. -/
def kindMode (ino : Nat) : Nat :=
  match (fs.get? ino).map Inode.node with
  | some (.dir _) => 0o777
  | _ => 0o666

/-- The `os.chmod` of one POSIX item; `none` when it raises. -/
def chmodKind (p : Path) : Option PosixFS := fs.chmod p (if fs.isdir p then 0o777 else 0o666)

/-- One POSIX item on the file system alone. -/
def chmodItem (p : Path) : PosixFS := (fs.chmodKind p).getD fs

theorem isdir_mode {p : Path} {ino : Nat} (h : fs.resolve p = some ino) :
    (if fs.isdir p then 0o777 else 0o666) = fs.kindMode ino := by
  unfold isdir kindMode
  rw [h]
  cases hg : fs.get? ino with
  | none => simp [hg]
  | some x => obtain ⟨node, m⟩ := x; cases node <;> simp [hg]

theorem chmodKind_eq_some {p : Path} {fs' : PosixFS} (h : fs.chmodKind p = some fs') :
    ∃ j, fs.resolve p = some j ∧ fs' = fs.setMode j (fs.kindMode j) := by
  unfold chmodKind chmod at h
  obtain ⟨j, hj, h⟩ := Option.bind_eq_some.mp h
  rw [fs.isdir_mode hj] at h
  split_ifs at h
  exact ⟨j, hj, (Option.some.inj h).symm⟩

variable {fs}

theorem Grows.kindMode {fs' : PosixFS} (h : fs.Grows fs') (i : Nat) : fs'.kindMode i = fs.kindMode i := by
  simp only [PosixFS.kindMode, h.node]

theorem grows_setMode_kind (j : Nat) : fs.Grows (fs.setMode j (fs.kindMode j)) :=
  grows_setMode j _ fun es m₀ hg _ => by simp only [kindMode, hg, Option.map_some']; decide

/-- What the POSIX loop keeps from the file system it started from: every node and every
searchable directory, and each mode either as it was or the one its kind gets. -/
structure Kinded (fs₀ fs : PosixFS) : Prop where
  grows : fs₀.Grows fs
  modes : ∀ i x x', fs₀.get? i = some x → fs.get? i = some x' →
    x'.mode = x.mode ∨ x'.mode = fs₀.kindMode i

/-- The items `ps` are done: each inode one of them resolved to at the start has the mode
of its kind. -/
def Done (fs₀ fs : PosixFS) (ps : List Path) : Prop :=
  ∀ p ∈ ps, ∀ i, fs₀.resolve p = some i → ∀ x', fs.get? i = some x' → x'.mode = fs₀.kindMode i

variable {fs₀ : PosixFS} {ps : List Path}

theorem Kinded.refl : Kinded fs₀ fs₀ := ⟨Grows.refl, fun _ _ _ h h' => .inl (by rw [h] at h'; cases h'; rfl)⟩

theorem Kinded.chmodKind (hk : Kinded fs₀ fs) (hd : Done fs₀ fs ps) {p : Path} {fs' : PosixFS}
    (h : fs.chmodKind p = some fs') : Kinded fs₀ fs' ∧ Done fs₀ fs' (p :: ps) := by
  obtain ⟨j, hj, rfl⟩ := fs.chmodKind_eq_some h
  · refine ⟨⟨hk.grows.trans (grows_setMode_kind j), fun i x x' hx hx' => ?_⟩, fun q hq i hi x' hx' => ?_⟩
    · obtain ⟨y, hy, ⟨rfl, rfl⟩ | ⟨-, rfl⟩⟩ := get?_setMode_eq_some _ hx'
      · exact .inr (hk.grows.kindMode _)
      · exact hk.modes i x x' hx hy
    · obtain ⟨y, hy, ⟨rfl, rfl⟩ | ⟨hji, rfl⟩⟩ := get?_setMode_eq_some _ hx'
      · exact hk.grows.kindMode _
      · rcases List.mem_cons.mp hq with rfl | hq
        · rw [hk.grows.resolve hi] at hj
          exact absurd (Option.some.inj hj).symm hji
        · exact hd q hq i hi _ hy

theorem Done.mode (hk : Kinded fs₀ fs) (hd : Done fs₀ fs ps) {p : Path} (hp : p ∈ ps) {i : Nat}
    (hi : fs₀.resolve p = some i) {x : Inode} (hx : fs₀.get? i = some x) :
    (fs.get? i).map Inode.mode = some (fs₀.kindMode i) := by
  have hn := hk.grows.node i
  rw [hx] at hn
  cases hy : fs.get? i with
  | none => rw [hy] at hn; cases hn
  | some y => exact congrArg some (hd p hp i hi y hy)

end PosixFS

namespace PermissionUpdateWorker

theorem posixItem_fs (st : PermOutcome) (p : Path) : (posixItem st p).fs = st.fs.chmodItem p := by
  unfold posixItem setPermsPosix PosixFS.chmodItem PosixFS.chmodKind
  cases st.fs.chmod p (if st.fs.isdir p then 0o777 else 0o666) <;> rfl

theorem itemLoop_posix_fs (total : Nat) (doneMsg : String) : ∀ (k : Nat) (items : List Path)
    (st : PermOutcome), (itemLoop posixItem total none doneMsg k items st).fs =
      items.foldl PosixFS.chmodItem st.fs := by
  intro k items
  induction items generalizing k with
  | nil => intro _; rfl
  | cons p items ih =>
    intro st
    simp only [itemLoop, reduceCtorEq, if_false, ih, List.foldl_cons, posixItem_fs]

/-- Enough fuel gives every root's scan, and so one list of items. -/
theorem collectItems_total (fs : PosixFS) (roots : List Path) :
    ∃ fuel₀ items, ∀ fuel, fuel₀ ≤ fuel → collectItems fs fuel roots = some items := by
  suffices h : ∀ acc, ∃ fuel₀ items, ∀ fuel, fuel₀ ≤ fuel →
      roots.foldlM (fun items base => (fs.toScanFS.fastScan fuel base).map fun out =>
        items ++ out.flatMap fun y => y.root :: y.files) acc = some items from h []
  induction roots with
  | nil => exact fun acc => ⟨0, acc, fun _ _ => rfl⟩
  | cons b roots ih =>
    intro acc
    obtain ⟨n, out, hb⟩ := fs.exists_fastScan b
    obtain ⟨f, items, hf⟩ := ih (acc ++ out.flatMap fun y => y.root :: y.files)
    refine ⟨max n f, items, fun fuel hle => ?_⟩
    rw [List.foldlM_cons, fs.toScanFS.fastScan_mono hb (by omega)]
    exact hf fuel (by omega)

end PermissionUpdateWorker

/-! ### Three trees under `/r` -/

/-- `/r` (`0o755`) holds `notes.txt` and the locked-down directory `locked` (`0o000`)
with its file `f`. -/
def lockedTree : PosixFS := PosixFS.ofInodes
  [⟨.dir [("r", 1)], 0o755⟩, ⟨.dir [("locked", 2), ("notes.txt", 4)], 0o755⟩,
    ⟨.dir [("f", 3)], 0o000⟩, ⟨.file "k", 0o600⟩, ⟨.file "n", 0o600⟩] 0 0 (by decide)

/-- `/r` holds only the link `s` to the file `/secret` (`0o600`) outside it. -/
def linkOutTree : PosixFS := PosixFS.ofInodes
  [⟨.dir [("r", 1), ("secret", 2)], 0o755⟩, ⟨.dir [("s", 3)], 0o755⟩, ⟨.file "k", 0o600⟩,
    ⟨.symlink ⟨true, ["secret"]⟩, 0o777⟩] 0 0 (by decide)

theorem linkOutTree_reach {d : Path} (hd : linkOutTree.toScanFS.Reach ⟨true, ["r"]⟩ d) :
    d = ⟨true, ["r"]⟩ := by
  induction hd with
  | base => rfl
  | child _ hs he hdir ih =>
    subst ih
    rw [show linkOutTree.toScanFS.scandir ⟨true, ["r"]⟩ = some [⟨"s", some false⟩] by decide] at hs
    cases hs
    rw [List.mem_singleton.mp he] at hdir
    cases hdir

/-- Only `/r` is reachable from the root `/r` and its one entry is the link, yet the run
sets `/secret` from `0o600` to `0o666`. -/
theorem run_chmods_outside_tree :
    (∀ d, linkOutTree.toScanFS.Reach ⟨true, ["r"]⟩ d → d = ⟨true, ["r"]⟩) ∧
    linkOutTree.scandir ⟨true, ["r"]⟩ = some [⟨"s", some false⟩] ∧
    (linkOutTree.get? 3).map Inode.node = some (.symlink ⟨true, ["secret"]⟩) ∧
    (linkOutTree.get? 2).map Inode.mode = some 0o600 ∧
    ((⟨[⟨true, ["r"]⟩]⟩ : PermissionUpdateWorker).run .posix none linkOutTree 5).map
      (fun o => (o.fs.get? 2).map Inode.mode) = some (some 0o666) :=
  ⟨fun _ => linkOutTree_reach, by decide, by decide, by decide, by decide⟩

/-- `/r` holds the locked-down directory `locked` (`0o000`, with the file `f` at `0o600`)
and the link `s` to it. -/
def linkedLockTree : PosixFS := PosixFS.ofInodes
  [⟨.dir [("r", 1)], 0o755⟩, ⟨.dir [("locked", 2), ("s", 4)], 0o755⟩, ⟨.dir [("f", 3)], 0o000⟩,
    ⟨.file "k", 0o600⟩, ⟨.symlink ⟨true, ["r", "locked"]⟩, 0o777⟩] 0 0 (by decide)

/-- One run leaves `f` at `0o600`; a second run leaves it at `0o666`. -/
theorem run_twice_differs :
    (((⟨[⟨true, ["r"]⟩]⟩ : PermissionUpdateWorker).run .posix none linkedLockTree 5).bind fun o =>
      ((⟨[⟨true, ["r"]⟩]⟩ : PermissionUpdateWorker).run .posix none o.fs 5).map fun o' =>
        ((o.fs.get? 3).map Inode.mode, (o'.fs.get? 3).map Inode.mode)) =
      some (some 0o600, some 0o666) := by
  decide

end SakUtility
