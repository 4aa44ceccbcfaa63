import SakUtility.Posix.Inode
import SakUtility.Scan.Spec
import SakUtility.Dict

/-!
# Path resolution in the inode model

`os.path.realpath` is a left fold over the components, so the real path of an entry is
one step from that of its directory, and `fast_scan` sees a canonically named file
system. Resolution only needs search bits and the nodes, so a file system that keeps
every node and every searchable directory searchable resolves every path that resolved
before to the same inode.
-/

namespace SakUtility

set_option autoImplicit false

namespace PosixFS

variable (fs : PosixFS)

theorem realpath_join_ofName (p : Path) (name : String) :
    fs.realpath (p.join (Path.ofName name)) =
      fs.stepName (fs.expand maxSymlinks) (fs.realpath p) name := by
  simp [realpath, start, List.foldl_append]

theorem resolve_eq_some {p : Path} {ino : Nat} : fs.resolve p = some ino ↔ fs.realpath p = (ino, []) := by
  rcases h : fs.realpath p with ⟨i, _ | ⟨r, rs⟩⟩ <;> simp [resolve, h]

theorem scandir_isSome {p : Path} (h : (fs.scandir p).isSome) :
    ∃ i es m, fs.resolve p = some i ∧ fs.get? i = some ⟨.dir es, m⟩ ∧ canSearch m = true ∧
      fs.scandir p = some (es.map fun e => ⟨e.1, fs.entryIsDir e.2⟩) := by
  unfold scandir at h ⊢
  cases hr : fs.resolve p with
  | none => simp [hr] at h
  | some i =>
    cases hg : fs.get? i with
    | none => simp [hr, hg] at h
    | some x =>
      obtain ⟨node, m⟩ := x
      cases node with
      | dir es =>
        by_cases hm : (canRead m && canSearch m) = true
        · exact ⟨i, es, m, rfl, hg, (Bool.and_eq_true _ _ ▸ hm).2, by simp [hg, hm]⟩
        · simp [hr, hg, hm] at h
      | file c => simp [hr, hg] at h
      | symlink t => simp [hr, hg] at h

theorem mem_scandir {p : Path} {les : List DirEntry} (h : fs.scandir p = some les) {e : DirEntry}
    (he : e ∈ les) : ∃ i es m j, fs.resolve p = some i ∧ fs.get? i = some ⟨.dir es, m⟩ ∧
      canSearch m = true ∧ (e.name, j) ∈ es ∧ e.isDir = fs.entryIsDir j := by
  obtain ⟨i, es, m, hi, hg, hs, hl⟩ := fs.scandir_isSome (by rw [h]; rfl)
  rw [← Option.some.inj (hl.symm.trans h)] at he
  obtain ⟨kv, hkv, rfl⟩ := List.mem_map.mp he
  exact ⟨i, es, m, kv.2, hi, hg, hs, hkv, rfl⟩

theorem entryIsDir_of_get {i : Nat} {es : List (String × Nat)} {m : Nat}
    (hg : fs.get? i = some ⟨.dir es, m⟩) : fs.entryIsDir i = some true := by
  simp [PosixFS.entryIsDir, hg]

theorem dir_of_entryIsDir {j : Nat} (h : fs.entryIsDir j = some true) :
    ∃ es m, fs.get? j = some ⟨.dir es, m⟩ := by
  obtain ⟨⟨node, m⟩, hx, hn⟩ := Option.map_eq_some'.mp h
  cases node with
  | dir es => exact ⟨es, m, hx⟩
  | file c => cases hn
  | symlink t => cases hn

theorem get_of_entryIsDir {j : Nat} {b : Bool} (h : fs.entryIsDir j = some b) :
    ∃ x, fs.get? j = some x := by
  obtain ⟨x, hx, -⟩ := Option.map_eq_some'.mp h
  exact ⟨x, hx⟩

theorem readFile_eq_some {p : Path} {c : String} (h : fs.readFile p = some c) :
    ∃ i m, fs.resolve p = some i ∧ fs.get? i = some ⟨.file c, m⟩ := by
  unfold readFile at h
  cases hr : fs.resolve p with
  | none => simp [hr] at h
  | some i =>
    cases hg : fs.get? i with
    | none => simp [hr, hg] at h
    | some x =>
      obtain ⟨node, m⟩ := x
      cases node with
      | file c' =>
        simp only [hr, hg, Option.ite_none_right_eq_some, Option.some.injEq] at h
        exact ⟨i, m, rfl, h.2 ▸ hg⟩
      | dir es => simp [hr, hg] at h
      | symlink t => simp [hr, hg] at h

theorem stepName_resolved (e : Nat → String → Path → Nat × List String) (cur : Nat) (name : String) :
    fs.stepName e (cur, []) name =
      match fs.child cur name with
      | some ino =>
        match (fs.get? ino).map Inode.node with
        | some (.symlink target) => e cur name target
        | some _ => (ino, [])
        | none => (cur, [name])
      | none => (cur, [name]) := rfl

theorem stepName_unresolved (e : Nat → String → Path → Nat × List String) (cur : Nat) (r : String)
    (rs : List String) (name : String) : fs.stepName e (cur, r :: rs) name = (cur, r :: rs ++ [name]) := rfl

theorem get?_setMode (ino m i : Nat) :
    (fs.setMode ino m).get? i = (fs.get? i).map fun x => if ino = i then { x with mode := m } else x := by
  simp [get?, setMode, List.getElem?_modify]

/-- An inode after a mode change: the inode before it, with the new mode if it is the
one changed. -/
theorem get?_setMode_eq_some {ino m i : Nat} {x' : Inode} (h : (fs.setMode ino m).get? i = some x') :
    ∃ y, fs.get? i = some y ∧ ((ino = i ∧ x' = { y with mode := m }) ∨ (ino ≠ i ∧ x' = y)) := by
  rw [get?_setMode] at h
  obtain ⟨y, hy, hx'⟩ := Option.map_eq_some'.mp h
  by_cases hi : ino = i
  · exact ⟨y, hy, .inl ⟨hi, by simpa [hi] using hx'.symm⟩⟩
  · exact ⟨y, hy, .inr ⟨hi, by simpa [hi] using hx'.symm⟩⟩

theorem canonical : fs.toScanFS.Canonical where
  scandir_eq p q h := by
    simp only [toScanFS, scandir, resolve] at h ⊢
    rw [h]
  child_eq p q _ e h _ _ _ := by
    simp only [toScanFS, DirEntry.path] at h ⊢
    rw [realpath_join_ofName, realpath_join_ofName, h]

theorem foldl_stepName_unresolved (e : Nat → String → Path → Nat × List String) :
    ∀ (parts : List String) (cur : Nat) (r : String) (rs : List String),
      (parts.foldl (fs.stepName e) (cur, r :: rs)).2 ≠ [] := by
  intro parts
  induction parts with
  | nil => intro _ _ _; simp
  | cons name parts ih =>
    intro cur r rs
    rw [List.foldl_cons, stepName_unresolved]
    exact ih cur r (rs ++ [name])

theorem foldl_stepName_resolved (e : Nat → String → Path → Nat × List String) {parts : List String}
    {st : Nat × List String} {d : Nat} (h : parts.foldl (fs.stepName e) st = (d, [])) : st.2 = [] := by
  obtain ⟨cur, _ | ⟨r, rs⟩⟩ := st
  · rfl
  · exact absurd (congrArg Prod.snd h) (fs.foldl_stepName_unresolved e parts cur r rs)

/-- The entry `name` of directory `ino` once it is searchable and lists `name` as a
non-link inode. -/
theorem stepName_of_child {e : Nat → String → Path → Nat × List String} {cur ino : Nat}
    {name : String} (hc : fs.child cur name = some ino) {x : Inode} (hx : fs.get? ino = some x)
    (hl : ∀ t, x.node ≠ .symlink t) : fs.stepName e (cur, []) name = (ino, []) := by
  obtain ⟨node, m⟩ := x
  cases node with
  | symlink t => exact absurd rfl (hl t)
  | file c => simp only [stepName_resolved, hc, hx, Option.map_some']
  | dir es => simp only [stepName_resolved, hc, hx, Option.map_some']

theorem child_of_mem {cur : Nat} {es : List (String × Nat)} {m : Nat}
    (hg : fs.get? cur = some ⟨.dir es, m⟩) (hs : canSearch m = true) {kv : String × Nat}
    (hkv : kv ∈ es) : fs.child cur kv.1 = some kv.2 := by
  simp only [child, hg, hs, if_true]
  exact lookup_of_mem (fs.entries_nodup cur es m hg) hkv

theorem resolve_join_ofName {p : Path} {i : Nat} (hp : fs.resolve p = some i) {es : List (String × Nat)}
    {m : Nat} (hg : fs.get? i = some ⟨.dir es, m⟩) (hs : canSearch m = true) {name : String} {j : Nat}
    (hj : (name, j) ∈ es) {x : Inode} (hx : fs.get? j = some x) (hl : ∀ t, x.node ≠ .symlink t) :
    fs.resolve (p.join (Path.ofName name)) = some j := by
  rw [resolve_eq_some] at hp ⊢
  rw [realpath_join_ofName, hp]
  exact fs.stepName_of_child (fs.child_of_mem hg hs hj) hx hl

/-- A directory a scan reaches is the base or a directory of the table, so `fast_scan` meets
finitely many real paths. -/
theorem realpath_of_reach {base d : Path} (h : fs.toScanFS.Reach base d) :
    fs.realpath d ∈ fs.realpath base :: (List.range fs.inodes.length).map (·, []) := by
  induction h with
  | base => exact List.mem_cons_self _ _
  | child _ hs he hdir _ =>
    obtain ⟨i, es, m, j, hi, hg, hsrch, hj, hd⟩ := fs.mem_scandir hs he
    rw [hdir] at hd
    obtain ⟨es', m', hgj⟩ := fs.dir_of_entryIsDir hd.symm
    have hr := (fs.resolve_eq_some).mp (fs.resolve_join_ofName hi hg hsrch hj hgj fun t h => nomatch h)
    rw [DirEntry.path, hr]
    exact List.mem_cons_of_mem _ (List.mem_map.mpr ⟨j, List.mem_range.mpr (fs.lt_of_get?_eq_some hgj), rfl⟩)

/-- `fast_scan` returns, given enough fuel. -/
theorem exists_fastScan (base : Path) : ∃ n out, fs.toScanFS.fastScan n base = some out :=
  fs.toScanFS.exists_loop_eq_some _ (fun _ h => fs.realpath_of_reach h) _
    (by simpa [ScanFS.StackReach] using ScanFS.Reach.base)

/-! ### Resolution only grows with the search bits -/

/-- `fs'` keeps the nodes of `fs` and every searchable directory of `fs` searchable. -/
structure Grows (fs' : PosixFS) : Prop where
  root : fs'.root = fs.root
  cwd : fs'.cwd = fs.cwd
  node : ∀ i, (fs'.get? i).map Inode.node = (fs.get? i).map Inode.node
  search : ∀ i es m, fs.get? i = some ⟨.dir es, m⟩ → canSearch m = true →
    ∃ m', fs'.get? i = some ⟨.dir es, m'⟩ ∧ canSearch m' = true

variable {fs}

theorem Grows.refl : fs.Grows fs := ⟨rfl, rfl, fun _ => rfl, fun _ _ m h hs => ⟨m, h, hs⟩⟩

theorem Grows.trans {fs' fs'' : PosixFS} (h : fs.Grows fs') (h' : fs'.Grows fs'') : fs.Grows fs'' :=
  ⟨h'.root.trans h.root, h'.cwd.trans h.cwd, fun i => (h'.node i).trans (h.node i),
    fun i es m hg hs => by
      obtain ⟨m', hg', hs'⟩ := h.search i es m hg hs
      exact h'.search i es m' hg' hs'⟩

/-- Setting a mode that keeps a searchable directory searchable. -/
theorem grows_setMode (ino m : Nat)
    (hm : ∀ es m₀, fs.get? ino = some ⟨.dir es, m₀⟩ → canSearch m₀ = true → canSearch m = true) :
    fs.Grows (fs.setMode ino m) := by
  refine ⟨rfl, rfl, fun i => ?_, fun i es m₀ hg hs => ?_⟩
  · rw [get?_setMode]
    cases fs.get? i <;> simp only [Option.map_none', Option.map_some']
    split <;> rfl
  · rw [get?_setMode, hg]
    by_cases hi : ino = i
    · subst hi
      exact ⟨m, by simp, hm es m₀ hg hs⟩
    · exact ⟨m₀, by simp [hi], hs⟩

variable {fs' : PosixFS}

theorem Grows.child (h : fs.Grows fs') {cur ino : Nat} {name : String}
    (hc : fs.child cur name = some ino) : fs'.child cur name = some ino := by
  unfold PosixFS.child at hc ⊢
  split at hc
  · rename_i es m hg
    split_ifs at hc with hs
    obtain ⟨m', hg', hs'⟩ := h.search cur es m hg hs
    simp [hg', hs', hc]
  · cases hc

theorem Grows.stepName (h : fs.Grows fs') {e e' : Nat → String → Path → Nat × List String}
    (he : ∀ c nm t ino, e c nm t = (ino, []) → e' c nm t = (ino, [])) {st : Nat × List String}
    {name : String} {ino : Nat} (hs : fs.stepName e st name = (ino, [])) :
    fs'.stepName e' st name = (ino, []) := by
  obtain ⟨cur, _ | ⟨r, rs⟩⟩ := st
  · rw [stepName_resolved] at hs ⊢
    cases hc : fs.child cur name with
    | none => simp [hc] at hs
    | some j =>
      simp only [hc] at hs
      simp only [h.child hc, h.node j]
      rcases hn : (fs.get? j).map Inode.node with _ | ⟨c | es | t⟩ <;> simp only [hn] at hs ⊢ <;>
        first | exact hs | exact he _ _ _ _ hs
  · simp [stepName_unresolved] at hs

theorem Grows.foldl_stepName (h : fs.Grows fs') {e e' : Nat → String → Path → Nat × List String}
    (he : ∀ c nm t ino, e c nm t = (ino, []) → e' c nm t = (ino, [])) :
    ∀ (parts : List String) (st : Nat × List String) (ino : Nat),
      parts.foldl (fs.stepName e) st = (ino, []) → parts.foldl (fs'.stepName e') st = (ino, []) := by
  intro parts
  induction parts with
  | nil => intro _ _ hs; exact hs
  | cons name parts ih =>
    intro st ino hs
    rw [List.foldl_cons] at hs ⊢
    have hst : fs.stepName e st name = ((fs.stepName e st name).1, []) :=
      Prod.ext rfl (fs.foldl_stepName_resolved e hs)
    rw [h.stepName he hst]
    exact ih _ _ (hst ▸ hs)

theorem Grows.expand (h : fs.Grows fs') :
    ∀ n c nm t ino, fs.expand n c nm t = (ino, []) → fs'.expand n c nm t = (ino, []) := by
  intro n
  induction n with
  | zero => intro _ _ _ _ hs; simp [PosixFS.expand] at hs
  | succ n ih =>
    intro c nm t ino hs
    simp only [PosixFS.expand, h.root] at hs ⊢
    exact h.foldl_stepName (fun c nm t ino => ih c nm t ino) _ _ _ hs

theorem Grows.resolve (h : fs.Grows fs') {p : Path} {ino : Nat} (hr : fs.resolve p = some ino) :
    fs'.resolve p = some ino := by
  rw [resolve_eq_some] at hr ⊢
  have hst : fs'.start p = fs.start p := by simp [start, h.root, h.cwd]
  unfold realpath at hr ⊢
  rw [hst]
  exact h.foldl_stepName (fun c nm t ino => h.expand _ c nm t ino) _ _ _ hr

end PosixFS

end SakUtility
