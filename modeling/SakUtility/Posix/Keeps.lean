import Mathlib.Algebra.Order.BigOperators.Group.List
import Mathlib.Algebra.Order.Ring.Nat
import SakUtility.Posix.Write

/-!
# What the writes keep

On a file system without links whose entries all lead to inodes (`LinkFree`), resolving a path
is a walk through directory entries (`lookupFrom`). `fs.Keeps fs' gone written` says that `fs'`
keeps the root, the working directory, every directory with its mode, every entry but the
`gone` ones and every file but the `written` ones. Each change of `Write` keeps the file system
in that sense, keeps it `LinkFree`, and adds at most one entry (`entryTotal`).
-/

namespace SakUtility

set_option autoImplicit false

/-- The entries of a directory inode; none for another inode. -/
def Inode.entries (x : Inode) : List (String × Nat) :=
  match x.node with
  | .dir es => es
  | _ => []

theorem lookup_filter_ne {es : List (String × Nat)} {n n' : String} (h : n' ≠ n) :
    (es.filter (·.1 != n)).lookup n' = es.lookup n' := by
  induction es with
  | nil => rfl
  | cons e es ih =>
    obtain ⟨k, v⟩ := e
    by_cases hk : k = n
    · subst hk
      simp [lookup_cons_eq, h, ih]
    · rw [List.filter_cons_of_pos (by simpa using hk)]
      simp [lookup_cons_eq, ih]

theorem lookup_filter_self (es : List (String × Nat)) (n : String) :
    (es.filter (·.1 != n)).lookup n = none := by
  induction es with
  | nil => rfl
  | cons e es ih =>
    obtain ⟨k, v⟩ := e
    by_cases hk : k = n
    · simpa [hk] using ih
    · rw [List.filter_cons_of_pos (by simpa using hk)]
      simp [lookup_cons_eq, ih, Ne.symm hk]

namespace PosixFS

variable (fs : PosixFS)

/-- Every directory entry leads to an inode of the table. -/
def EntriesExist : Prop :=
  ∀ d es m, fs.get? d = some ⟨.dir es, m⟩ → ∀ e ∈ es, e.2 < fs.inodes.length

/-- No links, and every entry leads to an inode of the table. -/
structure LinkFree : Prop where
  noLinks : fs.NoLinks
  entriesExist : fs.EntriesExist

/-- The decidable test for `LinkFree`. -/
def linkFreeCheck : Bool :=
  fs.inodes.all fun x => match x.node with
    | .symlink _ => false
    | .dir es => es.all (·.2 < fs.inodes.length)
    | .file _ => true

theorem linkFree_of_check (h : fs.linkFreeCheck = true) : fs.LinkFree := by
  have hx : ∀ {i x}, fs.get? i = some x → _ := fun hx => List.all_eq_true.mp h _ (List.getElem?_mem hx)
  refine ⟨fun i x hi t ht => ?_, fun d es m hd e he => ?_⟩
  · simpa [ht] using hx hi
  · simpa using List.all_eq_true.mp (hx hd) e he

/-- The inode the components `ps` lead to from `cur`, entry by entry. -/
def lookupFrom (cur : Nat) : List String → Option Nat
  | [] => some cur
  | n :: ns => (fs.child cur n).bind fun j => lookupFrom j ns

/-- The number of entries of all directories. -/
def entryTotal : Nat := (fs.inodes.map fun x => x.entries.length).sum

theorem child_eq_some_iff {d j : Nat} {n : String} :
    fs.child d n = some j ↔
      ∃ es m, fs.get? d = some ⟨.dir es, m⟩ ∧ canSearch m = true ∧ (n, j) ∈ es :=
  ⟨fs.child_eq_some, fun ⟨_, _, hg, hs, hj⟩ => fs.child_of_mem hg hs hj⟩

theorem lookupFrom_append (cur : Nat) (ps : List String) (n : String) :
    fs.lookupFrom cur (ps ++ [n]) = (fs.lookupFrom cur ps).bind fun d => fs.child d n := by
  induction ps generalizing cur with
  | nil => simp [lookupFrom]
  | cons m ps ih => simp [lookupFrom, ih, Option.bind_assoc]

theorem entryIsDir_of_lookupFrom {cur d : Nat} {ps : List String} (h : fs.lookupFrom cur ps = some d)
    (hd : fs.entryIsDir d = some true) : fs.entryIsDir cur = some true := by
  cases ps with
  | nil => cases h; exact hd
  | cons n ps =>
    obtain ⟨j, hj, -⟩ := Option.bind_eq_some.mp h
    obtain ⟨es, m, hg, -⟩ := fs.child_eq_some hj
    exact fs.entryIsDir_of_get hg

/-! ### Resolution is a walk through entries -/

variable {fs}

theorem LinkFree.stepName (h : fs.LinkFree) (e : Nat → String → Path → Nat × List String)
    (cur : Nat) (n : String) :
    fs.stepName e (cur, []) n = match fs.child cur n with
      | some j => (j, [])
      | none => (cur, [n]) := by
  cases hc : fs.child cur n with
  | none => simp [stepName_resolved, hc]
  | some j =>
    obtain ⟨es, m, hg, -, hj⟩ := fs.child_eq_some hc
    have hlt : j < fs.inodes.length := h.entriesExist cur es m hg _ hj
    have hx : fs.get? j = some fs.inodes[j] := List.getElem?_eq_getElem hlt
    exact fs.stepName_of_child hc hx (h.noLinks j _ hx)

theorem LinkFree.foldl_stepName (h : fs.LinkFree) (e : Nat → String → Path → Nat × List String) :
    ∀ (ps : List String) (cur j : Nat),
      ps.foldl (fs.stepName e) (cur, []) = (j, []) ↔ fs.lookupFrom cur ps = some j := by
  intro ps
  induction ps with
  | nil => simp [lookupFrom]
  | cons n ps ih =>
    intro cur j
    rw [List.foldl_cons, h.stepName]
    cases hc : fs.child cur n with
    | none =>
      simp only [lookupFrom, hc, Option.none_bind, reduceCtorEq, iff_false]
      exact fun he => fs.foldl_stepName_unresolved e ps cur n [] (congrArg Prod.snd he)
    | some j' => simpa [lookupFrom, hc] using ih j' j

theorem LinkFree.resolve_eq (h : fs.LinkFree) (p : Path) :
    fs.resolve p = fs.lookupFrom (fs.start p) p.parts := by
  apply Option.ext
  intro j
  simp only [Option.mem_def]
  rw [resolve_eq_some, realpath, h.foldl_stepName]

theorem LinkFree.resolve_join (h : fs.LinkFree) (p : Path) (n : String) :
    fs.resolve (p.join (.ofName n)) = (fs.resolve p).bind fun d => fs.child d n := by
  simp only [h.resolve_eq, Path.join_ofName, start, lookupFrom_append]

/-! ### The entries each change leaves -/

variable (fs)

theorem child_push (x : Inode) (hx : x.entriesNodup = true) (hx' : x.entries = []) (d : Nat)
    (n : String) : (fs.push x hx).child d n = fs.child d n := by
  unfold child
  rw [get?_push]
  split_ifs with hd
  · subst hd
    rw [fs.get?_eq_none_of_le le_rfl]
    obtain ⟨node, m⟩ := x
    cases node <;> simp_all [Inode.entries]
  · rfl

theorem child_setEntry_of_ne {d d' ino : Nat} {n n' : String} (h : d ≠ d' ∨ n' ≠ n) :
    (fs.setEntry d n ino).child d' n' = fs.child d' n' := by
  unfold child
  rw [get?_setEntry]
  cases fs.get? d' with
  | none => rfl
  | some x =>
    obtain ⟨node, m⟩ := x
    by_cases hd : d = d'
    · have hn : n' ≠ n := h.resolve_left (not_not.mpr hd)
      cases node <;> simp [hd, Inode.setEntry, lookup_append, lookup_filter_ne hn, lookup_cons_eq, hn]
    · simp [hd]

theorem child_setEntry_self {d ino m : Nat} {n : String} {es : List (String × Nat)}
    (hg : fs.get? d = some ⟨.dir es, m⟩) (hs : canSearch m = true) :
    (fs.setEntry d n ino).child d n = some ino := by
  simp [child, hg, hs, Inode.setEntry, lookup_append, lookup_filter_self, lookup_cons_eq]

theorem child_unlink_of_ne {d d' : Nat} {n n' : String} (h : d ≠ d' ∨ n' ≠ n) :
    (fs.unlink d n).child d' n' = fs.child d' n' := by
  unfold child
  rw [get?_unlink]
  cases fs.get? d' with
  | none => rfl
  | some x =>
    obtain ⟨node, m⟩ := x
    by_cases hd : d = d'
    · have hn : n' ≠ n := h.resolve_left (not_not.mpr hd)
      cases node <;> simp [hd, Inode.dropEntry, lookup_filter_ne hn]
    · simp [hd]

theorem child_unlink_self (d : Nat) (n : String) : (fs.unlink d n).child d n = none := by
  unfold child
  rw [get?_unlink]
  cases fs.get? d with
  | none => rfl
  | some x =>
    obtain ⟨node, m⟩ := x
    cases node <;> simp [Inode.dropEntry, lookup_filter_self]

theorem child_setContent (j : Nat) (f : String → String) (d : Nat) (n : String) :
    (fs.setContent j f).child d n = fs.child d n := by
  unfold child
  rw [get?_setContent]
  cases fs.get? d with
  | none => rfl
  | some x =>
    obtain ⟨node, m⟩ := x
    by_cases hj : j = d
    · cases node <;> simp [hj, Inode.setContent]
    · simp [hj]

/-! ### Keeping a file system -/

/-- `fs'` keeps the root and working directory of `fs`, every directory with its mode, every
entry that is not `gone`, and every file that is not `written`, with its content and mode. -/
structure Keeps (fs' : PosixFS) (gone : Nat → String → Prop) (written : Nat → Prop) : Prop where
  root : fs'.root = fs.root
  cwd : fs'.cwd = fs.cwd
  dir : ∀ d es m, fs.get? d = some ⟨.dir es, m⟩ → ∃ es', fs'.get? d = some ⟨.dir es', m⟩
  child : ∀ d n j, fs.child d n = some j → ¬ gone d n → fs'.child d n = some j
  file : ∀ i c m, fs.get? i = some ⟨.file c, m⟩ → ¬ written i → fs'.get? i = some ⟨.file c, m⟩

variable {gone gone' : Nat → String → Prop} {written written' : Nat → Prop}

theorem keeps_refl : fs.Keeps fs gone written :=
  ⟨rfl, rfl, fun _ es _ h => ⟨es, h⟩, fun _ _ _ h _ => h, fun _ _ _ h _ => h⟩

theorem keeps_push (x : Inode) (hx : x.entriesNodup = true) (hx' : x.entries = []) :
    fs.Keeps (fs.push x hx) gone written where
  root := rfl
  cwd := rfl
  dir d es m hg := ⟨es, by rw [get?_push, if_neg (fs.lt_of_get?_eq_some hg).ne, hg]⟩
  child d n j hc _ := by rw [child_push _ _ _ hx', hc]
  file i c m hg _ := by rw [get?_push, if_neg (fs.lt_of_get?_eq_some hg).ne, hg]

theorem keeps_setEntry {d : Nat} {n : String} (ino : Nat) (hc : fs.child d n = none) :
    fs.Keeps (fs.setEntry d n ino) gone written where
  root := rfl
  cwd := rfl
  dir d' es m hg := by
    rw [get?_setEntry, hg]
    by_cases hd : d = d' <;> simp [hd, Inode.setEntry]
  child d' n' j hj _ := by
    rw [fs.child_setEntry_of_ne (not_and_or.mp fun ⟨hd, hn⟩ => by subst hd hn; simp [hc] at hj), hj]
  file i c m hg _ := by
    rw [get?_setEntry, hg]
    by_cases hd : d = i <;> simp [hd, Inode.setEntry]

theorem keeps_unlink (d : Nat) (n : String) :
    fs.Keeps (fs.unlink d n) (fun d' n' => d' = d ∧ n' = n) written where
  root := rfl
  cwd := rfl
  dir d' es m hg := by
    rw [get?_unlink, hg]
    by_cases hd : d = d' <;> simp [hd, Inode.dropEntry]
  child d' n' j hj hn := by
    rw [fs.child_unlink_of_ne (not_and_or.mp fun ⟨hd, hn'⟩ => hn ⟨hd.symm, hn'⟩), hj]
  file i c m hg _ := by
    rw [get?_unlink, hg]
    by_cases hd : d = i <;> simp [hd, Inode.dropEntry]

theorem keeps_setContent (j : Nat) (f : String → String) :
    fs.Keeps (fs.setContent j f) gone (· = j) where
  root := rfl
  cwd := rfl
  dir d es m hg := by
    rw [get?_setContent, hg]
    by_cases hd : j = d <;> simp [hd, Inode.setContent]
  child d n k hk _ := by rw [child_setContent, hk]
  file i c m hg hi := by simp [get?_setContent, hg, Ne.symm hi]

variable {fs}

theorem Keeps.trans {fs' fs'' : PosixFS} (h : fs.Keeps fs' gone written)
    (h' : fs'.Keeps fs'' gone' written') :
    fs.Keeps fs'' (fun d n => gone d n ∨ gone' d n) (fun i => written i ∨ written' i) where
  root := h'.root.trans h.root
  cwd := h'.cwd.trans h.cwd
  dir d es m hg := let ⟨es', hg'⟩ := h.dir d es m hg; h'.dir d es' m hg'
  child d n j hc hn :=
    h'.child d n j (h.child d n j hc fun hg => hn (.inl hg)) fun hg => hn (.inr hg)
  file i c m hg hw :=
    h'.file i c m (h.file i c m hg fun hw' => hw (.inl hw')) fun hw' => hw (.inr hw')

theorem Keeps.mono {fs' : PosixFS} (h : fs.Keeps fs' gone written) (hg : ∀ d n, gone d n → gone' d n)
    (hw : ∀ i, written i → written' i) : fs.Keeps fs' gone' written' :=
  ⟨h.root, h.cwd, h.dir, fun d n j hc hn => h.child d n j hc (hn ∘ hg d n),
    fun i c m hf hn => h.file i c m hf (hn ∘ hw i)⟩

theorem keeps_create {d : Nat} {n : String} {x : Inode} (hx : x.entriesNodup = true)
    (hx' : x.entries = []) (hc : fs.child d n = none) : fs.Keeps (fs.create d n x hx) gone written :=
  ((fs.keeps_push x hx hx').trans ((fs.push x hx).keeps_setEntry _
    (by rw [child_push _ _ _ hx', hc]))).mono (fun _ _ h => h.elim id id) fun _ h => h.elim id id

/-- Directories reached keep being reached when no entry on the way is gone, which holds when
only entries of files can be gone. -/
theorem Keeps.lookupFrom {fs' : PosixFS} (h : fs.Keeps fs' gone written)
    (hg : ∀ d n j, gone d n → fs.child d n = some j → fs.entryIsDir j ≠ some true) :
    ∀ (ps : List String) (cur d : Nat), fs.lookupFrom cur ps = some d →
      fs.entryIsDir d = some true → fs'.lookupFrom cur ps = some d := by
  intro ps
  induction ps with
  | nil => intro _ _ hl _; exact hl
  | cons n ps ih =>
    intro cur d hl hd
    obtain ⟨j, hj, hl⟩ := Option.bind_eq_some.mp hl
    have hjd := fs.entryIsDir_of_lookupFrom hl hd
    simp only [PosixFS.lookupFrom, h.child cur n j hj fun hgn => hg cur n j hgn hj hjd,
      Option.some_bind, ih j d hl hd]

theorem Keeps.resolve_dir {fs' : PosixFS} (h : fs.Keeps fs' gone written) (hl : fs.LinkFree)
    (hl' : fs'.LinkFree) (hg : ∀ d n j, gone d n → fs.child d n = some j → fs.entryIsDir j ≠ some true)
    {p : Path} {d : Nat} (hp : fs.resolve p = some d) (hd : fs.entryIsDir d = some true) :
    fs'.resolve p = some d := by
  rw [hl.resolve_eq] at hp
  rw [hl'.resolve_eq, show fs'.start p = fs.start p by simp [start, h.root, h.cwd]]
  exact h.lookupFrom hg _ _ _ hp hd

theorem child_create_of_ne {d d' : Nat} {n n' : String} {x : Inode} (hx : x.entriesNodup = true)
    (hx' : x.entries = []) (h : d ≠ d' ∨ n' ≠ n) :
    (fs.create d n x hx).child d' n' = fs.child d' n' := by
  rw [create, child_setEntry_of_ne _ h, child_push _ _ _ hx']

theorem child_create_self {d m : Nat} {n : String} {es : List (String × Nat)} {x : Inode}
    (hx : x.entriesNodup = true) (hg : fs.get? d = some ⟨.dir es, m⟩) (hs : canSearch m = true) :
    (fs.create d n x hx).child d n = some fs.inodes.length := by
  rw [create, child_setEntry_self _ (by rw [get?_push, if_neg (fs.lt_of_get?_eq_some hg).ne, hg]) hs]

/-- A file reached keeps being reached when its entry is not gone and only entries of files
can be gone. -/
theorem Keeps.resolve_file {fs' : PosixFS} (h : fs.Keeps fs' gone written) (hl : fs.LinkFree)
    (hl' : fs'.LinkFree) (hg : ∀ d n j, gone d n → fs.child d n = some j → fs.entryIsDir j ≠ some true)
    {q : Path} {n : String} {i : Nat} (hq : fs.resolve (q.join (.ofName n)) = some i)
    (hn : ∀ d, fs.resolve q = some d → ¬ gone d n) : fs'.resolve (q.join (.ofName n)) = some i := by
  rw [hl.resolve_join] at hq
  obtain ⟨d, hd, hc⟩ := Option.bind_eq_some.mp hq
  obtain ⟨es, m, hg', -⟩ := fs.child_eq_some hc
  rw [hl'.resolve_join, h.resolve_dir hl hl' hg hd (fs.entryIsDir_of_get hg'), Option.some_bind,
    h.child d n i hc (hn d hd)]

theorem child_setEntry_eq_some {d d' ino j : Nat} {n n' : String}
    (h : (fs.setEntry d n ino).child d' n' = some j) :
    (d = d' ∧ n' = n ∧ j = ino) ∨ ((d ≠ d' ∨ n' ≠ n) ∧ fs.child d' n' = some j) := by
  by_cases hdn : d = d' ∧ n' = n
  · obtain ⟨rfl, rfl⟩ := hdn
    refine .inl ⟨rfl, rfl, ?_⟩
    unfold child at h
    rw [get?_setEntry] at h
    cases hg : fs.get? d with
    | none => simp [hg] at h
    | some x =>
      obtain ⟨node, m⟩ := x
      cases node <;> simp [hg, Inode.setEntry, lookup_append, lookup_filter_self, lookup_cons_eq] at h
      exact h.2.symm
  · exact .inr ⟨not_and_or.mp hdn, by rwa [child_setEntry_of_ne _ (not_and_or.mp hdn)] at h⟩

theorem child_unlink_eq_some {d d' j : Nat} {n n' : String}
    (h : (fs.unlink d n).child d' n' = some j) : (d ≠ d' ∨ n' ≠ n) ∧ fs.child d' n' = some j := by
  by_cases hdn : d = d' ∧ n' = n
  · obtain ⟨rfl, rfl⟩ := hdn
    rw [child_unlink_self] at h
    cases h
  · exact ⟨not_and_or.mp hdn, by rwa [child_unlink_of_ne _ (not_and_or.mp hdn)] at h⟩

theorem child_create_eq_some {d d' j : Nat} {n n' : String} {x : Inode}
    {hx : x.entriesNodup = true} (hx' : x.entries = [])
    (h : (fs.create d n x hx).child d' n' = some j) :
    (d = d' ∧ n' = n ∧ j = fs.inodes.length) ∨ fs.child d' n' = some j := by
  rcases (fs.push x hx).child_setEntry_eq_some h with h | ⟨-, h⟩
  · exact .inl h
  · exact .inr (by rwa [child_push _ _ _ hx'] at h)

/-! ### Directories before each change -/

theorem dir_of_push {x : Inode} {hx : x.entriesNodup = true} {k m : Nat} {es : List (String × Nat)}
    (h : (fs.push x hx).get? k = some ⟨.dir es, m⟩) :
    (k = fs.inodes.length ∧ x = ⟨.dir es, m⟩) ∨ fs.get? k = some ⟨.dir es, m⟩ := by
  rw [get?_push] at h
  split_ifs at h with hk
  · exact .inl ⟨hk, Option.some.inj h⟩
  · exact .inr h

theorem dir_of_setEntry {d ino k m : Nat} {n : String} {es : List (String × Nat)}
    (h : (fs.setEntry d n ino).get? k = some ⟨.dir es, m⟩) : ∃ es', fs.get? k = some ⟨.dir es', m⟩ := by
  rw [get?_setEntry] at h
  obtain ⟨⟨node, m'⟩, hx, hy⟩ := Option.map_eq_some'.mp h
  split_ifs at hy <;> cases node <;> simp_all [Inode.setEntry]

theorem dir_of_unlink {d k m : Nat} {n : String} {es : List (String × Nat)}
    (h : (fs.unlink d n).get? k = some ⟨.dir es, m⟩) : ∃ es', fs.get? k = some ⟨.dir es', m⟩ := by
  rw [get?_unlink] at h
  obtain ⟨⟨node, m'⟩, hx, hy⟩ := Option.map_eq_some'.mp h
  split_ifs at hy <;> cases node <;> simp_all [Inode.dropEntry]

theorem dir_of_setContent {j k m : Nat} {f : String → String} {es : List (String × Nat)}
    (h : (fs.setContent j f).get? k = some ⟨.dir es, m⟩) : ∃ es', fs.get? k = some ⟨.dir es', m⟩ := by
  rw [get?_setContent] at h
  obtain ⟨⟨node, m'⟩, hx, hy⟩ := Option.map_eq_some'.mp h
  split_ifs at hy <;> cases node <;> simp_all [Inode.setContent]

/-! ### Well formed after each change -/

theorem LinkFree.push (h : fs.LinkFree) (x : Inode) (hx : x.entriesNodup = true)
    (hl : ∀ t, x.node ≠ .symlink t) (hx' : x.entries = []) : (fs.push x hx).LinkFree where
  noLinks i y hy := by
    rw [get?_push] at hy
    split_ifs at hy
    · cases hy
      exact hl
    · exact h.noLinks i y hy
  entriesExist d es m hg e he := by
    rw [get?_push] at hg
    rw [length_push]
    split_ifs at hg
    · cases hg
      simp [Inode.entries] at hx'
      simp [hx'] at he
    · exact Nat.lt_succ_of_lt (h.entriesExist d es m hg e he)

theorem LinkFree.setEntry (h : fs.LinkFree) (d : Nat) (n : String) {ino : Nat}
    (hi : ino < fs.inodes.length) : (fs.setEntry d n ino).LinkFree where
  noLinks i y hy t := by
    rw [get?_setEntry] at hy
    obtain ⟨⟨node, m⟩, hx, rfl⟩ := Option.map_eq_some'.mp hy
    have := h.noLinks i _ hx t
    split_ifs <;> cases node <;> simp_all [Inode.setEntry]
  entriesExist d' es m hg e he := by
    rw [get?_setEntry] at hg
    obtain ⟨⟨node, m'⟩, hx, hy⟩ := Option.map_eq_some'.mp hg
    rw [length_setEntry]
    split_ifs at hy
    · cases node with
      | dir es' =>
        simp only [Inode.setEntry, Inode.mk.injEq, Node.dir.injEq] at hy
        rw [← hy.1] at he
        rcases List.mem_append.mp he with he | he
        · exact h.entriesExist d' es' m' hx e (List.mem_of_mem_filter he)
        · rw [List.mem_singleton.mp he]
          exact hi
      | file c => simp [Inode.setEntry] at hy
      | symlink t => simp [Inode.setEntry] at hy
    · exact h.entriesExist d' es m (hy ▸ hx) e he

theorem LinkFree.unlink (h : fs.LinkFree) (d : Nat) (n : String) : (fs.unlink d n).LinkFree where
  noLinks i y hy t := by
    rw [get?_unlink] at hy
    obtain ⟨⟨node, m⟩, hx, rfl⟩ := Option.map_eq_some'.mp hy
    have := h.noLinks i _ hx t
    split_ifs <;> cases node <;> simp_all [Inode.dropEntry]
  entriesExist d' es m hg e he := by
    rw [get?_unlink] at hg
    obtain ⟨⟨node, m'⟩, hx, hy⟩ := Option.map_eq_some'.mp hg
    rw [length_unlink]
    split_ifs at hy
    · cases node with
      | dir es' =>
        simp only [Inode.dropEntry, Inode.mk.injEq, Node.dir.injEq] at hy
        rw [← hy.1] at he
        exact h.entriesExist d' es' m' hx e (List.mem_of_mem_filter he)
      | file c => simp [Inode.dropEntry] at hy
      | symlink t => simp [Inode.dropEntry] at hy
    · exact h.entriesExist d' es m (hy ▸ hx) e he

theorem LinkFree.setContent (h : fs.LinkFree) (j : Nat) (f : String → String) :
    (fs.setContent j f).LinkFree where
  noLinks i y hy t := by
    rw [get?_setContent] at hy
    obtain ⟨⟨node, m⟩, hx, rfl⟩ := Option.map_eq_some'.mp hy
    have := h.noLinks i _ hx t
    split_ifs <;> cases node <;> simp_all [Inode.setContent]
  entriesExist d es m hg e he := by
    rw [get?_setContent] at hg
    obtain ⟨⟨node, m'⟩, hx, hy⟩ := Option.map_eq_some'.mp hg
    rw [length_setContent]
    split_ifs at hy
    · cases node with
      | dir es' =>
        simp only [Inode.setContent, Inode.mk.injEq, Node.dir.injEq] at hy
        exact h.entriesExist d es' m' hx e (hy.1 ▸ he)
      | file c => simp [Inode.setContent] at hy
      | symlink t => simp [Inode.setContent] at hy
    · exact h.entriesExist d es m (hy ▸ hx) e he

theorem LinkFree.create (h : fs.LinkFree) (d : Nat) (n : String) {x : Inode}
    (hx : x.entriesNodup = true) (hl : ∀ t, x.node ≠ .symlink t) (hx' : x.entries = []) :
    (fs.create d n x hx).LinkFree :=
  (h.push x hx hl hx').setEntry d n (by simp)

/-- A directory reached is still reached after a new entry is made. -/
theorem LinkFree.resolve_create (h : fs.LinkFree) {d : Nat} {n : String} {x : Inode}
    (hx : x.entriesNodup = true) (hl : ∀ t, x.node ≠ .symlink t) (hx' : x.entries = [])
    (hc : fs.child d n = none) {p : Path} {e : Nat} (hp : fs.resolve p = some e)
    (he : fs.entryIsDir e = some true) : (fs.create d n x hx).resolve p = some e :=
  (keeps_create hx hx' hc : fs.Keeps _ (fun _ _ => False) (fun _ => False)).resolve_dir h
    (h.create d n hx hl hx') (fun _ _ _ h => h.elim) hp he

/-! ### Counting entries -/

theorem sum_modify_le {f : Inode → Inode} {k : Nat}
    (hf : ∀ x, (f x).entries.length ≤ x.entries.length + k) :
    ∀ (d : Nat) (l : List Inode), ((l.modify f d).map fun x => x.entries.length).sum ≤
      (l.map fun x => x.entries.length).sum + k := by
  intro d l
  induction l generalizing d with
  | nil => simp
  | cons x l ih =>
    cases d with
    | zero =>
      have := hf x
      simp only [List.modify_zero_cons, List.map_cons, List.sum_cons]
      omega
    | succ d =>
      have := ih d
      simp only [List.modify_succ_cons, List.map_cons, List.sum_cons]
      omega

variable (fs)

theorem entryTotal_push (x : Inode) (hx : x.entriesNodup = true) :
    (fs.push x hx).entryTotal = fs.entryTotal + x.entries.length := by
  simp [entryTotal, push]

theorem entryTotal_setEntry_le (d : Nat) (n : String) (ino : Nat) :
    (fs.setEntry d n ino).entryTotal ≤ fs.entryTotal + 1 :=
  sum_modify_le (fun x => by
    obtain ⟨node, m⟩ := x
    cases node <;> simp [Inode.setEntry, Inode.entries, List.length_filter_le]) d fs.inodes

theorem entryTotal_unlink_le (d : Nat) (n : String) : (fs.unlink d n).entryTotal ≤ fs.entryTotal :=
  sum_modify_le (k := 0) (fun x => by
    obtain ⟨node, m⟩ := x
    cases node <;> simp [Inode.dropEntry, Inode.entries, List.length_filter_le]) d fs.inodes

theorem entryTotal_setContent (j : Nat) (f : String → String) :
    (fs.setContent j f).entryTotal ≤ fs.entryTotal :=
  sum_modify_le (k := 0) (fun x => by
    obtain ⟨node, m⟩ := x
    cases node <;> simp [Inode.setContent, Inode.entries]) j fs.inodes

theorem entryTotal_create_le (d : Nat) (n : String) {x : Inode} (hx : x.entriesNodup = true)
    (hx' : x.entries = []) : (fs.create d n x hx).entryTotal ≤ fs.entryTotal + 1 := by
  have := (fs.push x hx).entryTotal_setEntry_le d n fs.inodes.length
  rw [entryTotal_push, hx'] at this
  simpa [create] using this

theorem length_entries_le_entryTotal {d : Nat} {x : Inode} (hg : fs.get? d = some x) :
    x.entries.length ≤ fs.entryTotal :=
  List.le_sum_of_mem (List.mem_map_of_mem _ (List.getElem?_mem hg))

/-! ### The calls of the organize run on a well formed file system -/

variable {fs}

theorem lookup_eq_of_child {d : Nat} {j : Option Nat} {n : String} {es : List (String × Nat)} {m : Nat}
    (hg : fs.get? d = some ⟨.dir es, m⟩) (hs : canSearch m = true) (hc : fs.child d n = j) :
    es.lookup n = j := by
  simpa [child, hg, hs] using hc

theorem makeNode_of_child_none {p : Path} {n : String} {d m : Nat} {es : List (String × Nat)}
    {x : Inode} (hx : x.entriesNodup = true) (hn : p.parts.getLast? = some n)
    (hd : fs.resolve p.dirname = some d) (hg : fs.get? d = some ⟨.dir es, m⟩)
    (hs : canSearch m = true) (hw : canWrite m = true) (hc : fs.child d n = none) :
    fs.makeNode p x hx = .ok (fs.create d n x hx) := by
  simp [makeNode, hn, hd, hg, hs, hw, lookup_eq_of_child hg hs hc]

theorem makeNode_of_child_some {p : Path} {n : String} {d j : Nat} {x : Inode}
    (hx : x.entriesNodup = true) (hn : p.parts.getLast? = some n)
    (hd : fs.resolve p.dirname = some d) (hc : fs.child d n = some j) :
    fs.makeNode p x hx = .error .fileExists := by
  obtain ⟨es, m, hg, hs, -⟩ := fs.child_eq_some hc
  simp [makeNode, hn, hd, hg, hs, lookup_eq_of_child hg hs hc]

/-- `os.makedirs` of an entry of an existing folder is one `os.mkdir`. -/
theorem makedirs_join {p : Path} (h : fs.pathExists p = true) (n : String) (mode : Nat) :
    fs.makedirs (p.join (.ofName n)) mode = fs.mkdirExistOk (p.join (.ofName n)) mode := by
  unfold makedirs
  rw [show (p.join (.ofName n)).parts.reverse = n :: p.parts.reverse by simp]
  simp only [makedirsRev, Path.join_ofName, List.reverse_reverse, List.reverse_cons, h,
    Bool.not_true, Bool.and_false, Bool.false_eq_true, if_false]
  rfl

theorem isdir_of_child (hl : fs.LinkFree) {p : Path} {d j : Nat} (hp : fs.resolve p = some d)
    {n : String} (hc : fs.child d n = some j) :
    fs.isdir (p.join (.ofName n)) = (fs.entryIsDir j == some true) := by
  rw [isdir, hl.resolve_join, hp, Option.some_bind, hc]
  obtain ⟨es, m, hg, -, hj⟩ := fs.child_eq_some hc
  obtain ⟨⟨node, m'⟩, hx⟩ : ∃ x, fs.get? j = some x :=
    ⟨_, List.getElem?_eq_getElem (hl.entriesExist d es m hg _ hj)⟩
  cases node <;> simp [hx, entryIsDir]

theorem makedirs_join_of_child_none {p : Path} {d m : Nat}
    {es : List (String × Nat)} (hp : fs.resolve p = some d) (hg : fs.get? d = some ⟨.dir es, m⟩)
    (hs : canSearch m = true) (hw : canWrite m = true) {n : String} (hc : fs.child d n = none)
    (mode : Nat) :
    fs.makedirs (p.join (.ofName n)) mode = .ok (fs.create d n ⟨.dir [], mode⟩ rfl) := by
  rw [makedirs_join (by simp [pathExists, hp]), mkdirExistOk, mkdir,
    makeNode_of_child_none (by rfl) (by simp) (by simpa only [Path.dirname_join_ofName]) hg hs hw hc]

theorem makedirs_join_of_child_some (hl : fs.LinkFree) {p : Path} {d j : Nat}
    (hp : fs.resolve p = some d) {n : String} (hc : fs.child d n = some j) (mode : Nat) :
    fs.makedirs (p.join (.ofName n)) mode =
      if fs.entryIsDir j = some true then .ok fs else .error .fileExists := by
  rw [makedirs_join (by simp [pathExists, hp]), mkdirExistOk, mkdir,
    makeNode_of_child_some (by rfl) (by simp) (by simpa only [Path.dirname_join_ofName]) hc,
    isdir_of_child hl hp hc]
  by_cases h : fs.entryIsDir j = some true <;> simp [h]

theorem makedirs_of_isdir (hl : fs.LinkFree) {p : Path} {d : Nat} (hp : fs.resolve p = some d)
    (hd : fs.entryIsDir d = some true) (mode : Nat) : fs.makedirs p mode = .ok fs := by
  rcases List.eq_nil_or_concat p.parts with hn | ⟨ps, n, hn⟩
  · have hisdir : fs.isdir p = true := by
      obtain ⟨es, m, hg⟩ := fs.dir_of_entryIsDir hd
      simp [isdir, hp, hg]
    simp [makedirs, hn, makedirsRev, mkdirExistOk, mkdir, makeNode,
      show (⟨p.isabs, []⟩ : Path) = p from by rw [← hn], hisdir]
  · have hp' : p = (⟨p.isabs, ps⟩ : Path).join (.ofName n) := by
      cases p
      simp_all
    rw [hp', hl.resolve_join] at hp
    obtain ⟨par, hpar, hc⟩ := Option.bind_eq_some.mp hp
    rw [hp', makedirs_join_of_child_some hl hpar hc, if_pos hd]

theorem rename_of_child {src dst : Path} {s t : String} {ds dd i ms mt : Nat}
    {es et : List (String × Nat)} (hs : src.parts.getLast? = some s)
    (ht : dst.parts.getLast? = some t) (hsrc : fs.resolve src.dirname = some ds)
    (hdst : fs.resolve dst.dirname = some dd) (hgs : fs.get? ds = some ⟨.dir es, ms⟩)
    (hgd : fs.get? dd = some ⟨.dir et, mt⟩) (hms : canSearch ms = true ∧ canWrite ms = true)
    (hmt : canSearch mt = true ∧ canWrite mt = true) (hi : fs.child ds s = some i)
    (hdir : fs.entryIsDir i ≠ some true) (hc : fs.child dd t = none) :
    fs.rename src dst = .ok ((fs.unlink ds s).setEntry dd t i) := by
  simp [rename, hs, ht, hsrc, hdst, hgs, hgd, hms, hmt, lookup_eq_of_child hgs hms.1 hi,
    lookup_eq_of_child hgd hmt.1 hc, hdir]

/-- `os.rename` onto a name that does not exist, when it returns, has moved the entry; the
target's directory was searchable. -/
theorem rename_of_fresh {src dst : Path} {s t : String} {ds dd i : Nat} {fs' : PosixFS}
    (hs : src.parts.getLast? = some s) (ht : dst.parts.getLast? = some t)
    (hsrc : fs.resolve src.dirname = some ds) (hdst : fs.resolve dst.dirname = some dd)
    (hi : fs.child ds s = some i) (hc : fs.child dd t = none) (h : fs.rename src dst = .ok fs') :
    fs' = (fs.unlink ds s).setEntry dd t i ∧
      ∃ et mt, fs.get? dd = some ⟨.dir et, mt⟩ ∧ canSearch mt = true := by
  obtain ⟨es, ms, hgs, hss, -⟩ := fs.child_eq_some hi
  obtain ⟨et, mt, hgd, hst⟩ : ∃ et mt, fs.get? dd = some ⟨.dir et, mt⟩ ∧ canSearch mt = true := by
    cases hgd : fs.get? dd with
    | none => simp [rename, hs, ht, hsrc, hdst, hgs, hgd] at h
    | some y =>
      obtain ⟨node, mt⟩ := y
      cases node with
      | dir et =>
        by_cases hst : canSearch mt = true
        · exact ⟨et, mt, rfl, hst⟩
        · simp [rename, hs, ht, hsrc, hdst, hgs, hgd, hst] at h
      | file c => simp [rename, hs, ht, hsrc, hdst, hgs, hgd] at h
      | symlink q => simp [rename, hs, ht, hsrc, hdst, hgs, hgd] at h
  simp [rename, hs, ht, hsrc, hdst, hgs, hgd, hss, hst, lookup_eq_of_child hgs hss hi,
    lookup_eq_of_child hgd hst hc] at h
  split_ifs at h
  exact ⟨(Except.ok.inj h).symm, et, mt, hgd, hst⟩

theorem makedirs_join_cases (hl : fs.LinkFree) {p : Path} {d : Nat} (hp : fs.resolve p = some d)
    (hd : fs.entryIsDir d = some true) (n : String) (mode : Nat) :
    (∃ e, fs.makedirs (p.join (.ofName n)) mode = .error e) ∨
      (∃ j, fs.child d n = some j ∧ fs.entryIsDir j = some true ∧
        fs.makedirs (p.join (.ofName n)) mode = .ok fs) ∨
      (fs.child d n = none ∧ ∃ es m, fs.get? d = some ⟨.dir es, m⟩ ∧ canSearch m = true ∧
        fs.makedirs (p.join (.ofName n)) mode = .ok (fs.create d n ⟨.dir [], mode⟩ rfl)) := by
  cases hc : fs.child d n with
  | some j =>
    rw [makedirs_join_of_child_some hl hp hc]
    by_cases hj : fs.entryIsDir j = some true
    · exact .inr (.inl ⟨j, rfl, hj, if_pos hj⟩)
    · exact .inl ⟨_, if_neg hj⟩
  | none =>
    obtain ⟨es, m, hg⟩ := fs.dir_of_entryIsDir hd
    by_cases hsw : canSearch m = true ∧ canWrite m = true
    · exact .inr (.inr ⟨rfl, es, m, hg, hsw.1, makedirs_join_of_child_none hp hg hsw.1 hsw.2 hc mode⟩)
    · refine .inl ?_
      have hnd : fs.isdir (p.join (.ofName n)) = false := by
        rw [isdir, hl.resolve_join, hp, Option.some_bind, hc]
      have hp' : fs.resolve ⟨p.isabs, p.parts⟩ = some d := hp
      rw [Path.join_ofName] at hnd
      rw [makedirs_join (by simp [pathExists, hp]), mkdirExistOk, mkdir]
      by_cases hs : canSearch m = true
      · have hw : canWrite m = false := by simpa [hs] using hsw
        simp [makeNode, Path.dirname, hp', hg, hs, hw, lookup_eq_of_child hg hs hc, hnd]
      · simp [makeNode, Path.dirname, hp', hg, hs, hnd]

theorem LinkFree.islink (hl : fs.LinkFree) (p : Path) : fs.islink p = false := by
  unfold PosixFS.islink
  split
  · rename_i t m hx
    obtain ⟨j, -, hj⟩ := Option.bind_eq_some.mp hx
    exact absurd rfl (hl.noLinks j _ hj t)
  · rfl

/-- `shutil.copy2` to a name that does not exist, when it returns, has made there a new file
with the bytes and the mode of the source, in a writable and searchable directory. -/
theorem copy2_fresh (hl : fs.LinkFree) {src q : Path} {t : String} {i dd : Nat}
    (hsrc : fs.resolve src = some i) (hq : fs.resolve q = some dd) (ht : fs.child dd t = none)
    {fileMode : Nat} {fs' : PosixFS} (h : fs.copy2 src (q.join (.ofName t)) fileMode = .ok fs') :
    ∃ c m et mt, fs.get? i = some ⟨.file c, m⟩ ∧ fs.get? dd = some ⟨.dir et, mt⟩ ∧
      canWrite mt = true ∧ canSearch mt = true ∧ fs' = fs.create dd t ⟨.file c, m⟩ rfl := by
  have hnone : fs.resolve (q.join (.ofName t)) = none := by
    rw [hl.resolve_join, hq, Option.some_bind, ht]
  have hr : fs.realpath (q.join (.ofName t)) = (dd, [t]) := by
    rw [realpath_join_ofName, (fs.resolve_eq_some).mp hq, hl.stepName, ht]
  unfold copy2 at h
  simp only [isdir, hnone, Bool.false_eq_true, if_false, hsrc, reduceCtorEq] at h
  split at h
  · rename_i c m hx
    split_ifs at h
    simp only [openWith, hr] at h
    split at h
    · rename_i et mt hd
      by_cases hwt : (canWrite mt && canSearch mt) = true
      swap
      · simp [hwt, Except.bind] at h
      rw [if_pos hwt] at h
      obtain ⟨hw, hs⟩ := Bool.and_eq_true_iff.mp hwt
      have hlt := fs.lt_of_get?_eq_some hd
      have hres : (fs.create dd t ⟨.file c, fileMode⟩ rfl).resolve (q.join (.ofName t)) =
          some fs.inodes.length := by
        rw [(hl.create dd t (x := ⟨.file c, fileMode⟩) rfl (fun t h => nomatch h) rfl).resolve_join,
          hl.resolve_create (x := ⟨.file c, fileMode⟩) rfl (fun t h => nomatch h) rfl ht hq
            (fs.entryIsDir_of_get hd), Option.some_bind, child_create_self (by rfl) hd hs]
      simp only [Except.bind, hres, Except.ok.injEq] at h
      exact ⟨c, m, et, mt, hx, hd, hw, hs, by rw [← h, create_setMode_new _ hlt]⟩
    · simp [Except.bind] at h
  all_goals cases h

/-- `shutil.move` of the entry `n` of the folder `path`, a regular file, to a name of the
directory `dd` that does not exist: the entry renamed there, nothing done, or a copy left there
when removing the source raised; in each case but the first it raises. Removing the source
after a copy cannot succeed where the rename failed, since it needs what the rename needs. -/
theorem move_file_cases (hl : fs.LinkFree) {path q : Path} {n t : String} {pd dd i : Nat}
    (hp : fs.resolve path = some pd) (hc : fs.child pd n = some i) (hi : fs.entryIsDir i ≠ some true)
    (hq : fs.resolve q = some dd) (ht : fs.child dd t = none) (fileMode : Nat) :
    (fs.move (path.join (.ofName n)) (q.join (.ofName t)) fileMode =
        ((fs.unlink pd n).setEntry dd t i, none) ∧
      ∃ et mt, fs.get? dd = some ⟨.dir et, mt⟩ ∧ canSearch mt = true) ∨
    (∃ e, fs.move (path.join (.ofName n)) (q.join (.ofName t)) fileMode = (fs, some e)) ∨
    ∃ e c m, fs.get? i = some ⟨.file c, m⟩ ∧
      fs.move (path.join (.ofName n)) (q.join (.ofName t)) fileMode =
        (fs.create dd t ⟨.file c, m⟩ rfl, some e) := by
  have hnone : fs.resolve (q.join (.ofName t)) = none := by
    rw [hl.resolve_join, hq, Option.some_bind, ht]
  have hsrc : fs.resolve (path.join (.ofName n)) = some i := by
    rw [hl.resolve_join, hp, Option.some_bind, hc]
  have hmove : fs.move (path.join (.ofName n)) (q.join (.ofName t)) fileMode =
      fs.moveTo (path.join (.ofName n)) (q.join (.ofName t)) fileMode := by
    have hnd : fs.isdir (q.join (.ofName t)) = false := by simp only [isdir, hnone]
    simp only [move, hnd, Bool.false_eq_true, if_false]
  rw [hmove, moveTo]
  cases hr : fs.rename (path.join (.ofName n)) (q.join (.ofName t)) with
  | ok fs' =>
    obtain ⟨rfl, hdd⟩ := rename_of_fresh (by simp) (by simp)
      (by rw [Path.dirname_join_ofName]; exact hp) (by rw [Path.dirname_join_ofName]; exact hq) hc ht hr
    exact .inl ⟨rfl, hdd⟩
  | error e =>
    have hnd : fs.isdir (path.join (.ofName n)) = false := by
      rw [isdir_of_child hl hp hc]
      simpa using hi
    simp only [hl.islink, hnd, Bool.false_eq_true, if_false]
    cases hcp : fs.copy2 (path.join (.ofName n)) (q.join (.ofName t)) fileMode with
    | error e' => exact .inr (.inl ⟨e', rfl⟩)
    | ok fs' =>
      obtain ⟨c, m, et, mt, hx, hd, hw, hs, rfl⟩ := copy2_fresh hl hsrc hq ht hcp
      cases hu : (fs.create dd t ⟨.file c, m⟩ rfl).unlinkE (path.join (.ofName n)) with
      | error e' => exact .inr (.inr ⟨e', c, m, hx, by simp only [unlinkAfter, hu]⟩)
      | ok fs'' =>
        -- the source's folder can be written and searched, so the rename would have succeeded
        have hrm : (fs.create dd t ⟨.file c, m⟩ rfl).remove (path.join (.ofName n)) = some fs'' := by
          unfold unlinkE at hu
          split at hu <;> cases hu
          assumption
        obtain ⟨-, d, es', m', -, -, hd', hg', hwm, -⟩ := remove_eq_some _ hrm
        obtain ⟨es, ms, hgs, -⟩ := fs.child_eq_some hc
        rw [Path.dirname_join_ofName, hl.resolve_create (x := ⟨.file c, m⟩) rfl (fun t h => nomatch h)
          rfl ht hp (fs.entryIsDir_of_get hgs)] at hd'
        cases hd'
        obtain ⟨es'', hg''⟩ := dir_of_setEntry hg'
        rcases dir_of_push hg'' with ⟨hlen, -⟩ | hgs'
        · exact absurd hlen (fs.lt_of_get?_eq_some hgs).ne
        rw [hgs] at hgs'
        cases hgs'
        obtain ⟨hwp, hsp⟩ := Bool.and_eq_true_iff.mp hwm
        rw [rename_of_child (by simp) (by simp) (by rw [Path.dirname_join_ofName]; exact hp)
          (by rw [Path.dirname_join_ofName]; exact hq) hgs hd ⟨hsp, hwp⟩ ⟨hs, hw⟩ hc hi ht] at hr
        cases hr

/-- Opening an entry of the directory `ld` for writing writes that file or creates it. -/
theorem openWith_cases (hl : fs.LinkFree) {q : Path} {ld : Nat} (hq : fs.resolve q = some ld)
    (n : String) (f : Option String → String) (fileMode : Nat) {fs' : PosixFS}
    (h : fs.openWith (q.join (.ofName n)) f fileMode = .ok fs') :
    (∃ j g, fs.child ld n = some j ∧ fs' = fs.setContent j g) ∨
      (fs.child ld n = none ∧ (∃ es m, fs.get? ld = some ⟨.dir es, m⟩ ∧ canSearch m = true) ∧
        ∃ c, fs' = fs.create ld n ⟨.file c, fileMode⟩ rfl) := by
  have hr : fs.realpath (q.join (.ofName n)) = match fs.child ld n with
      | some j => (j, [])
      | none => (ld, [n]) := by
    rw [realpath_join_ofName, (fs.resolve_eq_some).mp hq, hl.stepName]
  unfold openWith at h
  rw [hr] at h
  cases hc : fs.child ld n with
  | some j =>
    simp only [hc] at h
    split at h
    · split_ifs at h
      cases h
      exact .inl ⟨j, _, rfl, rfl⟩
    all_goals cases h
  | none =>
    simp only [hc] at h
    split at h
    · rename_i es m hg
      split_ifs at h with hwm
      cases h
      exact .inr ⟨rfl, ⟨es, m, hg, (Bool.and_eq_true_iff.mp hwm).2⟩, _, rfl⟩
    · cases h

/-- `log_line` on an entry of the directory `ld` writes that file, creates it, or changes
nothing. -/
theorem logLine_cases (hl : fs.LinkFree) {q : Path} {ld : Nat} (hq : fs.resolve q = some ld)
    (n text : String) (fileMode : Nat) :
    fs.logLine (q.join (.ofName n)) text fileMode = fs ∨
      (∃ j g, fs.child ld n = some j ∧ fs.logLine (q.join (.ofName n)) text fileMode =
        fs.setContent j g) ∨
      (fs.child ld n = none ∧ (∃ es m, fs.get? ld = some ⟨.dir es, m⟩ ∧ canSearch m = true) ∧
        ∃ c, fs.logLine (q.join (.ofName n)) text fileMode = fs.create ld n ⟨.file c, fileMode⟩ rfl) := by
  unfold logLine
  split
  · rename_i fs' h
    rcases openWith_cases hl hq n _ fileMode h with ⟨j, g, hc, rfl⟩ | ⟨hc, hd, c, rfl⟩
    · exact .inr (.inl ⟨j, g, hc, rfl⟩)
    · exact .inr (.inr ⟨hc, hd, c, rfl⟩)
  · exact .inl rfl

theorem entryTotal_logLine_le (hl : fs.LinkFree) {q : Path} {ld : Nat} (hq : fs.resolve q = some ld)
    (n text : String) (fileMode : Nat) :
    (fs.logLine (q.join (.ofName n)) text fileMode).entryTotal ≤ fs.entryTotal + 1 := by
  rcases logLine_cases hl hq n text fileMode with h | ⟨j, g, -, h⟩ | ⟨-, -, c, h⟩ <;> rw [h]
  · omega
  · exact (fs.entryTotal_setContent j g).trans (Nat.le_succ _)
  · exact fs.entryTotal_create_le ld n (by rfl) (by rfl)

end PosixFS

end SakUtility
