import SakUtility.Posix.Keeps
import SakUtility.Organize.Run

/-!
# The organize run loses no file

On a file system without links, where no directory has two names in the folder and the run's log
does not exist yet, whatever the modes, every run of `organize_directory` ends, and whether it
returns or raises, each regular file of the folder is at one place under it (its own name, or
the destination its `MOVED` line names) with its content and mode; every other file is as it
was. A move that raised may leave a copy at its destination. `LoopInv` is what holds after
each turn of the loop.
-/

namespace SakUtility

set_option autoImplicit false

/-- `q` is strictly below the folder `P`. -/
def Path.Under (q P : Path) : Prop := ∃ r : List String, r ≠ [] ∧ q = ⟨P.isabs, P.parts ++ r⟩

theorem Path.under_join (P : Path) (n : String) : (P.join (.ofName n)).Under P :=
  ⟨[n], List.cons_ne_nil _ _, rfl⟩

theorem Path.Under.join {q P : Path} (h : q.Under P) (n : String) : (q.join (.ofName n)).Under P := by
  obtain ⟨r, _, rfl⟩ := h
  exact ⟨r ++ [n], by simp, by simp⟩

theorem Path.eq_join_of_ne_nil {q : Path} (h : q.parts ≠ []) :
    q = q.dirname.join (.ofName q.basename) := by
  obtain ⟨isabs, parts⟩ := q
  obtain ⟨r', a, rfl⟩ := List.eq_nil_or_concat parts |>.resolve_left h
  simp [Path.dirname, Path.basename]

theorem Path.Under.eq_join {q P : Path} (h : q.Under P) : q = q.dirname.join (.ofName q.basename) := by
  obtain ⟨r, hr, rfl⟩ := h
  exact Path.eq_join_of_ne_nil (by simp [hr])

/-- Where the loop has put the entry `n` of `path`: the destination of its `MOVED` line, or
its own name. -/
def placeOf (path : Path) (moved : List (Path × Path)) (n : String) : Path :=
  (moved.lookup (path.join (.ofName n))).getD (path.join (.ofName n))

theorem placeOf_of_not_mem {path : Path} {moved : List (Path × Path)} {n : String}
    (h : path.join (.ofName n) ∉ moved.map Prod.fst) :
    placeOf path moved n = path.join (.ofName n) := by
  have : moved.lookup (path.join (.ofName n)) = none :=
    List.lookup_eq_none_iff.mpr fun x hx => by
      simpa using fun he : path.join (.ofName n) = x.1 => h (List.mem_map.mpr ⟨x, hx, he.symm⟩)
  rw [placeOf, this]
  rfl

theorem placeOf_append {path : Path} {moved : List (Path × Path)} {n : String} (dst : Path)
    (h : path.join (.ofName n) ∉ moved.map Prod.fst) (m : String) :
    placeOf path (moved ++ [(path.join (.ofName n), dst)]) m =
      if m = n then dst else placeOf path moved m := by
  split_ifs with hm
  · subst hm
    have : moved.lookup (path.join (.ofName m)) = none :=
      List.lookup_eq_none_iff.mpr fun x hx => by
        simpa using fun he : path.join (.ofName m) = x.1 => h (List.mem_map.mpr ⟨x, hx, he.symm⟩)
    rw [placeOf, List.lookup_append, this, Option.none_or, List.lookup_cons_self]
    rfl
  · have hne : path.join (.ofName m) ≠ path.join (.ofName n) :=
      fun he => hm (Path.join_ofName_injective he).2
    have h1 : List.lookup (path.join (.ofName m)) [(path.join (.ofName n), dst)] = none :=
      List.lookup_eq_none_iff.mpr (by simpa using hne)
    rw [placeOf, placeOf, List.lookup_append, h1, Option.or_none]

theorem placeOf_under {path : Path} {moved : List (Path × Path)}
    (hm : ∀ x ∈ moved, x.2.Under path) (n : String) : (placeOf path moved n).Under path := by
  cases h : moved.lookup (path.join (.ofName n)) with
  | none =>
    rw [placeOf, h]
    exact Path.under_join path n
  | some d =>
    obtain ⟨l₁, l₂, hl, -⟩ := List.lookup_eq_some_iff.mp h
    rw [placeOf, h]
    exact hm _ (hl ▸ List.mem_append_right l₁ (List.mem_cons_self _ _))

/-- The collision loop of `organize_directory` in a folder that is the directory `dd` stops at
a name that does not exist, given more checks than `dd` has entries. -/
theorem organizeDestination_free {fs : PosixFS} (hl : fs.LinkFree) {dest : Path} {dd : Nat}
    (hdd : fs.resolve dest = some dd) {x : Inode} (hx : fs.get? dd = some x) {fuel : Nat}
    (hfuel : x.entries.length < fuel) (file : String) :
    ∃ k, organizeDestination fs.pathExists fuel dest file =
        some (dest.join (.ofName (organizeNames file k)), k + 1) ∧
      fs.pathExists (dest.join (.ofName (organizeNames file k))) = false := by
  have hE : ∀ name, fs.pathExists (dest.join (.ofName name)) = true →
      name ∈ (x.entries.map Prod.fst).toFinset := by
    intro name h
    simp only [PosixFS.pathExists, hl.resolve_join, hdd, Option.some_bind,
      Option.isSome_iff_exists] at h
    obtain ⟨j, hj⟩ := h
    obtain ⟨es, m, hg, -, hmem⟩ := fs.child_eq_some hj
    rw [hx] at hg
    cases hg
    simpa [Inode.entries] using ⟨j, hmem⟩
  obtain ⟨k, -, hr, hfree, -⟩ := suffixLoop_join_firstFree fs.pathExists dest _ hE
    (organizeNames_injective file) ((List.toFinset_card_le _).trans_lt (by simpa using hfuel))
  exact ⟨k, hr, hfree⟩

section Loop

variable (base : PosixFS) (path : Path) (pd ld : Nat) (logName : String)

/-- The entry `n` of the folder leads to the regular file `i` when the loop starts. -/
def IsTop (n : String) (i : Nat) : Prop :=
  base.child pd n = some i ∧ ∃ c m, base.get? i = some ⟨.file c, m⟩

/-- The entries of the folder the loop has moved away. -/
def Gone (moved : List (Path × Path)) (d : Nat) (n : String) : Prop :=
  d = pd ∧ path.join (.ofName n) ∈ moved.map Prod.fst

/-- What holds of the file system the loop starts from and stays so: the folder is the
directory `pd`, its `_logs` the directory `ld`; `logName` is the log's name. -/
structure LoopStart : Prop where
  linkFree : base.LinkFree
  folder : base.resolve path = some pd
  folderDir : ∃ es m, base.get? pd = some ⟨.dir es, m⟩
  logs : base.child pd "_logs" = some ld
  logsDir : base.entryIsDir ld = some true
  logName_ne : ∀ n k, (organizeSplit n).2 = "_logs" → organizeNames n k ≠ logName

/-- What holds after each turn of the loop, with the moves logged so far and the names left.
`topAt` is about a file of the folder with one name there. -/
structure LoopInv (fs : PosixFS) (moved : List (Path × Path)) (rest : List String) : Prop where
  linkFree : fs.LinkFree
  grows : base.inodes.length ≤ fs.inodes.length
  keeps : base.Keeps fs (Gone path pd moved) (base.inodes.length ≤ ·)
  pending : ∀ n ∈ rest, path.join (.ofName n) ∉ moved.map Prod.fst
  movedTop : ∀ n, path.join (.ofName n) ∈ moved.map Prod.fst → ∃ i, IsTop base pd n i
  movedAt : ∀ x ∈ moved, ∃ E t, x.2 = (destFolder path E).join (.ofName t)
  logsOne : ∀ a, fs.child pd a = some ld → a = "_logs"
  notSelf : ∀ a, fs.child pd a ≠ some pd
  topAt : ∀ a i n, fs.child pd a = some i → IsTop base pd n i → (∀ n', IsTop base pd n' i → n' = n) →
    path.join (.ofName a) = placeOf path moved n
  distinct : ∀ n₁ n₂ i₁ i₂, IsTop base pd n₁ i₁ → IsTop base pd n₂ i₂ →
    placeOf path moved n₁ = placeOf path moved n₂ → n₁ = n₂
  logFresh : ∀ j, fs.child ld logName = some j → base.inodes.length ≤ j
  placed : ∀ n i, IsTop base pd n i → fs.resolve (placeOf path moved n) = some i

variable {base path pd ld logName}

theorem IsTop.not_dir {n : String} {i : Nat} (h : IsTop base pd n i) : base.entryIsDir i = some false := by
  obtain ⟨-, c, m, hg⟩ := h
  simp [PosixFS.entryIsDir, hg]

theorem LoopInv.tail {fs : PosixFS} {moved : List (Path × Path)} {n : String} {rest : List String}
    (hi : LoopInv base path pd ld logName fs moved (n :: rest)) :
    LoopInv base path pd ld logName fs moved rest :=
  { hi with pending := fun m hm => hi.pending m (List.mem_cons_of_mem n hm) }

theorem LoopInv.start (hs : LoopStart base path pd ld logName)
    (hlogs : ∀ a, base.child pd a = some ld → a = "_logs") (hself : ∀ a, base.child pd a ≠ some pd)
    (hlog : base.child ld logName = none) (rest : List String) :
    LoopInv base path pd ld logName base [] rest where
  linkFree := hs.linkFree
  grows := le_rfl
  keeps := base.keeps_refl
  pending := by simp
  movedTop := by simp
  movedAt := by simp
  logsOne := hlogs
  notSelf := hself
  topAt a i n ha hn hone := by
    obtain ⟨-, hf⟩ := hn
    rw [hone a ⟨ha, hf⟩, placeOf_of_not_mem (by simp)]
  distinct n₁ n₂ _ _ _ _ he := by
    rw [placeOf_of_not_mem (by simp), placeOf_of_not_mem (by simp)] at he
    exact (Path.join_ofName_injective he).2
  logFresh j hj := by simp [hlog] at hj
  placed n i hn := by
    rw [placeOf_of_not_mem (by simp), hs.linkFree.resolve_join, hs.folder, Option.some_bind, hn.1]

section Inv

variable {fs : PosixFS} {moved : List (Path × Path)} {rest : List String}
  (hs : LoopStart base path pd ld logName) (hi : LoopInv base path pd ld logName fs moved rest)
include hs hi

theorem LoopInv.gone_file {d : Nat} {n : String} {j : Nat} (hg : Gone path pd moved d n)
    (hc : base.child d n = some j) : base.entryIsDir j ≠ some true := by
  obtain ⟨rfl, hm⟩ := hg
  obtain ⟨i, hc', hf⟩ := hi.movedTop n hm
  rw [hc] at hc'
  cases hc'
  simp [IsTop.not_dir ⟨hc, hf⟩]

theorem LoopInv.folder : fs.resolve path = some pd := by
  obtain ⟨es, m, hg⟩ := hs.folderDir
  exact hi.keeps.resolve_dir hs.linkFree hi.linkFree (fun _ _ _ hg hc => hi.gone_file hs hg hc)
    hs.folder (base.entryIsDir_of_get hg)

theorem LoopInv.folderDir : ∃ es m, fs.get? pd = some ⟨.dir es, m⟩ := by
  obtain ⟨es, m, hg⟩ := hs.folderDir
  obtain ⟨es', hg'⟩ := hi.keeps.dir pd es m hg
  exact ⟨es', m, hg'⟩

theorem LoopInv.logs : fs.child pd "_logs" = some ld :=
  hi.keeps.child pd "_logs" ld hs.logs fun ⟨_, hm⟩ => by
    obtain ⟨i, hc, hf⟩ := hi.movedTop "_logs" hm
    rw [hs.logs] at hc
    cases hc
    have := IsTop.not_dir ⟨hs.logs, hf⟩
    rw [hs.logsDir] at this
    cases this

theorem LoopInv.logsPath : fs.resolve (path.join (.ofName "_logs")) = some ld := by
  rw [hi.linkFree.resolve_join, hi.folder hs, Option.some_bind, hi.logs hs]

theorem LoopInv.logs_ne : ld ≠ pd := fun h => by
  have hl := hi.logs hs
  rw [h] at hl
  exact hi.notSelf "_logs" hl

theorem LoopInv.logsDir : ∃ es m, fs.get? ld = some ⟨.dir es, m⟩ := by
  obtain ⟨es, m, hg⟩ := base.dir_of_entryIsDir hs.logsDir
  exact hi.keeps.dir ld es m hg |>.imp fun es' h => ⟨m, h⟩

/-- A destination folder that is the folder is the folder's own path: no entry leads back. -/
theorem LoopInv.destFolder_eq {E : String} (h : fs.resolve (destFolder path E) = some pd) :
    destFolder path E = path := by
  unfold destFolder at h ⊢
  split_ifs at h ⊢
  · rfl
  · rw [hi.linkFree.resolve_join, hi.folder hs, Option.some_bind] at h
    exact absurd h (hi.notSelf _)

omit hs in
theorem LoopInv.placeOf_eq (n : String) :
    ∃ E t, placeOf path moved n = (destFolder path E).join (.ofName t) := by
  cases h : moved.lookup (path.join (.ofName n)) with
  | none => exact ⟨"", n, by rw [placeOf, h]; simp [destFolder]⟩
  | some d =>
    obtain ⟨l₁, l₂, hl, -⟩ := List.lookup_eq_some_iff.mp h
    rw [placeOf, h]
    exact hi.movedAt _ (hl ▸ List.mem_append_right l₁ (List.mem_cons_self _ _))

omit hs in
/-- A place keeps its file across a change whose gone entries are entries of files and are not
the last entry of the place. -/
theorem LoopInv.placed_keeps {fs' : PosixFS} {g : Nat → String → Prop} {w : Nat → Prop}
    (hk : fs.Keeps fs' g w) (hl' : fs'.LinkFree)
    (hg : ∀ d n j, g d n → fs.child d n = some j → fs.entryIsDir j ≠ some true)
    {n : String} {i : Nat} (hn : IsTop base pd n i)
    (hlast : ∀ E t d, placeOf path moved n = (destFolder path E).join (.ofName t) →
      fs.resolve (destFolder path E) = some d → ¬ g d t) :
    fs'.resolve (placeOf path moved n) = some i := by
  obtain ⟨E, t, he⟩ := hi.placeOf_eq n
  have hp := hi.placed n i hn
  rw [he] at hp ⊢
  exact hk.resolve_file hi.linkFree hl' hg hp fun d hd => hlast E t d he hd

/-- Making a new empty inode under a name that does not exist keeps the invariant: a new
extension folder, or the copy a failed move leaves. -/
theorem LoopInv.create {dd : Nat} {t : String} {x : Inode} (hx : x.entriesNodup = true)
    (hx' : x.entries = []) (hxl : ∀ t, x.node ≠ .symlink t) (ht : fs.child dd t = none) :
    LoopInv base path pd ld logName (fs.create dd t x hx) moved rest := by
  have hk : fs.Keeps (fs.create dd t x hx) (fun _ _ => False) (fun _ => False) :=
    PosixFS.keeps_create hx hx' ht
  have hl' := hi.linkFree.create dd t hx hxl hx'
  have hold : ∀ {a j}, (fs.create dd t x hx).child pd a = some j →
      fs.child pd a = some j ∨ j = fs.inodes.length := fun ha =>
    (fs.child_create_eq_some hx' ha).elim (fun h => .inr h.2.2) .inl
  have hlen : ∀ {a j}, fs.child pd a = some j → j < fs.inodes.length := fun {a j} hc => by
    obtain ⟨es', m', hg', -, hj⟩ := fs.child_eq_some hc
    exact hi.linkFree.entriesExist pd es' m' hg' _ hj
  have hbase : ∀ {j}, base.inodes.length ≤ j → ∀ {n}, ¬ IsTop base pd n j := fun hj _ ⟨_, _, _, hf⟩ =>
    absurd (base.lt_of_get?_eq_some hf) (not_lt.mpr hj)
  refine
    { hi with
      linkFree := hl'
      grows := by simp [PosixFS.create]; exact Nat.le_succ_of_le hi.grows
      keeps := (hi.keeps.trans hk).mono (fun _ _ h => h.elim id False.elim)
        (fun _ h => h.elim id False.elim)
      logsOne := fun a ha => (hold ha).elim (hi.logsOne a) fun h => ?_
      notSelf := fun a ha => (hold ha).elim (hi.notSelf a) fun h => ?_
      topAt := fun a i n ha hn => (hold ha).elim (fun h => hi.topAt a i n h hn)
        fun h => (hbase (h ▸ hi.grows) hn).elim
      logFresh := fun j hj => ?_
      placed := fun n i hn => hi.placed_keeps hk hl' (fun _ _ _ (h : False) => h.elim) hn
        fun _ _ _ _ _ h => h }
  · obtain ⟨es, m, hg⟩ := hi.logsDir hs
    exact absurd (h ▸ fs.lt_of_get?_eq_some hg) (lt_irrefl _)
  · obtain ⟨es, m, hg⟩ := hi.folderDir hs
    exact absurd (h ▸ fs.lt_of_get?_eq_some hg) (lt_irrefl _)
  · rcases fs.child_create_eq_some hx' hj with ⟨-, -, rfl⟩ | hj
    · exact hi.grows
    · exact hi.logFresh j hj

/-- Renaming the entry `n` of the folder to the free name `t` of the destination folder, the
directory `dd`, keeps the invariant with that move logged. -/
theorem LoopInv.move {n : String} {i : Nat} (hn : n ∈ rest) (htop : IsTop base pd n i)
    (hc : fs.child pd n = some i) {E : String} {dd : Nat} {et : List (String × Nat)} {mt : Nat}
    (hdd : fs.resolve (destFolder path E) = some dd) (hgd : fs.get? dd = some ⟨.dir et, mt⟩)
    (hmt : canSearch mt = true) {t : String} (ht : fs.child dd t = none)
    (hlog : dd = ld → t ≠ logName) {rest' : List String} (hrest : ∀ m ∈ rest', m ∈ rest ∧ m ≠ n) :
    LoopInv base path pd ld logName ((fs.unlink pd n).setEntry dd t i)
      (moved ++ [(path.join (.ofName n), (destFolder path E).join (.ofName t))]) rest' := by
  obtain ⟨c, m₀, hf⟩ := htop.2
  have hfile : fs.get? i = some ⟨.file c, m₀⟩ :=
    hi.keeps.file i c m₀ hf (not_le.mpr (base.lt_of_get?_eq_some hf))
  have hdir : fs.entryIsDir i ≠ some true := by simp [PosixFS.entryIsDir, hfile]
  have hpend := hi.pending n hn
  have htn : pd ≠ dd ∨ t ≠ n := not_and_or.mp fun ⟨h1, h2⟩ => by
    subst h1 h2
    rw [ht] at hc
    cases hc
  have ht' : (fs.unlink pd n).child dd t = none := by rw [fs.child_unlink_of_ne htn, ht]
  have hk : fs.Keeps ((fs.unlink pd n).setEntry dd t i) (fun d' n' => d' = pd ∧ n' = n)
      (fun _ => False) :=
    ((fs.keeps_unlink pd n).trans ((fs.unlink pd n).keeps_setEntry i ht')).mono
      (fun _ _ h => h.elim id False.elim) fun _ h => h.elim id id
  have hl' : ((fs.unlink pd n).setEntry dd t i).LinkFree :=
    (hi.linkFree.unlink pd n).setEntry dd t (by
      obtain ⟨es, m, hg, -, hj⟩ := fs.child_eq_some hc
      simpa using hi.linkFree.entriesExist pd es m hg _ hj)
  have hcases : ∀ {d' a j}, ((fs.unlink pd n).setEntry dd t i).child d' a = some j →
      (dd = d' ∧ a = t ∧ j = i) ∨ ((pd ≠ d' ∨ a ≠ n) ∧ fs.child d' a = some j) := fun h =>
    (PosixFS.child_setEntry_eq_some h).imp id fun h' => PosixFS.child_unlink_eq_some h'.2
  have hgone : ∀ d' n' j, (d' = pd ∧ n' = n) → fs.child d' n' = some j → fs.entryIsDir j ≠ some true :=
    fun _ _ j ⟨h1, h2⟩ hj => by
      subst h1 h2
      rw [hc] at hj
      cases hj
      exact hdir
  have hplace : ∀ {m}, m ≠ n → placeOf path (moved ++ [(path.join (.ofName n),
      (destFolder path E).join (.ofName t))]) m = placeOf path moved m := fun hmn => by
    rw [placeOf_append _ hpend, if_neg hmn]
  have hself : placeOf path moved n = path.join (.ofName n) := placeOf_of_not_mem hpend
  have hnew : placeOf path (moved ++ [(path.join (.ofName n), (destFolder path E).join (.ofName t))])
      n = (destFolder path E).join (.ofName t) := by
    rw [placeOf_append _ hpend, if_pos rfl]
  have hfresh : fs.resolve ((destFolder path E).join (.ofName t)) = none := by
    rw [hi.linkFree.resolve_join, hdd, Option.some_bind, ht]
  refine
    { linkFree := hl'
      grows := by simpa using hi.grows
      keeps := (hi.keeps.trans hk).mono (fun d' n' h => ?_) (fun _ h => h.elim id False.elim)
      pending := fun m hm hmem => ?_
      movedTop := fun m hmem => ?_
      movedAt := fun x hx => ?_
      logsOne := fun a ha => ?_
      notSelf := fun a ha => ?_
      topAt := fun a j m ha hm hone => ?_
      distinct := fun m₁ m₂ j₁ j₂ h₁ h₂ he => ?_
      logFresh := fun j hj => ?_
      placed := fun m j hm => ?_ }
  · -- the entries gone are the moved ones
    rcases h with ⟨h1, h2⟩ | ⟨h1, rfl⟩
    · exact ⟨h1, by rw [List.map_append]; exact List.mem_append_left _ h2⟩
    · exact ⟨h1, by simp⟩
  · -- the names left are not moved
    obtain ⟨hmr, hmn⟩ := hrest m hm
    simp only [List.map_append, List.map_cons, List.map_nil, List.mem_append, List.mem_singleton] at hmem
    exact hmem.elim (hi.pending m hmr) fun he => hmn (Path.join_ofName_injective he).2
  · -- a moved name was a file of the folder
    simp only [List.map_append, List.map_cons, List.map_nil, List.mem_append, List.mem_singleton] at hmem
    rcases hmem with hmem | he
    · exact hi.movedTop m hmem
    · exact ⟨i, (Path.join_ofName_injective he).2 ▸ htop⟩
  · -- the new destination is in a destination folder
    rcases List.mem_append.mp hx with hx | hx
    · exact hi.movedAt x hx
    · exact ⟨E, t, by rw [List.mem_singleton.mp hx]⟩
  · -- `_logs` keeps its one name
    rcases hcases ha with ⟨-, -, rfl⟩ | ⟨-, ha⟩
    · obtain ⟨es, m, hg⟩ := hi.logsDir hs
      rw [hfile] at hg
      cases hg
    · exact hi.logsOne a ha
  · -- no entry leads to the folder
    rcases hcases ha with ⟨-, -, hj⟩ | ⟨-, ha⟩
    · rw [← hj] at hc
      exact hi.notSelf n hc
    · exact hi.notSelf a ha
  · -- a file with one name in the folder is at its place
    by_cases hmn : m = n
    · rw [hmn] at hm hone ⊢
      rw [hnew]
      rcases hcases ha with ⟨hddpd, rfl, -⟩ | ⟨ha1, ha⟩
      · rw [hi.destFolder_eq hs (hddpd ▸ hdd)]
      · have := hi.topAt a j n ha hm hone
        rw [hself] at this
        exact absurd (Path.join_ofName_injective this).2 (ha1.resolve_left fun h => h rfl)
    · rw [hplace hmn]
      rcases hcases ha with ⟨-, -, rfl⟩ | ⟨-, ha⟩
      · exact absurd (hone n htop).symm hmn
      · exact hi.topAt a j m ha hm hone
  · -- the new place is free when the file is moved there
    have hres : ∀ {m j}, IsTop base pd m j → m ≠ n →
        placeOf path moved m ≠ (destFolder path E).join (.ofName t) := fun hm hmn he => by
      have := hi.placed _ _ hm
      rw [he, hfresh] at this
      cases this
    by_cases h1 : m₁ = n <;> by_cases h2 : m₂ = n
    · exact h1.trans h2.symm
    · rw [h1, hnew, hplace h2] at he
      exact absurd he.symm (hres h₂ h2)
    · rw [h2, hnew, hplace h1] at he
      exact absurd he (hres h₁ h1)
    · rw [hplace h1, hplace h2] at he
      exact hi.distinct m₁ m₂ j₁ j₂ h₁ h₂ he
  · -- the file does not take the log's name
    rcases hcases hj with ⟨hdl, hlt, -⟩ | ⟨-, hj⟩
    · exact absurd hlt.symm (hlog hdl)
    · exact hi.logFresh j hj
  · -- the moved file is at its new place, every other one where it was
    by_cases hmn : m = n
    · rw [hmn] at hm ⊢
      rw [hnew, show j = i from Option.some.inj (hm.1.symm.trans htop.1)]
      have hdd2 := hk.resolve_dir hi.linkFree hl' hgone hdd (fs.entryIsDir_of_get hgd)
      have hgd' : ∃ es, (fs.unlink pd n).get? dd = some ⟨.dir es, mt⟩ := by
        rw [PosixFS.get?_unlink, hgd]
        by_cases h : pd = dd <;> simp [Inode.dropEntry, h]
      obtain ⟨es, hgd'⟩ := hgd'
      rw [hl'.resolve_join, hdd2, Option.some_bind, PosixFS.child_setEntry_self _ hgd' hmt]
    · rw [hplace hmn]
      refine hi.placed_keeps hk hl' hgone hm fun E' t' d he hd ⟨hdp, htn'⟩ => hmn ?_
      rw [hdp] at hd
      rw [hi.destFolder_eq hs hd, htn'] at he
      exact hi.distinct m n j i hm htop (he.trans hself.symm)

omit hs in
/-- A change that leaves the folder's entries and the modes of directories as they were, and
writes only files the loop made, keeps the invariant. -/
theorem LoopInv.of_keeps {fs' : PosixFS} {w : Nat → Prop}
    (hk : fs.Keeps fs' (fun _ _ => False) w) (hw : ∀ j, w j → base.inodes.length ≤ j)
    (hl' : fs'.LinkFree) (hlen : fs.inodes.length ≤ fs'.inodes.length)
    (hpd : ∀ {a k}, fs'.child pd a = some k → fs.child pd a = some k)
    (hlog : ∀ {j}, fs'.child ld logName = some j → base.inodes.length ≤ j) :
    LoopInv base path pd ld logName fs' moved rest :=
  { hi with
    linkFree := hl'
    grows := hi.grows.trans hlen
    keeps := (hi.keeps.trans hk).mono (fun _ _ h => h.elim id False.elim) fun _ h => h.elim id (hw _)
    logsOne := fun a ha => hi.logsOne a (hpd ha)
    notSelf := fun a ha => hi.notSelf a (hpd ha)
    topAt := fun a i n ha => hi.topAt a i n (hpd ha)
    logFresh := fun _ hj => hlog hj
    placed := fun _ _ hn => hi.placed_keeps hk hl' (fun _ _ _ h => h.elim) hn fun _ _ _ _ _ h => h }

theorem LoopInv.logLine (text : String) (fileMode : Nat) :
    LoopInv base path pd ld logName
      (fs.logLine ((path.join (.ofName "_logs")).join (.ofName logName)) text fileMode) moved rest := by
  rcases fs.logLine_cases hi.linkFree (hi.logsPath hs) logName text fileMode with
    h | ⟨j, g, hj, h⟩ | ⟨hj, -, c, h⟩ <;> rw [h]
  · exact hi
  · -- the log was there: only its content changes
    exact hi.of_keeps (fs.keeps_setContent j g) (fun _ he => he ▸ hi.logFresh j hj)
      (hi.linkFree.setContent j g) (by simp) (fun ha => by rwa [PosixFS.child_setContent] at ha)
      fun hk => hi.logFresh _ (by rwa [PosixFS.child_setContent] at hk)
  · -- the log is made, a new file in `_logs`
    exact hi.create hs (x := ⟨.file c, fileMode⟩) rfl rfl (fun t h => nomatch h) hj

/-- `os.makedirs(dest_folder, exist_ok=True)` raises, or leaves the directory `dd` at the
destination folder: the folder itself for an empty extension, one of its entries otherwise,
`_logs` only for the extension `_logs`. -/
theorem LoopInv.makedirs_dest {n : String} {i : Nat} (hc : fs.child pd n = some i) (E : String)
    (dirMode : Nat) :
    (∃ e, fs.makedirs (destFolder path E) dirMode = .error e) ∨
      ∃ fs1 dd x, fs.makedirs (destFolder path E) dirMode = .ok fs1 ∧
        LoopInv base path pd ld logName fs1 moved rest ∧
        fs1.resolve (destFolder path E) = some dd ∧ fs1.get? dd = some x ∧ (dd = ld → E = "_logs") ∧
        fs1.entryTotal ≤ fs.entryTotal + 1 ∧ fs1.child pd n = some i := by
  obtain ⟨es, m, hg⟩ := hi.folderDir hs
  by_cases hE : E = ""
  · subst hE
    exact .inr ⟨fs, pd, _, PosixFS.makedirs_of_isdir hi.linkFree (hi.folder hs)
      (fs.entryIsDir_of_get hg) dirMode, hi, hi.folder hs, hg, fun h => absurd h.symm (hi.logs_ne hs),
      Nat.le_succ _, hc⟩
  have hdf : destFolder path E = path.join (.ofName E) := by simp [destFolder, hE]
  rw [hdf]
  rcases PosixFS.makedirs_join_cases hi.linkFree (hi.folder hs) (fs.entryIsDir_of_get hg) E dirMode with
    he | ⟨j, hcE, hj, hmk⟩ | ⟨hcE, es', m', hg', hsrch, hmk⟩
  · exact .inl he
  · -- the extension folder is there
    obtain ⟨et, mt, hgj⟩ := fs.dir_of_entryIsDir hj
    exact .inr ⟨fs, j, _, hmk, hi, by rw [hi.linkFree.resolve_join, hi.folder hs, Option.some_bind, hcE],
      hgj, fun h => hi.logsOne E (h ▸ hcE), Nat.le_succ _, hc⟩
  · -- it is made
    have hi1 := hi.create hs (x := ⟨.dir [], dirMode⟩) rfl rfl (fun t h => nomatch h) hcE
    have hnE : n ≠ E := fun h => by rw [h, hcE] at hc; cases hc
    have hlt := fs.lt_of_get?_eq_some hg
    refine .inr ⟨_, fs.inodes.length, ⟨.dir [], dirMode⟩, hmk, hi1, ?_, by simp [PosixFS.create, hlt.ne],
      fun h => ?_, fs.entryTotal_create_le pd E (by rfl) (by rfl),
      by rw [PosixFS.child_create_of_ne (by rfl) (by rfl) (.inr hnE), hc]⟩
    · rw [hi1.linkFree.resolve_join, hi1.folder hs, Option.some_bind,
        PosixFS.child_create_self (by rfl) hg' hsrch]
    · obtain ⟨es'', m'', hgl⟩ := hi.logsDir hs
      exact absurd (h ▸ fs.lt_of_get?_eq_some hgl) (lt_irrefl _)

end Inv

/-- One turn of the loop, on an entry `n` of the folder: it raises with the invariant, or goes
on to the other names with the invariant and at most three entries more. -/
theorem LoopInv.step (hs : LoopStart base path pd ld logName) (dirMode fileMode fuel : Nat)
    (errorText : OSError → String) {fs : PosixFS} {moved : List (Path × Path)} {n : String}
    {rest : List String} (hi : LoopInv base path pd ld logName fs moved (n :: rest)) (hnr : n ∉ rest)
    {i : Nat} (hbi : base.child pd n = some i) (hfuel : fs.entryTotal + 1 < fuel) :
    (∃ r, organizeLoop path ((path.join (.ofName "_logs")).join (.ofName logName)) dirMode
        fileMode fuel errorText (n :: rest) fs moved = some r ∧
      LoopInv base path pd ld logName r.fs r.moved (n :: rest)) ∨
    ∃ fs' moved', organizeLoop path ((path.join (.ofName "_logs")).join (.ofName logName)) dirMode
        fileMode fuel errorText (n :: rest) fs moved =
      organizeLoop path ((path.join (.ofName "_logs")).join (.ofName logName)) dirMode
        fileMode fuel errorText rest fs' moved' ∧
      LoopInv base path pd ld logName fs' moved' rest ∧ fs'.entryTotal ≤ fs.entryTotal + 3 := by
  have hc : fs.child pd n = some i :=
    hi.keeps.child pd n i hbi fun ⟨_, hm⟩ => hi.pending n (List.mem_cons_self _ _) hm
  have hisdir := PosixFS.isdir_of_child hi.linkFree (hi.folder hs) hc
  by_cases hd : fs.entryIsDir i = some true
  · -- a directory is skipped
    exact .inr ⟨fs, moved, by simp only [organizeLoop, hisdir, hd, beq_self_eq_true, if_true],
      hi.tail, by omega⟩
  -- the entry leads to a regular file of the folder
  have htop : IsTop base pd n i := by
    obtain ⟨es, m, hg, -, hj⟩ := base.child_eq_some hbi
    obtain ⟨⟨node, m'⟩, hy⟩ : ∃ y, base.get? i = some y :=
      ⟨_, List.getElem?_eq_getElem (hs.linkFree.entriesExist pd es m hg _ hj)⟩
    cases node with
    | file c => exact ⟨hbi, c, m', hy⟩
    | dir es' =>
      obtain ⟨es'', hy'⟩ := hi.keeps.dir i es' m' hy
      exact absurd (fs.entryIsDir_of_get hy') hd
    | symlink t => exact absurd rfl (hs.linkFree.noLinks i _ hy t)
  have hnotdir : fs.isdir (path.join (.ofName n)) = false := by
    rw [hisdir]
    simpa using hd
  rcases hi.makedirs_dest hs hc (organizeSplit n).2 dirMode with
    ⟨e, hmk⟩ | ⟨fs1, dd, x, hmk, hi1, hdd, hgd, hlogE, hcount1, hc1⟩
  · -- `os.makedirs` raises
    exact .inl ⟨_, by simp only [organizeLoop, hnotdir, hmk]; rfl, hi⟩
  -- the file goes to the first free name of the destination folder
  obtain ⟨k, horg, hfree⟩ := organizeDestination_free hi1.linkFree hdd hgd
    (show x.entries.length < fuel by
      have : x.entries.length ≤ fs1.entryTotal := fs1.length_entries_le_entryTotal hgd
      omega) n
  have ht : fs1.child dd (organizeNames n k) = none := by
    rw [PosixFS.pathExists, hi1.linkFree.resolve_join, hdd, Option.some_bind] at hfree
    exact Option.not_isSome_iff_eq_none.mp (by simp [hfree])
  have hfile1 : fs1.entryIsDir i ≠ some true := by
    obtain ⟨-, c, m₀, hf⟩ := htop
    simp [PosixFS.entryIsDir, hi1.keeps.file i c m₀ hf (not_le.mpr (base.lt_of_get?_eq_some hf))]
  rcases PosixFS.move_file_cases hi1.linkFree (hi1.folder hs) hc1 hfile1 hdd ht fileMode with
    ⟨hmove, et, mt, hgd', hmt⟩ | ⟨e, hmove⟩ | ⟨e, c, m, -, hmove⟩
  · -- renamed: the move is logged
    have hi2 := hi1.move hs (List.mem_cons_self _ _) htop hc1 hdd hgd' hmt ht
      (fun hl => hs.logName_ne n k (hlogE hl))
      (show ∀ m ∈ rest, m ∈ n :: rest ∧ m ≠ n from
        fun m hm => ⟨List.mem_cons_of_mem _ hm, fun h => hnr (h ▸ hm)⟩)
    have h1 := PosixFS.entryTotal_logLine_le hi2.linkFree (hi2.logsPath hs) logName
      (movedLine (path.join (.ofName n))
        ((destFolder path (organizeSplit n).2).join (.ofName (organizeNames n k)))) fileMode
    have h2 := (fs1.unlink pd n).entryTotal_setEntry_le dd (organizeNames n k) i
    have h3 := fs1.entryTotal_unlink_le pd n
    exact .inr ⟨_, _, by simp only [organizeLoop, hnotdir, hmk, horg, hmove, Bool.false_eq_true,
      if_false], hi2.logLine hs (movedLine (path.join (.ofName n))
        ((destFolder path (organizeSplit n).2).join (.ofName (organizeNames n k)))) fileMode, by omega⟩
  · -- nothing done: the error is logged
    have h1 := PosixFS.entryTotal_logLine_le hi1.linkFree (hi1.logsPath hs) logName
      (errorLine errorText (path.join (.ofName n)) e) fileMode
    exact .inr ⟨_, _, by simp only [organizeLoop, hnotdir, hmk, horg, hmove, Bool.false_eq_true,
      if_false], hi1.tail.logLine hs (errorLine errorText (path.join (.ofName n)) e) fileMode,
      by omega⟩
  · -- a copy is left: the error is logged
    have hi2 := (hi1.create hs (x := ⟨.file c, m⟩) rfl rfl (fun t h => nomatch h) ht).tail
    have h1 := PosixFS.entryTotal_logLine_le hi2.linkFree (hi2.logsPath hs) logName
      (errorLine errorText (path.join (.ofName n)) e) fileMode
    have h2 := fs1.entryTotal_create_le dd (organizeNames n k) (x := ⟨.file c, m⟩) rfl rfl
    exact .inr ⟨_, _, by simp only [organizeLoop, hnotdir, hmk, horg, hmove, Bool.false_eq_true,
      if_false], hi2.logLine hs (errorLine errorText (path.join (.ofName n)) e) fileMode, by omega⟩

end Loop

/-- The entry `n` of the folder `path` leads to the regular file `i`, which holds `c` with mode
`m`. -/
def TopFile (fs0 : PosixFS) (path : Path) (n : String) (i : Nat) (c : String) (m : Nat) : Prop :=
  fs0.resolve (path.join (.ofName n)) = some i ∧ fs0.get? i = some ⟨.file c, m⟩

/-- What a run `r` from `fs0` leaves of the regular files, for the folder `path`: each file of
the folder is at its place under `path` with its content and mode, and once moved no longer at
its own name when that was its one name in the folder; no two names share a place; every other
regular file is reached as before and is as it was. -/
structure FilesKept (fs0 : PosixFS) (path : Path) (r : OrganizeRun) : Prop where
  placed : ∀ n i c m, TopFile fs0 path n i c m →
    r.fs.resolve (placeOf path r.moved n) = some i ∧ r.fs.get? i = some ⟨.file c, m⟩ ∧
      (placeOf path r.moved n).Under path
  movedAway : ∀ n i c m, TopFile fs0 path n i c m →
    (∀ n', fs0.resolve (path.join (.ofName n')) = some i → n' = n) →
    placeOf path r.moved n ≠ path.join (.ofName n) → r.fs.resolve (path.join (.ofName n)) ≠ some i
  distinct : ∀ n₁ i₁ c₁ m₁ n₂ i₂ c₂ m₂, TopFile fs0 path n₁ i₁ c₁ m₁ → TopFile fs0 path n₂ i₂ c₂ m₂ →
    placeOf path r.moved n₁ = placeOf path r.moved n₂ → n₁ = n₂
  untouched : ∀ q j c m, fs0.resolve q = some j → fs0.get? j = some ⟨.file c, m⟩ →
    (∀ n, fs0.resolve (path.join (.ofName n)) ≠ some j) →
    r.fs.resolve q = some j ∧ r.fs.get? j = some ⟨.file c, m⟩

theorem FilesKept.refl {fs0 : PosixFS} {path : Path} (o : Outcome) : FilesKept fs0 path ⟨fs0, o, []⟩ := by
  have hp : ∀ n, placeOf path [] n = path.join (.ofName n) := fun n => placeOf_of_not_mem (by simp)
  exact ⟨fun n i c m h => ⟨by rw [hp]; exact h.1, h.2, placeOf_under (by simp) n⟩,
    fun n _ _ _ _ _ hne => absurd (hp n) hne,
    fun n₁ _ _ _ n₂ _ _ _ _ _ he => (Path.join_ofName_injective (by rwa [hp, hp] at he)).2,
    fun _ _ _ _ hq hf _ => ⟨hq, hf⟩⟩

end SakUtility
