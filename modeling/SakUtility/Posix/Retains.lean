import SakUtility.Posix.Keeps

/-!
# What the writes retain, whatever the modes

An inode is under a directory when directory entries lead to it, whatever the modes
(`DirUnder`). `fs.Retains fs' K` says that `fs'` keeps the root, the working directory, every
directory with its mode and its entries but those of `K`, and every regular file of `fs`.
Unlinking, writing a new file and making an entry retain the file system in that sense, so
a file under a folder stays under it unless an entry on the way is in `K`.
-/

namespace SakUtility

set_option autoImplicit false

namespace PosixFS

variable (fs : PosixFS)

/-- Directories that directory entries lead to from directory `D`, whatever the modes. -/
inductive DirUnder (D : Nat) : Nat → Prop
  | self : DirUnder D D
  | child {d j : Nat} {es : List (String × Nat)} {m : Nat} {name : String} : DirUnder D d →
      fs.get? d = some ⟨.dir es, m⟩ → (name, j) ∈ es → fs.entryIsDir j = some true → DirUnder D j

/-- A regular file under directory `D` holds `c`. -/
def HoldsUnder (D : Nat) (c : String) : Prop :=
  ∃ d es m name j m', fs.DirUnder D d ∧ fs.get? d = some ⟨.dir es, m⟩ ∧ (name, j) ∈ es ∧
    fs.get? j = some ⟨.file c, m'⟩

/-- No entry of `K` leads to a directory. -/
def NonDirEntries (K : List (Nat × String)) : Prop :=
  ∀ k ∈ K, ∀ es m j, fs.get? k.1 = some ⟨.dir es, m⟩ → (k.2, j) ∈ es → fs.entryIsDir j ≠ some true

/-- `fs'` keeps the root and working directory of `fs`, every directory with its mode and every
entry not in `K`, and every regular file with its content and mode. -/
structure Retains (fs' : PosixFS) (K : List (Nat × String)) : Prop where
  root : fs'.root = fs.root
  cwd : fs'.cwd = fs.cwd
  dir : ∀ d es m, fs.get? d = some ⟨.dir es, m⟩ →
    ∃ es', fs'.get? d = some ⟨.dir es', m⟩ ∧ ∀ e ∈ es, (d, e.1) ∉ K → e ∈ es'
  file : ∀ i c m, fs.get? i = some ⟨.file c, m⟩ → fs'.get? i = some ⟨.file c, m⟩

theorem retains_refl : fs.Retains fs [] :=
  ⟨rfl, rfl, fun _ es _ h => ⟨es, h, fun _ he _ => he⟩, fun _ _ _ h => h⟩

variable {fs} {fs₀ fs' : PosixFS} {K K' : List (Nat × String)}

theorem DirUnder.dir_base {D d : Nat} (h : fs.DirUnder D d) {es : List (String × Nat)} {m : Nat}
    (hg : fs.get? d = some ⟨.dir es, m⟩) : ∃ es' m', fs.get? D = some ⟨.dir es', m'⟩ := by
  induction h generalizing es m with
  | self => exact ⟨es, m, hg⟩
  | child _ hg' _ _ ih => exact ih hg'

theorem NonDirEntries.not_mem (hK : fs.NonDirEntries K) {d j : Nat} {es : List (String × Nat)}
    {m : Nat} {name : String} (hg : fs.get? d = some ⟨.dir es, m⟩) (hj : (name, j) ∈ es)
    (hdir : fs.entryIsDir j = some true) : (d, name) ∉ K :=
  fun hk => hK _ hk es m j hg hj hdir

/-! ### Each write retains the file system -/

theorem Retains.unlink (h : fs₀.Retains fs K) (d : Nat) (n : String) :
    fs₀.Retains (fs.unlink d n) ((d, n) :: K) where
  root := h.root
  cwd := h.cwd
  dir d' es m hg := by
    obtain ⟨es', hg', hmem⟩ := h.dir d' es m hg
    by_cases hd : d = d'
    · subst hd
      refine ⟨es'.filter (·.1 != n), by simp [get?_unlink, hg', Inode.dropEntry], fun e he hk => ?_⟩
      simp only [List.mem_cons, Prod.mk.injEq, true_and, not_or] at hk
      exact List.mem_filter.mpr ⟨hmem e he hk.2, bne_iff_ne.mpr hk.1⟩
    · exact ⟨es', by simp [get?_unlink, hg', hd], fun e he hk => hmem e he (hk ∘ List.mem_cons_of_mem _)⟩
  file i c m hg := by
    rw [get?_unlink, h.file i c m hg]
    by_cases hd : d = i <;> simp [hd, Inode.dropEntry]

/-- Writing an inode that `fs₀` does not have. -/
theorem Retains.setContent (h : fs₀.Retains fs K) {j : Nat} (hj : fs₀.inodes.length ≤ j)
    (f : String → String) : fs₀.Retains (fs.setContent j f) K where
  root := h.root
  cwd := h.cwd
  dir d es m hg := by
    obtain ⟨es', hg', hmem⟩ := h.dir d es m hg
    refine ⟨es', ?_, hmem⟩
    rw [get?_setContent, hg']
    by_cases hd : j = d <;> simp [hd, Inode.setContent]
  file i c m hg := by
    have hi := fs₀.lt_of_get?_eq_some hg
    simp [get?_setContent, h.file i c m hg, show j ≠ i by omega]

/-- Making the entry `n` of a searchable directory that has none. -/
theorem Retains.create (h : fs₀.Retains fs K) {d : Nat} {es : List (String × Nat)} {m : Nat}
    (hg : fs.get? d = some ⟨.dir es, m⟩) (hs : canSearch m = true) {n : String}
    (hc : fs.child d n = none) {x : Inode} (hx : x.entriesNodup = true) :
    fs₀.Retains (fs.create d n x hx) K where
  root := h.root
  cwd := h.cwd
  dir d' es₀ m₀ hg₀ := by
    obtain ⟨es', hg', hmem⟩ := h.dir d' es₀ m₀ hg₀
    have hlt := fs.lt_of_get?_eq_some hg'
    by_cases hd : d = d'
    · subst hd
      obtain ⟨rfl, rfl⟩ : es' = es ∧ m₀ = m := by simpa using hg'.symm.trans hg
      refine ⟨es'.filter (·.1 != n) ++ [(n, fs.inodes.length)],
        by simp [PosixFS.create, hg', hlt.ne, Inode.setEntry], fun e he hk => ?_⟩
      have hne : e.1 ≠ n := fun hen => by
        have hl := lookup_of_mem (fs.entries_nodup d es' m₀ hg') (hmem e he hk)
        simp [child, hg', hs, ← hen, hl] at hc
      exact List.mem_append_left _ (List.mem_filter.mpr ⟨hmem e he hk, bne_iff_ne.mpr hne⟩)
    · exact ⟨es', by simp [PosixFS.create, hg', hlt.ne, hd], hmem⟩
  file i c m' hg₀ := by
    have h' := h.file i c m' hg₀
    simp only [PosixFS.create, get?_setEntry, get?_push, if_neg (fs.lt_of_get?_eq_some h').ne, h',
      Option.map_some']
    by_cases hd : d = i <;> simp [hd, Inode.setEntry]

theorem Retains.trans (h : fs₀.Retains fs K) (h' : fs.Retains fs' K') :
    fs₀.Retains fs' (K' ++ K) where
  root := h'.root.trans h.root
  cwd := h'.cwd.trans h.cwd
  dir d es m hg := by
    obtain ⟨es₁, hg₁, hmem₁⟩ := h.dir d es m hg
    obtain ⟨es₂, hg₂, hmem₂⟩ := h'.dir d es₁ m hg₁
    exact ⟨es₂, hg₂, fun e he hk => hmem₂ e (hmem₁ e he fun hk' => hk (List.mem_append_right _ hk'))
      fun hk' => hk (List.mem_append_left _ hk')⟩
  file i c m hg := h'.file i c m (h.file i c m hg)

/-! ### What a retained file system still has -/

theorem Retains.entryIsDir (h : fs₀.Retains fs K) {j : Nat} (hj : fs₀.entryIsDir j = some true) :
    fs.entryIsDir j = some true :=
  let ⟨es, m, hg⟩ := fs₀.dir_of_entryIsDir hj
  let ⟨_, hg', _⟩ := h.dir j es m hg
  fs.entryIsDir_of_get hg'

theorem Retains.child (h : fs₀.Retains fs K) {d j : Nat} {n : String} (hc : fs₀.child d n = some j)
    (hk : (d, n) ∉ K) : fs.child d n = some j := by
  obtain ⟨es, m, hg, hs, hj⟩ := fs₀.child_eq_some hc
  obtain ⟨es', hg', hmem⟩ := h.dir d es m hg
  simp only [PosixFS.child, hg', hs, if_true]
  exact lookup_of_mem (fs.entries_nodup d es' m hg') (hmem _ hj hk)

/-- Retaining keeps the file system, with the entries of `K` gone and nothing written. -/
theorem Retains.keeps (h : fs₀.Retains fs K) : fs₀.Keeps fs (fun d n => (d, n) ∈ K) (fun _ => False) where
  root := h.root
  cwd := h.cwd
  dir d es m hg := let ⟨es', hg', _⟩ := h.dir d es m hg; ⟨es', hg'⟩
  child _ _ _ hc hk := h.child hc hk
  file i c m hg _ := h.file i c m hg

/-- The entries of `K` lead to no directory of `fs₀` when they lead to none of a file system
that retains all of `fs₀`. -/
theorem Retains.nonDirEntries (h : fs₀.Retains fs []) (hK : fs.NonDirEntries K) :
    fs₀.NonDirEntries K := by
  intro k hk es m j hg hj hdir
  obtain ⟨es', hg', hmem⟩ := h.dir k.1 es m hg
  exact hK k hk es' m j hg' (hmem _ hj (List.not_mem_nil _)) (h.entryIsDir hdir)

theorem Retains.dirUnder (h : fs₀.Retains fs K) (hK : fs₀.NonDirEntries K) {D d : Nat}
    (hu : fs₀.DirUnder D d) : fs.DirUnder D d := by
  induction hu with
  | self => exact .self
  | child _ hg hj hdir ih =>
    obtain ⟨es', hg', hmem⟩ := h.dir _ _ _ hg
    exact .child ih hg' (hmem _ hj (hK.not_mem hg hj hdir)) (h.entryIsDir hdir)

/-- A file under `D` whose entry is not in `K` is still there. -/
theorem Retains.holdsUnder (h : fs₀.Retains fs K) (hK : fs₀.NonDirEntries K) {D d j m m' : Nat}
    {es : List (String × Nat)} {name c : String} (hu : fs₀.DirUnder D d)
    (hg : fs₀.get? d = some ⟨.dir es, m⟩) (hj : (name, j) ∈ es) (hf : fs₀.get? j = some ⟨.file c, m'⟩)
    (hk : (d, name) ∉ K) : fs.HoldsUnder D c :=
  let ⟨es', hg', hmem⟩ := h.dir d es m hg
  ⟨d, es', m, name, j, m', h.dirUnder hK hu, hg', hmem _ hj hk, h.file j c m' hf⟩

end PosixFS

end SakUtility
