import SakUtility.Scan.Walker
import Mathlib.Data.List.Nodup

/-!
# What `fast_scan` yields

Over any file system whose real paths name directories canonically, the walk
terminates whenever finitely many directories are reachable, cycles through
directory entries included; it yields each reachable listable directory exactly
once, and each triple is exactly that directory's listing split by `is_dir`.
-/

namespace SakUtility

set_option autoImplicit false

theorem mem_dirsOf {path q : Path} {es : List DirEntry} :
    q ∈ dirsOf path es ↔ ∃ e ∈ es, e.isDir = some true ∧ e.path path = q := by
  simp [dirsOf, List.mem_filterMap]

theorem mem_filesOf {path q : Path} {es : List DirEntry} :
    q ∈ filesOf path es ↔ ∃ e ∈ es, e.isDir = some false ∧ e.path path = q := by
  simp [filesOf, List.mem_filterMap]

theorem filesOf_nodup (path : Path) {es : List DirEntry} (h : (es.map DirEntry.name).Nodup) :
    (filesOf path es).Nodup := by
  induction es with
  | nil => exact .nil
  | cons e es ih =>
    rw [List.map_cons, List.nodup_cons] at h
    have hfresh : e.path path ∉ filesOf path es := fun hm => by
      obtain ⟨e', he', -, heq⟩ := mem_filesOf.mp hm
      exact h.1 ((Path.join_ofName_injective heq).2 ▸ List.mem_map_of_mem _ he')
    by_cases hd : e.isDir = some false
    · have hcons : filesOf path (e :: es) = e.path path :: filesOf path es := by simp [filesOf, hd]
      exact hcons ▸ List.nodup_cons.mpr ⟨hfresh, ih h.2⟩
    · have hcons : filesOf path (e :: es) = filesOf path es := by simp [filesOf, hd]
      exact hcons ▸ ih h.2

namespace ScanFS

variable {Id : Type} (fs : ScanFS Id)

/-- Directories reachable from `base` through directory entries of listed directories. -/
inductive Reach (base : Path) : Path → Prop
  | base : Reach base base
  | child {d : Path} {es : List DirEntry} {e : DirEntry} : Reach base d →
      fs.scandir d = some es → e ∈ es → e.isDir = some true → Reach base (e.path d)

/-- `realpath` is the canonical identity of the directory a path names: paths with one
real path get one listing (so listing success depends on it alone), and their
subdirectory entries share real paths. -/
structure Canonical : Prop where
  scandir_eq : ∀ p q, fs.realpath p = fs.realpath q → fs.scandir p = fs.scandir q
  child_eq : ∀ p q es e, fs.realpath p = fs.realpath q → fs.scandir p = some es → e ∈ es →
    e.isDir = some true → fs.realpath (e.path p) = fs.realpath (e.path q)

/-- The real paths of the yielded directories, in order. -/
def ids (out : List Yield) : List Id := out.map fun y => fs.realpath y.root

@[simp] theorem ids_nil : fs.ids [] = [] := rfl

@[simp] theorem ids_cons (y : Yield) (out : List Yield) :
    fs.ids (y :: out) = fs.realpath y.root :: fs.ids out := rfl

theorem Reach.isabs {base d : Path} (h : fs.Reach base d) : d.isabs = base.isabs := by
  induction h with
  | base => rfl
  | child _ _ _ _ ih => simpa [DirEntry.path] using ih

variable [DecidableEq Id]

/-! ### Facts of single yields -/

theorem loop_yield_listing {n : Nat} {st : ScanState Id} {out : List Yield}
    (h : fs.loop n st = some out) :
    ∀ y ∈ out, ∃ es, fs.scandir y.root = some es ∧ y = yieldOf y.root es := by
  induction n generalizing st out with
  | zero => cases h
  | succ n ih =>
    rcases fs.loop_cases h with ⟨-, rfl⟩ | ⟨m, y, st', out', hm, hs, hl, rfl⟩
    · simp
    · cases hm
      intro z hz
      rcases List.mem_append.mp hz with hz | hz
      · obtain ⟨path, rest, -, ⟨-, rfl, -⟩ | ⟨-, -, rfl, -⟩ | ⟨es, -, hes, rfl, -⟩⟩ :=
          fs.step_cases hs <;> simp at hz
        subst hz; exact ⟨es, hes, rfl⟩
      · exact ih hl z hz

theorem loop_ids_nodup {n : Nat} {st : ScanState Id} {out : List Yield}
    (h : fs.loop n st = some out) :
    (fs.ids out).Nodup ∧ ∀ i ∈ fs.ids out, i ∉ st.visited := by
  induction n generalizing st out with
  | zero => cases h
  | succ n ih =>
    rcases fs.loop_cases h with ⟨-, rfl⟩ | ⟨m, y, st', out', hm, hs, hl, rfl⟩
    · simp [ids]
    · cases hm
      obtain ⟨hnd, hfresh⟩ := ih hl
      obtain ⟨path, rest, -, ⟨-, rfl, rfl⟩ | ⟨hv, -, rfl, rfl⟩ | ⟨es, hv, -, rfl, rfl⟩⟩ :=
        fs.step_cases hs
      · exact ⟨hnd, hfresh⟩
      · exact ⟨hnd, fun i hi hvi => hfresh i hi (List.mem_cons_of_mem _ hvi)⟩
      · simp only [Option.toList_some, List.singleton_append, ids_cons, yieldOf]
        refine ⟨List.nodup_cons.mpr ⟨fun hm => hfresh _ hm (List.mem_cons_self _ _), hnd⟩, ?_⟩
        rintro i (_ | ⟨_, hi⟩)
        · exact hv
        · exact fun hvi => hfresh i hi (List.mem_cons_of_mem _ hvi)

/-! ### Soundness: only reachable directories are yielded -/

/-- Every path on the stack is reachable from `base`. -/
def StackReach (base : Path) (st : ScanState Id) : Prop := ∀ p ∈ st.stack, fs.Reach base p

theorem step_stackReach {base : Path} {st st' : ScanState Id} {y : Option Yield}
    (hs : fs.step st = some (y, st')) (h : fs.StackReach base st) :
    fs.StackReach base st' ∧ ∀ z ∈ y.toList, fs.Reach base z.root := by
  obtain ⟨path, rest, hst, hcase⟩ := fs.step_cases hs
  have htail : ∀ p ∈ rest, fs.Reach base p := fun p hp => h p (hst ▸ List.mem_cons_of_mem _ hp)
  have hpath : fs.Reach base path := h path (hst ▸ List.mem_cons_self _ _)
  rcases hcase with ⟨-, rfl, rfl⟩ | ⟨-, -, rfl, rfl⟩ | ⟨es, -, hes, rfl, rfl⟩
  · exact ⟨htail, by simp⟩
  · exact ⟨htail, by simp⟩
  · refine ⟨fun p hp => ?_, by simpa [yieldOf] using hpath⟩
    rcases List.mem_append.mp hp with hp | hp
    · obtain ⟨e, he, hd, rfl⟩ := mem_dirsOf.mp (List.mem_reverse.mp hp)
      exact .child hpath hes he hd
    · exact htail p hp

theorem loop_reach {base : Path} {n : Nat} {st : ScanState Id} {out : List Yield}
    (h : fs.loop n st = some out) (hr : fs.StackReach base st) :
    ∀ y ∈ out, fs.Reach base y.root := by
  induction n generalizing st out with
  | zero => cases h
  | succ n ih =>
    rcases fs.loop_cases h with ⟨-, rfl⟩ | ⟨m, y, st', out', hm, hs, hl, rfl⟩
    · simp
    · cases hm
      obtain ⟨hr', hy⟩ := fs.step_stackReach hs hr
      intro z hz
      rcases List.mem_append.mp hz with hz | hz
      · exact hy z hz
      · exact ih hl hr' z hz

/-! ### Completeness: every reachable listable directory is yielded -/

/-- An identity is visited, or the real path of a path still on the stack. -/
def Pending (st : ScanState Id) (i : Id) : Prop :=
  i ∈ st.visited ∨ ∃ p ∈ st.stack, fs.realpath p = i

/-- What the triples `acc` yielded so far and the state `st` guarantee together. -/
structure Closed (base : Path) (acc : List Yield) (st : ScanState Id) : Prop where
  listing : ∀ y ∈ acc, ∃ es, fs.scandir y.root = some es ∧ y = yieldOf y.root es
  visited_yielded : ∀ p, fs.realpath p ∈ st.visited → (fs.scandir p).isSome →
    fs.realpath p ∈ fs.ids acc
  dirs_pending : ∀ y ∈ acc, ∀ q ∈ y.dirs, fs.Pending st (fs.realpath q)
  base_pending : fs.Pending st (fs.realpath base)

theorem step_pending {st st' : ScanState Id} {y : Option Yield} {i : Id}
    (hs : fs.step st = some (y, st')) (h : fs.Pending st i) : fs.Pending st' i := by
  obtain ⟨path, rest, hst, hcase⟩ := fs.step_cases hs
  have key : ∀ vis : List Id, fs.realpath path ∈ vis → st.visited ⊆ vis → ∀ stk : List Path,
      rest ⊆ stk → fs.Pending ⟨stk, vis⟩ i := by
    intro vis hpv hsub stk hrest
    rcases h with hv | ⟨p, hp, rfl⟩
    · exact .inl (hsub hv)
    · rw [hst] at hp
      rcases List.mem_cons.mp hp with rfl | hp
      · exact .inl hpv
      · exact .inr ⟨p, hrest hp, rfl⟩
  rcases hcase with ⟨hv, -, rfl⟩ | ⟨-, -, -, rfl⟩ | ⟨es, -, -, -, rfl⟩
  · exact key _ hv (fun _ h => h) _ (fun _ h => h)
  · exact key _ (List.mem_cons_self _ _) (fun _ => List.mem_cons_of_mem _) _ (fun _ h => h)
  · exact key _ (List.mem_cons_self _ _) (fun _ => List.mem_cons_of_mem _) _
      (fun _ => List.mem_append_right _)

theorem step_closed (hc : fs.Canonical) {base : Path} {acc : List Yield}
    {st st' : ScanState Id} {y : Option Yield} (hs : fs.step st = some (y, st'))
    (h : fs.Closed base acc st) : fs.Closed base (acc ++ y.toList) st' := by
  obtain ⟨path, rest, hst, hcase⟩ := fs.step_cases hs
  have hpend := fun i => fs.step_pending (i := i) hs
  rcases hcase with ⟨hv, rfl, rfl⟩ | ⟨hv, hnone, rfl, rfl⟩ | ⟨es, hv, hes, rfl, rfl⟩
  · simpa using (⟨h.listing, h.visited_yielded, fun y hy q hq => hpend _ (h.dirs_pending y hy q hq),
      hpend _ h.base_pending⟩ : fs.Closed base acc ⟨rest, st.visited⟩)
  · refine ⟨by simpa using h.listing, fun p hp hl => ?_, fun y hy q hq => ?_, hpend _ h.base_pending⟩
    · rcases List.mem_cons.mp hp with hp | hp
      · rw [hc.scandir_eq p path hp, hnone] at hl; cases hl
      · simpa using h.visited_yielded p hp hl
    · simp only [Option.toList_none, List.append_nil] at hy
      exact hpend _ (h.dirs_pending y hy q hq)
  · refine ⟨fun z hz => ?_, fun p hp hl => ?_, fun z hz q hq => ?_, hpend _ h.base_pending⟩
    · rcases List.mem_append.mp hz with hz | hz
      · exact h.listing z hz
      · simp only [Option.toList_some, List.mem_singleton] at hz
        exact hz ▸ ⟨es, hes, rfl⟩
    · simp only [ids, List.map_append, List.mem_append, Option.toList_some, List.map_cons,
        List.map_nil, List.mem_singleton, yieldOf]
      rcases List.mem_cons.mp hp with hp | hp
      · exact .inr hp
      · exact .inl (h.visited_yielded p hp hl)
    · rcases List.mem_append.mp hz with hz | hz
      · exact hpend _ (h.dirs_pending z hz q hq)
      · simp only [Option.toList_some, List.mem_singleton] at hz
        subst hz
        exact .inr ⟨q, List.mem_append_left _ (List.mem_reverse.mpr hq), rfl⟩

theorem loop_closed (hc : fs.Canonical) {base : Path} {n : Nat} {st : ScanState Id}
    {acc out : List Yield} (h : fs.loop n st = some out) (hcl : fs.Closed base acc st) :
    ∃ vis, fs.Closed base (acc ++ out) ⟨[], vis⟩ := by
  induction n generalizing st acc out with
  | zero => cases h
  | succ n ih =>
    rcases fs.loop_cases h with ⟨hnil, rfl⟩ | ⟨m, y, st', out', hm, hs, hl, rfl⟩
    · obtain ⟨stack, vis⟩ := st
      simp only at hnil
      subst hnil
      exact ⟨vis, by simpa using hcl⟩
    · cases hm
      simpa using ih hl (fs.step_closed hc hs hcl)

omit [DecidableEq Id] in
/-- Once the stack is empty, every reachable listable directory has been yielded. -/
theorem complete_of_closed (hc : fs.Canonical) {base : Path} {acc : List Yield} {vis : List Id}
    (h : fs.Closed base acc ⟨[], vis⟩) {d : Path} (hd : fs.Reach base d)
    (hl : (fs.scandir d).isSome) : fs.realpath d ∈ fs.ids acc := by
  have done : ∀ i, fs.Pending ⟨[], vis⟩ i → i ∈ vis := fun i hi => by
    rcases hi with hi | ⟨_, hp, _⟩
    · exact hi
    · cases hp
  induction hd with
  | base => exact h.visited_yielded _ (done _ h.base_pending) hl
  | @child d es e hd hes he hdir ih =>
    obtain ⟨y, hy, hyd⟩ := List.mem_map.mp (ih (by simp [hes]))
    obtain ⟨es', hes', hyes⟩ := h.listing y hy
    rw [hc.scandir_eq _ _ hyd, hes] at hes'
    cases hes'
    have hq : e.path y.root ∈ y.dirs := hyes ▸ mem_dirsOf.mpr ⟨e, he, hdir, rfl⟩
    have hchild := hc.child_eq d y.root es e hyd.symm hes he hdir
    exact h.visited_yielded _ (hchild ▸ done _ (h.dirs_pending y hy _ hq)) hl

/-! ### Termination on finitely many reachable directories -/

/-- How many identities of `U` are not yet visited. -/
def unvisited (U visited : List Id) : Nat := (U.filter fun i => i ∉ visited).length

omit [DecidableEq Id] in
theorem unvisited_cons_lt [DecidableEq Id] {U visited : List Id} {i : Id} (hU : i ∈ U)
    (hv : i ∉ visited) : unvisited U (i :: visited) < unvisited U visited := by
  have hfilter : U.filter (fun j => j ∉ i :: visited) =
      (U.filter fun j => j ∉ visited).filter fun j => j ≠ i := by
    rw [List.filter_filter]
    congr 1; funext j
    simp [and_comm]
  rw [unvisited, unvisited, hfilter]
  exact List.length_filter_lt_length_iff_exists.mpr ⟨i, by simp [hU, hv], by simp⟩

theorem step_cons_isSome (path : Path) (rest : List Path) (visited : List Id) :
    (fs.step ⟨path :: rest, visited⟩).isSome := by
  simp only [step]
  split
  · rfl
  · split <;> rfl

theorem exists_loop_eq_some {base : Path} (U : List Id)
    (hU : ∀ d, fs.Reach base d → fs.realpath d ∈ U) (st : ScanState Id)
    (hr : fs.StackReach base st) : ∃ n out, fs.loop n st = some out := by
  suffices h : ∀ k (st : ScanState Id), unvisited U st.visited = k → fs.StackReach base st →
      ∃ n out, fs.loop n st = some out from h _ st rfl hr
  intro k
  induction k using Nat.strong_induction_on with
  | _ k ihk =>
    rintro ⟨stack, visited⟩ hk hr
    induction stack with
    | nil => exact ⟨1, [], rfl⟩
    | cons path rest ih =>
      obtain ⟨⟨y, st'⟩, hs⟩ := Option.isSome_iff_exists.mp (fs.step_cons_isSome path rest visited)
      have hpath : fs.Reach base path := hr path (List.mem_cons_self _ _)
      obtain ⟨n, out, hl⟩ : ∃ n out, fs.loop n st' = some out := by
        obtain ⟨_, _, hst, ⟨hv, -, rfl⟩ | ⟨hv, -, -, rfl⟩ | ⟨es, hv, -, -, rfl⟩⟩ :=
          fs.step_cases hs <;> simp only [List.cons.injEq] at hst <;> obtain ⟨rfl, rfl⟩ := hst
        · exact ih hk fun p hp => hr p (List.mem_cons_of_mem _ hp)
        all_goals
          exact ihk _ (hk ▸ unvisited_cons_lt (hU _ hpath) hv) _ rfl (fs.step_stackReach hs hr).1
      exact ⟨n + 1, y.toList ++ out, by rw [loop_succ, hs]; simp [hl]⟩

/-- A run of `fast_scan` that returns has yielded every reachable listable directory. -/
theorem fastScan_complete (hc : fs.Canonical) {n : Nat} {base : Path} {out : List Yield}
    (h : fs.fastScan n base = some out) {d : Path} (hd : fs.Reach base d)
    (hl : (fs.scandir d).isSome) : fs.realpath d ∈ fs.ids out := by
  have hinit : fs.Closed base [] ⟨[base], []⟩ :=
    ⟨by simp, by simp, by simp, .inr ⟨base, List.mem_singleton_self _, rfl⟩⟩
  obtain ⟨vis, hcl⟩ := fs.loop_closed hc h hinit
  simpa using fs.complete_of_closed hc hcl hd hl

/-- `fast_scan` on a canonically named file system with finitely many reachable
directories: it terminates, its directories have pairwise distinct real paths, each
triple is that directory's listing split by `is_dir(follow_symlinks=False)` (entries
whose classification raised dropped), and the real paths yielded are exactly those of
the reachable directories whose listing succeeds. -/
theorem fastScan_spec (hc : fs.Canonical) (base : Path) (U : List Id)
    (hU : ∀ d, fs.Reach base d → fs.realpath d ∈ U) :
    ∃ n out, fs.fastScan n base = some out ∧ (fs.ids out).Nodup ∧
      (∀ y ∈ out, ∃ es, fs.scandir y.root = some es ∧ y = yieldOf y.root es) ∧
      ∀ i, i ∈ fs.ids out ↔ ∃ d, fs.Reach base d ∧ (fs.scandir d).isSome ∧ fs.realpath d = i := by
  have hr0 : fs.StackReach base ⟨[base], []⟩ := by
    simpa [StackReach] using Reach.base
  obtain ⟨n, out, h⟩ := fs.exists_loop_eq_some U hU _ hr0
  refine ⟨n, out, h, (fs.loop_ids_nodup h).1, fs.loop_yield_listing h, fun i => ⟨?_, ?_⟩⟩
  · intro hi
    obtain ⟨y, hy, rfl⟩ := List.mem_map.mp hi
    obtain ⟨es, hes, -⟩ := fs.loop_yield_listing h y hy
    exact ⟨y.root, fs.loop_reach h hr0 y hy, by simp [hes], rfl⟩
  · rintro ⟨d, hd, hl, rfl⟩
    exact fs.fastScan_complete hc h hd hl

/-! ### The files a run lists -/

theorem loop_files_nodup {n : Nat} {st : ScanState Id} {out : List Yield}
    (h : fs.loop n st = some out) : (out.flatMap Yield.files).Nodup := by
  have hl := fs.loop_yield_listing h
  refine List.nodup_flatMap.mpr ⟨fun y hy => ?_, ?_⟩
  · obtain ⟨es, hes, hy⟩ := hl y hy
    exact hy ▸ filesOf_nodup y.root (fs.scandir_nodup _ _ hes)
  · refine (List.pairwise_map.mp (fs.loop_ids_nodup h).1).imp_of_mem fun ha hb hne f hfa hfb => ?_
    obtain ⟨esa, -, hya⟩ := hl _ ha
    obtain ⟨esb, -, hyb⟩ := hl _ hb
    rw [hya] at hfa
    rw [hyb] at hfb
    obtain ⟨_, -, -, rfl⟩ := mem_filesOf.mp hfa
    obtain ⟨_, -, -, heq⟩ := mem_filesOf.mp hfb
    exact hne (congrArg fs.realpath (Path.join_ofName_injective heq).1).symm

theorem loop_mem_files {n : Nat} {st : ScanState Id} {out : List Yield} (h : fs.loop n st = some out)
    {f : Path} (hf : f ∈ out.flatMap Yield.files) : ∃ y ∈ out, ∃ es e, fs.scandir y.root = some es ∧
      e ∈ es ∧ e.isDir = some false ∧ f = e.path y.root := by
  obtain ⟨y, hy, hfy⟩ := List.mem_flatMap.mp hf
  obtain ⟨es, hes, hyl⟩ := fs.loop_yield_listing h y hy
  rw [hyl] at hfy
  obtain ⟨e, he, hd, rfl⟩ := mem_filesOf.mp hfy
  exact ⟨y, hy, es, e, hes, he, hd, rfl⟩

theorem fastScan_isabs {n : Nat} {base : Path} {out : List Yield}
    (h : fs.fastScan n base = some out) :
    ∀ y ∈ out, y.root.isabs = base.isabs ∧ ∀ f ∈ y.files, f.isabs = base.isabs := by
  intro y hy
  have hr := fs.loop_reach h (by simpa [StackReach] using Reach.base) y hy
  obtain ⟨es, -, hes⟩ := fs.loop_yield_listing h y hy
  refine ⟨hr.isabs, fun f hf => ?_⟩
  rw [hes] at hf
  obtain ⟨e, -, -, rfl⟩ := mem_filesOf.mp hf
  simpa [DirEntry.path] using hr.isabs

/-- More fuel changes nothing in a run that returns. -/
theorem loop_add {n : Nat} {st : ScanState Id} {out : List Yield} (h : fs.loop n st = some out)
    (k : Nat) : fs.loop (n + k) st = some out := by
  induction n generalizing st out with
  | zero => cases h
  | succ n ih =>
    rw [show n + 1 + k = n + k + 1 by omega, loop_succ]
    rw [loop_succ] at h
    split at h
    · exact h
    · obtain ⟨o, ho, rfl⟩ := Option.map_eq_some'.mp h
      rw [ih ho]
      rfl

theorem fastScan_mono {n m : Nat} {base : Path} {out : List Yield} (h : fs.fastScan n base = some out)
    (hnm : n ≤ m) : fs.fastScan m base = some out := by
  obtain ⟨k, rfl⟩ := Nat.exists_eq_add_of_le hnm
  exact fs.loop_add h k

/-- A run that returns gives the one output of the loop, whatever the fuel. -/
theorem loop_deterministic {n m : Nat} {st : ScanState Id} {out out' : List Yield}
    (h : fs.loop n st = some out) (h' : fs.loop m st = some out') : out = out' := by
  induction n generalizing m st out out' with
  | zero => cases h
  | succ n ih =>
    cases m with
    | zero => cases h'
    | succ m =>
      rw [loop_succ] at h h'
      split at h <;> rename_i hs <;> rw [hs] at h'
      · exact (Option.some.inj h).symm.trans (Option.some.inj h')
      · obtain ⟨o, ho, rfl⟩ := Option.map_eq_some'.mp h
        obtain ⟨o', ho', rfl⟩ := Option.map_eq_some'.mp h'
        rw [ih ho ho']

end ScanFS

/-- A directory graph, cycles allowed: each node's listing and the node each entry name
leads to. A path names the node its components lead to from the root, or from the
working directory when it is relative. -/
structure DirGraph (Id : Type) where
  root : Id
  cwd : Id
  listing : Id → Option (List DirEntry)
  child : Id → String → Id
  listing_nodup : ∀ i es, listing i = some es → (es.map DirEntry.name).Nodup

namespace DirGraph

variable {Id : Type} (g : DirGraph Id)

/-- The node a path names. -/
def node (p : Path) : Id := p.parts.foldl g.child (if p.isabs then g.root else g.cwd)

/-- The graph seen by `fast_scan`: the real path of a path is the node it names. -/
def toScanFS : ScanFS Id where
  realpath := g.node
  scandir p := g.listing (g.node p)
  scandir_nodup _ es h := g.listing_nodup _ es h

theorem node_entry (p : Path) (e : DirEntry) : g.node (e.path p) = g.child (g.node p) e.name := by
  simp [node, DirEntry.path, List.foldl_append]

theorem canonical : g.toScanFS.Canonical where
  scandir_eq p q h := by simp only [toScanFS] at h ⊢; rw [h]
  child_eq p q _ e h _ _ _ := by
    simp only [toScanFS] at h ⊢
    rw [node_entry, node_entry, h]

end DirGraph

/-- `/` holds the directory `a`, whose entry `back` is a junction to `/` and whose entry
`f` is a file. -/
def junction : DirGraph Nat where
  root := 0
  cwd := 0
  listing i := if i = 0 then some [⟨"a", some true⟩]
    else if i = 1 then some [⟨"back", some true⟩, ⟨"f", some false⟩] else none
  child i n := if i = 0 ∧ n = "a" then 1 else if i = 1 ∧ n = "back" then 0 else 2
  listing_nodup i es h := by
    dsimp only at h
    split_ifs at h <;> cases h <;> decide

theorem junction_node_lt (p : Path) : junction.node p < 3 := by
  have step : ∀ (ns : List String) (i : Nat), i < 3 → ns.foldl junction.child i < 3 := by
    intro ns
    induction ns with
    | nil => exact fun _ h => h
    | cons n ns ih =>
      intro i _
      apply ih
      simp only [junction]
      split_ifs <;> omega
  exact step _ _ (by simp [junction])

theorem fastScan_spec_junction : ∃ n out, junction.toScanFS.fastScan n ⟨true, []⟩ = some out ∧
    (junction.toScanFS.ids out).Nodup := by
  obtain ⟨n, out, h, hnd, -⟩ := junction.toScanFS.fastScan_spec junction.canonical ⟨true, []⟩
    (List.range 3) fun d _ => List.mem_range.mpr (junction_node_lt d)
  exact ⟨n, out, h, hnd⟩

example : junction.toScanFS.fastScan 4 ⟨true, []⟩ = some
    [⟨⟨true, []⟩, [⟨true, ["a"]⟩], []⟩,
     ⟨⟨true, ["a"]⟩, [⟨true, ["a", "back"]⟩], [⟨true, ["a", "f"]⟩]⟩] := by decide

end SakUtility
