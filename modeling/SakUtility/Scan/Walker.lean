import SakUtility.Path

/-!
# `fast_scan`, the stack-based directory walker

The file system is seen through the two calls `fast_scan` makes: `os.path.realpath`
and `os.scandir`, whose entries carry their name and the outcome of
`is_dir(follow_symlinks=False)`. One iteration of the `while stack` loop is `step`;
the loop itself runs on fuel, and the generator's yields are returned as a list.
-/

namespace SakUtility

set_option autoImplicit false

/-- An `os.DirEntry` as `fast_scan` reads it. -/
structure DirEntry where
  name : String
  /-- `entry.is_dir(follow_symlinks=False)`; `none` when the call raised. -/
  isDir : Option Bool
  deriving DecidableEq, Repr

/-- `entry.path`: the listed directory joined with the entry's name. -/
def DirEntry.path (dir : Path) (e : DirEntry) : Path := dir.join (Path.ofName e.name)

/-- The file system as `fast_scan` queries it. A listing never repeats a name. -/
structure ScanFS (Id : Type) where
  realpath : Path → Id
  scandir : Path → Option (List DirEntry)
  scandir_nodup : ∀ p es, scandir p = some es → (es.map DirEntry.name).Nodup

/-- One `(dir_path, dirs, files)` triple of the generator. -/
structure Yield where
  root : Path
  dirs : List Path
  files : List Path
  deriving DecidableEq, Repr

/-- The `dirs` list of the inner loop: entries classified as directories. -/
def dirsOf (path : Path) (es : List DirEntry) : List Path :=
  es.filterMap fun e => if e.isDir = some true then some (e.path path) else none

/-- The `files` list of the inner loop: entries classified as non-directories. -/
def filesOf (path : Path) (es : List DirEntry) : List Path :=
  es.filterMap fun e => if e.isDir = some false then some (e.path path) else none

/-- The triple yielded for a listed directory. -/
def yieldOf (path : Path) (es : List DirEntry) : Yield := ⟨path, dirsOf path es, filesOf path es⟩

/-- The loop variables: the stack (top first) and the visited real paths. -/
structure ScanState (Id : Type) where
  stack : List Path
  visited : List Id

namespace ScanFS

variable {Id : Type} [DecidableEq Id] (fs : ScanFS Id)

/-- One iteration of `while stack`: `none` once the stack is empty, else what it
yields and the next state. `stack.extend(dirs)` puts the last directory on top. -/
def step (st : ScanState Id) : Option (Option Yield × ScanState Id) :=
  match st.stack with
  | [] => none
  | path :: rest =>
    if fs.realpath path ∈ st.visited then some (none, ⟨rest, st.visited⟩)
    else match fs.scandir path with
      | none => some (none, ⟨rest, fs.realpath path :: st.visited⟩)
      | some es => some (some (yieldOf path es),
          ⟨(dirsOf path es).reverse ++ rest, fs.realpath path :: st.visited⟩)

/-- The loop with `fuel` iterations at most; `none` when the fuel runs out. -/
def loop : Nat → ScanState Id → Option (List Yield)
  | 0, _ => none
  | n + 1, st =>
    match fs.step st with
    | none => some []
    | some (y, st') => (loop n st').map (y.toList ++ ·)

/-- `fast_scan(base_path)`: a fresh stack and a fresh visited set. -/
def fastScan (fuel : Nat) (base : Path) : Option (List Yield) := fs.loop fuel ⟨[base], []⟩

@[simp] theorem step_nil (visited : List Id) : fs.step ⟨[], visited⟩ = none := rfl

theorem loop_succ (n : Nat) (st : ScanState Id) :
    fs.loop (n + 1) st = match fs.step st with
      | none => some []
      | some (y, st') => (fs.loop n st').map (y.toList ++ ·) := rfl

/-- Everything one iteration can do. -/
theorem step_cases {st st' : ScanState Id} {y : Option Yield}
    (h : fs.step st = some (y, st')) : ∃ path rest, st.stack = path :: rest ∧
      ((fs.realpath path ∈ st.visited ∧ y = none ∧ st' = ⟨rest, st.visited⟩) ∨
       (fs.realpath path ∉ st.visited ∧ fs.scandir path = none ∧ y = none ∧
          st' = ⟨rest, fs.realpath path :: st.visited⟩) ∨
       (∃ es, fs.realpath path ∉ st.visited ∧ fs.scandir path = some es ∧
          y = some (yieldOf path es) ∧
          st' = ⟨(dirsOf path es).reverse ++ rest, fs.realpath path :: st.visited⟩)) := by
  obtain ⟨stack, visited⟩ := st
  cases stack with
  | nil => cases h
  | cons path rest =>
    refine ⟨path, rest, rfl, ?_⟩
    simp only [step] at h
    split at h
    · cases h; exact .inl ⟨‹_›, rfl, rfl⟩
    · split at h <;> cases h
      · exact .inr (.inl ⟨‹_›, ‹_›, rfl, rfl⟩)
      · exact .inr (.inr ⟨_, ‹_›, ‹_›, rfl, rfl⟩)

/-- A run either stops on an empty stack or takes a step and runs on. -/
theorem loop_cases {n : Nat} {st : ScanState Id} {out : List Yield}
    (h : fs.loop n st = some out) :
    (st.stack = [] ∧ out = []) ∨
    ∃ m y st' out', n = m + 1 ∧ fs.step st = some (y, st') ∧ fs.loop m st' = some out' ∧
      out = y.toList ++ out' := by
  cases n with
  | zero => cases h
  | succ m =>
    rw [loop_succ] at h
    split at h
    · rename_i hs
      cases h
      obtain ⟨stack, visited⟩ := st
      cases stack with
      | nil => exact .inl ⟨rfl, rfl⟩
      | cons p r => simp only [step] at hs; split at hs <;> [cases hs; split at hs <;> cases hs]
    · obtain ⟨out', h', rfl⟩ := Option.map_eq_some'.mp h
      exact .inr ⟨m, _, _, out', rfl, ‹_›, h', rfl⟩

end ScanFS

end SakUtility
