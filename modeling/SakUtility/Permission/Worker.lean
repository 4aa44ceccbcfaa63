import SakUtility.Posix.Inode
import SakUtility.PathText

/-!
# `PermissionUpdateWorker.run`

The run collects `all_items` with `fast_scan` over every root, then changes modes item by item,
checking the cancel flag before each. On Windows it first runs `icacls` on each root: a run
records the roots granted and leaves the modes as they are. No modelled call raises past its
own handler, so the `PERM FATAL` path is left out.
-/

namespace SakUtility

set_option autoImplicit false

/-- A signal of the worker. -/
inductive PermEvent
  | progress (processed total : Nat) (currentPath : Path)
  | finished (success : Bool) (message : String)
  deriving DecidableEq, Repr

/-- The worker's inputs. -/
structure PermissionUpdateWorker where
  rootPaths : List Path
  deriving DecidableEq, Repr

/-- What a run leaves: the file system, the signals in order, the paths whose `chmod`
raised (each logged as `PERM ERROR (chmod)`), and the roots granted with `icacls`, in order. -/
structure PermOutcome where
  fs : PosixFS
  events : List PermEvent
  errors : List Path
  grants : List Path

namespace PermissionUpdateWorker

/-- `all_items`: for each root in turn, every yielded directory followed by its files. -/
def collectItems (fs : PosixFS) (fuel : Nat) (roots : List Path) : Option (List Path) :=
  roots.foldlM (fun items base => (fs.toScanFS.fastScan fuel base).map fun out =>
    items ++ out.flatMap fun y => y.root :: y.files) []

/-- `_set_perms_posix(path, is_dir)`: `0o777` for a directory, `0o666` otherwise. -/
def setPermsPosix (st : PermOutcome) (path : Path) (isDir : Bool) : PermOutcome :=
  match st.fs.chmod path (if isDir then 0o777 else 0o666) with
  | some fs' => { st with fs := fs' }
  | none => { st with errors := st.errors ++ [path] }

/-- `_set_perms_windows(base)`: `icacls base /grant Everyone:(OI)(CI)M /T /C`. -/
def setPermsWindows (st : PermOutcome) (base : Path) : PermOutcome :=
  { st with grants := st.grants ++ [base] }

/-- The loop over `all_items`; `cancelAt = some k` when the flag is first seen set before
the item at index `k`. `apply` is what one item does to the file system. -/
def itemLoop (apply : PermOutcome → Path → PermOutcome) (total : Nat) (cancelAt : Option Nat)
    (doneMsg : String) : Nat → List Path → PermOutcome → PermOutcome
  | _, [], st => { st with events := st.events ++ [.finished true doneMsg] }
  | processed, path :: rest, st =>
    if cancelAt = some processed then
      { st with events := st.events ++ [.finished false "Permission update cancelled."] }
    else
      let st := apply st path
      itemLoop apply total cancelAt doneMsg (processed + 1) rest
        { st with events := st.events ++ [.progress (processed + 1) total path] }

/-- One POSIX item: `self._set_perms_posix(path, is_dir=os.path.isdir(path))`. -/
def posixItem (st : PermOutcome) (path : Path) : PermOutcome :=
  setPermsPosix st path (st.fs.isdir path)

/-- `PermissionUpdateWorker.run`, with `fuel` for each `fast_scan`. -/
def run (w : PermissionUpdateWorker) (platform : Platform) (cancelAt : Option Nat)
    (fs : PosixFS) (fuel : Nat) : Option PermOutcome :=
  (collectItems fs fuel w.rootPaths).map fun items =>
    let doneMsg := "Permissions updated for " ++ toString w.rootPaths.length ++ " top-level path(s)."
    match platform with
    | .posix => itemLoop posixItem items.length cancelAt doneMsg 0 items ⟨fs, [], [], []⟩
    | .windows => itemLoop (fun st _ => st) items.length cancelAt doneMsg 0 items
        (w.rootPaths.foldl setPermsWindows ⟨fs, [], [], []⟩)

end PermissionUpdateWorker

end SakUtility
