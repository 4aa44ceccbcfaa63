import SakUtility.Posix.Write
import SakUtility.Organize.Suffix

/-!
# The organize action

`organize_directory` after its dialogs: `ensure_logs_dir(path)`, the answer, the check that the
folder is still there, `new_log_file(path, "organize")`, and the loop over `os.listdir(path)`
that moves each entry that is not a directory into the folder named by its extension.
`os.makedirs` raising ends the run; `shutil.move` raising is logged, after whatever it did. The
time stamp, the new modes and `str(e)` are inputs, and `fuel` bounds the existence checks.
-/

namespace SakUtility

set_option autoImplicit false

namespace PosixFS

variable (fs : PosixFS)

/-- `ensure_logs_dir(root_dir)`: the folder `_logs` made and returned. -/
def ensureLogsDir (rootDir : Path) (dirMode : Nat) : Except OSError (PosixFS × Path) :=
  (fs.makedirs (rootDir.join (.ofName "_logs")) dirMode).map fun fs' =>
    (fs', rootDir.join (.ofName "_logs"))

/-- `new_log_file(root_dir, prefix)`, `ts` being the time stamp. -/
def newLogFile (rootDir : Path) (pre ts : String) (dirMode : Nat) :
    Except OSError (PosixFS × Path) :=
  (fs.ensureLogsDir rootDir dirMode).map fun r => (r.1, r.2.join (.ofName (pre ++ "_" ++ ts ++ ".log")))

end PosixFS

/-- How a run of `organize_directory` ends: no confirmation, the warning that the folder is
gone, the message with the number of files moved, or an exception. -/
inductive Outcome
  | notConfirmed
  | missing
  | done (movedCount : Nat)
  | raised (e : OSError)
  deriving DecidableEq, Repr

/-- The file system a run leaves, how it ends, and the moves its log records, in order. -/
structure OrganizeRun where
  fs : PosixFS
  outcome : Outcome
  moved : List (Path × Path)

/-- `dest_folder = os.path.join(path, extension)`; for an empty extension that is `path/`,
the folder itself. -/
def destFolder (path : Path) (extension : String) : Path :=
  if extension = "" then path else path.join (.ofName extension)

/-- The log line `f"MOVED {file_path} -> {dest_file_path}"`. -/
def movedLine (filePath destFilePath : Path) : String :=
  "MOVED " ++ String.mk filePath.chars ++ " -> " ++ String.mk destFilePath.chars

/-- The log line `f"ERROR moving {file_path}: {e}"`. -/
def errorLine (errorText : OSError → String) (filePath : Path) (e : OSError) : String :=
  "ERROR moving " ++ String.mk filePath.chars ++ ": " ++ errorText e

section Loop

variable (path logFile : Path) (dirMode fileMode fuel : Nat) (errorText : OSError → String)

/-- The loop of `organize_directory` over the names `os.listdir(path)` gave, with the moves
logged so far. -/
def organizeLoop : List String → PosixFS → List (Path × Path) → Option OrganizeRun
  | [], fs, moved => some ⟨fs, .done moved.length, moved⟩
  | file :: rest, fs, moved =>
    if fs.isdir (path.join (.ofName file)) then organizeLoop rest fs moved
    else
      match fs.makedirs (destFolder path (organizeSplit file).2) dirMode with
      | .error e => some ⟨fs, .raised e, moved⟩
      | .ok fs1 =>
        match organizeDestination fs1.pathExists fuel (destFolder path (organizeSplit file).2)
            file with
        | none => none
        | some (destFilePath, _) =>
          match fs1.move (path.join (.ofName file)) destFilePath fileMode with
          | (fs2, none) =>
            organizeLoop rest
              (fs2.logLine logFile (movedLine (path.join (.ofName file)) destFilePath) fileMode)
              (moved ++ [(path.join (.ofName file), destFilePath)])
          | (fs2, some e) =>
            organizeLoop rest
              (fs2.logLine logFile (errorLine errorText (path.join (.ofName file)) e) fileMode) moved

end Loop

/-- `organize_directory` for the folder `path`, the answer `confirmed` and the time stamp
`ts`. -/
def organizeDirectory (fs : PosixFS) (path : Path) (confirmed : Bool) (ts : String)
    (dirMode fileMode fuel : Nat) (errorText : OSError → String) : Option OrganizeRun :=
  match fs.ensureLogsDir path dirMode with
  | .error e => some ⟨fs, .raised e, []⟩
  | .ok (fs1, _) =>
    if !confirmed then some ⟨fs1, .notConfirmed, []⟩
    else if !fs1.pathExists path then some ⟨fs1, .missing, []⟩
    else
      match fs1.newLogFile path "organize" ts dirMode with
      | .error e => some ⟨fs1, .raised e, []⟩
      | .ok (fs2, logFile) =>
        match fs2.listdir path with
        | .error e => some ⟨fs2, .raised e, []⟩
        | .ok names => organizeLoop path logFile dirMode fileMode fuel errorText names fs2 []

/-- `/d` holding the files `a.` and `NoExtension`. -/
def noExtensionTree : PosixFS := PosixFS.ofInodes
  [⟨.dir [("d", 1)], 0o755⟩, ⟨.dir [("a.", 2), ("NoExtension", 3)], 0o755⟩,
    ⟨.file "x", 0o644⟩, ⟨.file "y", 0o644⟩] 0 0 (by decide)

/-- The extension of `a.` is empty, so it is renamed to `/d/a_1.` in `/d` itself; then
`os.makedirs("/d/NoExtension", exist_ok=True)` raises on the file `NoExtension`. -/
theorem organizeDirectory_noExtension_raises (errorText : OSError → String) :
    destFolder ⟨true, ["d"]⟩ (organizeSplit "a.").2 = ⟨true, ["d"]⟩ ∧
    (organizeDirectory noExtensionTree ⟨true, ["d"]⟩ true "T" 0o755 0o644 3 errorText).map
      (fun r => (r.outcome, r.moved, r.fs.resolve ⟨true, ["d", "a_1."]⟩,
        r.fs.resolve ⟨true, ["d", "NoExtension"]⟩)) =
      some (.raised .fileExists, [(⟨true, ["d", "a."]⟩, ⟨true, ["d", "a_1."]⟩)], some 2, some 3) :=
  ⟨by decide, rfl⟩

end SakUtility
