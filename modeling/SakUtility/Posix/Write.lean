import SakUtility.Posix.Unlink

/-!
# Writing to the file system

`os.makedirs(p, exist_ok=True)` over `os.mkdir`, `os.rename`, `shutil.move` with its fallbacks
(`shutil.copy2` then `os.unlink`, or a new link for a link), and the appends of `log_line`. A new
inode goes at the end of the table, and setting an entry drops any entry of that name first.
The modes of new inodes are parameters; a call that raises gives its `OSError`, and renaming a
directory raises `unsupported`.
-/

namespace SakUtility

set_option autoImplicit false

/-- The `OSError` subclasses the modelled calls raise (`shutil.Error` and `SameFileError`
are among them). -/
inductive OSError
  | fileExists
  | permission
  | fileNotFound
  | notADirectory
  | isADirectory
  | sameFile
  | destinationExists
  | unsupported
  deriving DecidableEq, Repr

/-- Directory inode `x` with the entry `name` leading to `ino`, in place of any entry of that
name. -/
def Inode.setEntry (name : String) (ino : Nat) (x : Inode) : Inode :=
  match x.node with
  | .dir es => { x with node := .dir (es.filter (·.1 != name) ++ [(name, ino)]) }
  | _ => x

/-- File inode `x` with its content changed by `f`. -/
def Inode.setContent (f : String → String) (x : Inode) : Inode :=
  match x.node with
  | .file c => { x with node := .file (f c) }
  | _ => x

namespace PosixFS

variable (fs : PosixFS)

/-- The table with `x` added at its end, as inode `fs.inodes.length`. -/
def push (x : Inode) (hx : x.entriesNodup = true) : PosixFS where
  inodes := fs.inodes ++ [x]
  root := fs.root
  cwd := fs.cwd
  chmodable i := i == fs.inodes.length || fs.chmodable i
  entries_nodup i es m h := by
    rcases Nat.lt_or_ge i fs.inodes.length with hi | hi
    · rw [List.getElem?_append_left hi] at h
      exact fs.entries_nodup i es m h
    · rw [List.getElem?_append_right hi] at h
      obtain rfl : x = ⟨.dir es, m⟩ := by
        cases hk : i - fs.inodes.length <;> simp_all
      simpa [Inode.entriesNodup] using hx

/-- The table with entry `name` of directory `d` leading to `ino`. -/
def setEntry (d : Nat) (name : String) (ino : Nat) : PosixFS where
  inodes := fs.inodes.modify (Inode.setEntry name ino) d
  root := fs.root
  cwd := fs.cwd
  chmodable := fs.chmodable
  entries_nodup i es m h := by
    rw [List.getElem?_modify] at h
    split at h
    · obtain ⟨⟨node, m'⟩, hi, he⟩ := Option.map_eq_some'.mp h
      cases node with
      | dir es' =>
        cases he
        rw [List.map_append]
        refine ((fs.entries_nodup _ es' m' hi).sublist ((List.filter_sublist _).map _)).append
          (List.nodup_singleton _) ?_
        simp [List.disjoint_singleton]
      | file c => cases he
      | symlink t => cases he
    · exact fs.entries_nodup i es m (by simpa using h)

/-- The table with the content of file `i` changed by `f`. -/
def setContent (i : Nat) (f : String → String) : PosixFS where
  inodes := fs.inodes.modify (Inode.setContent f) i
  root := fs.root
  cwd := fs.cwd
  chmodable := fs.chmodable
  entries_nodup j es m h := by
    rw [List.getElem?_modify] at h
    split at h
    · obtain ⟨⟨node, m'⟩, hi, he⟩ := Option.map_eq_some'.mp h
      cases node with
      | dir es' =>
        cases he
        exact fs.entries_nodup _ _ _ hi
      | file c => cases he
      | symlink t => cases he
    · exact fs.entries_nodup j es m (by simpa using h)

/-- A new inode `x` under the name `name` of directory `d`. -/
def create (d : Nat) (name : String) (x : Inode) (hx : x.entriesNodup = true) : PosixFS :=
  (fs.push x hx).setEntry d name fs.inodes.length

/-- `os.path.exists(p)`. -/
def pathExists (p : Path) : Bool := (fs.resolve p).isSome

/-- `os.listdir(p)`: the names in a readable and searchable directory. -/
def listdir (p : Path) : Except OSError (List String) :=
  match fs.resolve p with
  | some ino =>
    match fs.get? ino with
    | some ⟨.dir es, m⟩ =>
      if canRead m && canSearch m then .ok (es.map (·.1)) else .error .permission
    | some _ => .error .notADirectory
    | none => .error .fileNotFound
  | none => .error .fileNotFound

/-- The inode the last component of `p` names, not followed (`os.lstat`). -/
def lookupLast (p : Path) : Option Nat :=
  match p.parts.getLast?, fs.resolve p.dirname with
  | some name, some d => fs.child d name
  | _, _ => none

/-- `os.path.islink(p)`. -/
def islink (p : Path) : Bool :=
  match (fs.lookupLast p).bind fs.get? with
  | some ⟨.symlink _, _⟩ => true
  | _ => false

/-- `os.readlink(p)`. -/
def readlink (p : Path) : Option Path :=
  match (fs.lookupLast p).bind fs.get? with
  | some ⟨.symlink t, _⟩ => some t
  | _ => none

/-- `os.mkdir(p)` and `os.symlink(target, p)`: the new inode `x` under the last component
of `p`, in a searchable and writable directory that does not list it yet. -/
def makeNode (p : Path) (x : Inode) (hx : x.entriesNodup = true) : Except OSError PosixFS :=
  match p.parts.getLast?, fs.resolve p.dirname with
  | none, _ => .error (if p.isabs then .fileExists else .fileNotFound)
  | some _, none => .error .fileNotFound
  | some name, some d =>
    match fs.get? d with
    | some ⟨.dir es, m⟩ =>
      if !canSearch m then .error .permission
      else if (es.lookup name).isSome then .error .fileExists
      else if !canWrite m then .error .permission
      else .ok (fs.create d name x hx)
    | some _ => .error .notADirectory
    | none => .error .fileNotFound

/-- `os.mkdir(p, mode)`. -/
def mkdir (p : Path) (mode : Nat) : Except OSError PosixFS := fs.makeNode p ⟨.dir [], mode⟩ rfl

/-- `os.symlink(target, p)`. -/
def symlink (target p : Path) : Except OSError PosixFS :=
  fs.makeNode p ⟨.symlink target, 0o777⟩ rfl

/-- `os.mkdir(p, mode)` in `os.makedirs(exist_ok=True)`: an error is ignored when `p` is a
directory. -/
def mkdirExistOk (p : Path) (mode : Nat) : Except OSError PosixFS :=
  match fs.mkdir p mode with
  | .ok fs' => .ok fs'
  | .error e => if fs.isdir p then .ok fs else .error e

end PosixFS

/-- `os.makedirs(p, mode, exist_ok=True)` for the path of `isabs` and the components
`revParts`, the last first: the parent first when it does not exist, ignoring a
`FileExistsError` from it, then `os.mkdir`. -/
def makedirsRev (isabs : Bool) (mode : Nat) : PosixFS → List String → Except OSError PosixFS
  | fs, [] => fs.mkdirExistOk ⟨isabs, []⟩ mode
  | fs, name :: headRev =>
    let parent : Except OSError PosixFS :=
      if (isabs || !headRev.isEmpty) && !fs.pathExists ⟨isabs, headRev.reverse⟩ then
        match makedirsRev isabs mode fs headRev with
        | .error .fileExists => .ok fs
        | r => r
      else .ok fs
    parent.bind fun fs' => fs'.mkdirExistOk ⟨isabs, (name :: headRev).reverse⟩ mode

namespace PosixFS

variable (fs : PosixFS)

/-- `os.makedirs(p, mode, exist_ok=True)`. -/
def makedirs (p : Path) (mode : Nat) : Except OSError PosixFS :=
  makedirsRev p.isabs mode fs p.parts.reverse

/-- `os.rename(src, dst)` for a source that is not a directory: the entry moves to the new
name in place of a non-directory there, in two searchable and writable directories; two
names of one file are left as they are. -/
def rename (src dst : Path) : Except OSError PosixFS :=
  match src.parts.getLast?, dst.parts.getLast?, fs.resolve src.dirname, fs.resolve dst.dirname with
  | some s, some t, some ds, some dd =>
    match fs.get? ds, fs.get? dd with
    | some ⟨.dir es, ms⟩, some ⟨.dir et, mt⟩ =>
      if !(canSearch ms && canSearch mt) then .error .permission
      else
        match es.lookup s with
        | none => .error .fileNotFound
        | some i =>
          if fs.entryIsDir i = some true then .error .unsupported
          else
            match et.lookup t with
            | some j =>
              if i = j then .ok fs
              else if fs.entryIsDir j = some true then .error .isADirectory
              else if !(canWrite ms && canWrite mt) then .error .permission
              else .ok ((fs.unlink ds s).setEntry dd t i)
            | none =>
              if !(canWrite ms && canWrite mt) then .error .permission
              else .ok ((fs.unlink ds s).setEntry dd t i)
    | _, _ => .error .notADirectory
  | _, _, _, _ => .error .fileNotFound

/-- `open(p, mode)` for writing, then the write: `f` gives the new content from the old one,
`none` for a new file. Links are followed; a missing last component is created, with mode
`fileMode`, in the searchable and writable directory it belongs to. -/
def openWith (p : Path) (f : Option String → String) (fileMode : Nat) : Except OSError PosixFS :=
  match fs.realpath p with
  | (i, []) =>
    match fs.get? i with
    | some ⟨.file c, m⟩ =>
      if canWrite m then .ok (fs.setContent i fun _ => f (some c)) else .error .permission
    | some ⟨.dir _, _⟩ => .error .isADirectory
    | _ => .error .fileNotFound
  | (d, [name]) =>
    match fs.get? d with
    | some ⟨.dir _, m⟩ =>
      if canWrite m && canSearch m then .ok (fs.create d name ⟨.file (f none), fileMode⟩ rfl)
      else .error .permission
    | _ => .error .fileNotFound
  | _ => .error .fileNotFound

/-- `os.unlink(p)`. -/
def unlinkE (p : Path) : Except OSError PosixFS :=
  match fs.remove p with
  | some fs' => .ok fs'
  | none => .error .permission

/-- `shutil.copy2(src, dst)`: to `dst`, or to the name of `src` in it when it is a directory;
`SameFileError` when both name one file; the bytes, then the mode, of `src`. -/
def copy2 (src dst : Path) (fileMode : Nat) : Except OSError PosixFS :=
  let dst := if fs.isdir dst then dst.join (.ofName src.basename) else dst
  match fs.resolve src with
  | none => .error .fileNotFound
  | some i =>
    if fs.resolve dst = some i then .error .sameFile
    else
      match fs.get? i with
      | some ⟨.file c, m⟩ =>
        if !canRead m then .error .permission
        else
          (fs.openWith dst (fun _ => c) fileMode).bind fun fs' =>
            match fs'.resolve dst with
            | some j => .ok (fs'.setMode j m)
            | none => .error .fileNotFound
      | some ⟨.dir _, _⟩ => .error .isADirectory
      | _ => .error .fileNotFound

/-- `os.unlink(src)` at the end of `shutil.move`: what it leaves, the new name staying when it
raises. -/
def unlinkAfter (src : Path) : PosixFS × Option OSError :=
  match fs.unlinkE src with
  | .ok fs' => (fs', none)
  | .error e => (fs, some e)

/-- The `os.rename(src, real_dst)` of `shutil.move`, and when it raises, a new link for a
link or `copy2` for a file, then `os.unlink(src)`: the file system it leaves and what it
raises. -/
def moveTo (src realDst : Path) (fileMode : Nat) : PosixFS × Option OSError :=
  match fs.rename src realDst with
  | .ok fs' => (fs', none)
  | .error _ =>
    if fs.islink src then
      match fs.readlink src with
      | some t =>
        match fs.symlink t realDst with
        | .ok fs' => fs'.unlinkAfter src
        | .error e => (fs, some e)
      | none => (fs, some .fileNotFound)
    else if fs.isdir src then (fs, some .unsupported)
    else
      match fs.copy2 src realDst fileMode with
      | .ok fs' => fs'.unlinkAfter src
      | .error e => (fs, some e)

/-- `shutil.move(src, dst)`: into a directory `dst` under the name of `src`, unless that name
exists there or `dst` is `src` itself. -/
def move (src dst : Path) (fileMode : Nat) : PosixFS × Option OSError :=
  if fs.isdir dst then
    if (fs.resolve src).isSome && fs.resolve src = fs.resolve dst && !fs.islink src then
      match fs.rename src dst with
      | .ok fs' => (fs', none)
      | .error e => (fs, some e)
    else if fs.pathExists (dst.join (.ofName src.basename)) then (fs, some .destinationExists)
    else fs.moveTo src (dst.join (.ofName src.basename)) fileMode
  else fs.moveTo src dst fileMode

/-- `log_line(path, text)`: `text` without its trailing newlines and one newline at the end
of the file, created when missing; a failure is ignored. -/
def logLine (logFile : Path) (text : String) (fileMode : Nat) : PosixFS :=
  match fs.openWith logFile
      (fun old => old.getD "" ++ ⟨(text.data.reverse.dropWhile (· == '\n')).reverse⟩ ++ "\n")
      fileMode with
  | .ok fs' => fs'
  | .error _ => fs

/-! ### What each change leaves -/

@[simp] theorem get?_push (x : Inode) (hx : x.entriesNodup = true) (i : Nat) :
    (fs.push x hx).get? i = if i = fs.inodes.length then some x else fs.get? i := by
  simp only [get?, push]
  rcases Nat.lt_trichotomy i fs.inodes.length with hi | rfl | hi
  · rw [List.getElem?_append_left hi, if_neg hi.ne]
  · simp
  · rw [List.getElem?_append_right hi.le, if_neg hi.ne', List.getElem?_eq_none hi.le]
    exact List.getElem?_eq_none (by simp; omega)

@[simp] theorem get?_setEntry (d : Nat) (name : String) (ino i : Nat) :
    (fs.setEntry d name ino).get? i =
      (fs.get? i).map fun x => if d = i then x.setEntry name ino else x := by
  simp [get?, setEntry, List.getElem?_modify]

@[simp] theorem get?_setContent (j : Nat) (f : String → String) (i : Nat) :
    (fs.setContent j f).get? i = (fs.get? i).map fun x => if j = i then x.setContent f else x := by
  simp [get?, setContent, List.getElem?_modify]

@[simp] theorem root_push (x : Inode) (hx : x.entriesNodup = true) : (fs.push x hx).root = fs.root :=
  rfl
@[simp] theorem root_setEntry (d : Nat) (name : String) (ino : Nat) :
    (fs.setEntry d name ino).root = fs.root := rfl
@[simp] theorem root_setContent (j : Nat) (f : String → String) : (fs.setContent j f).root = fs.root :=
  rfl
@[simp] theorem root_unlink (d : Nat) (name : String) : (fs.unlink d name).root = fs.root := rfl
@[simp] theorem cwd_push (x : Inode) (hx : x.entriesNodup = true) : (fs.push x hx).cwd = fs.cwd := rfl
@[simp] theorem cwd_setEntry (d : Nat) (name : String) (ino : Nat) :
    (fs.setEntry d name ino).cwd = fs.cwd := rfl
@[simp] theorem cwd_setContent (j : Nat) (f : String → String) : (fs.setContent j f).cwd = fs.cwd :=
  rfl
@[simp] theorem cwd_unlink (d : Nat) (name : String) : (fs.unlink d name).cwd = fs.cwd := rfl
@[simp] theorem length_push (x : Inode) (hx : x.entriesNodup = true) :
    (fs.push x hx).inodes.length = fs.inodes.length + 1 := by simp [push]
@[simp] theorem length_setEntry (d : Nat) (name : String) (ino : Nat) :
    (fs.setEntry d name ino).inodes.length = fs.inodes.length := by simp [setEntry]
@[simp] theorem length_setContent (j : Nat) (f : String → String) :
    (fs.setContent j f).inodes.length = fs.inodes.length := by simp [setContent]
@[simp] theorem length_unlink (d : Nat) (name : String) :
    (fs.unlink d name).inodes.length = fs.inodes.length := by simp [unlink]

/-- Setting the mode of the inode `create` has just made is making it with that mode. -/
theorem create_setMode_new {d : Nat} (hd : d < fs.inodes.length) (n : String) (x : Inode)
    (hx : x.entriesNodup = true) (m : Nat) :
    (fs.create d n x hx).setMode fs.inodes.length m = fs.create d n { x with mode := m } hx := by
  refine ext (List.ext_getElem? fun i => ?_) rfl rfl rfl
  show ((fs.create d n x hx).setMode fs.inodes.length m).get? i =
    (fs.create d n { x with mode := m } hx).get? i
  simp only [create, get?_setMode, get?_setEntry, get?_push]
  by_cases hi : i = fs.inodes.length
  · subst hi
    simp [hd.ne]
  · simp [hi, Ne.symm hi, Function.comp_def]

end PosixFS

end SakUtility
