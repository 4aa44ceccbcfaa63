import SakUtility.Scan.Walker

/-!
# A POSIX file system of inodes

The calls the tool makes on POSIX, over a table of inodes, each a regular file, a directory or
a symbolic link (there are no FIFOs, sockets or device nodes). The owner bits of the mode decide
each access, and `os.chmod` succeeds only on the inodes the user may change (`EPERM`, `EROFS`).
Links are followed everywhere but by `os.remove` and `DirEntry.is_dir(follow_symlinks=False)`,
each expansion using one unit of a budget of `maxSymlinks`; link targets have no `..`.
-/

namespace SakUtility

set_option autoImplicit false

/-- What an inode holds. -/
inductive Node
  | file (content : String)
  | dir (entries : List (String × Nat))
  | symlink (target : Path)
  deriving DecidableEq, Repr

/-- An inode: what it holds and its permission bits. -/
structure Inode where
  node : Node
  mode : Nat
  deriving DecidableEq, Repr

/-- Owner read, write and search (execute) bits. -/
def canRead (mode : Nat) : Bool := mode.testBit 8
def canWrite (mode : Nat) : Bool := mode.testBit 7
def canSearch (mode : Nat) : Bool := mode.testBit 6

/-- `MAXSYMLINKS` of the kernel. -/
def maxSymlinks : Nat := 40

/-- The inode table, the root directory, the working directory and the inodes whose mode
the user may change. A directory never lists a name twice. -/
structure PosixFS where
  inodes : List Inode
  root : Nat
  cwd : Nat
  chmodable : Nat → Bool
  entries_nodup : ∀ (i : Nat) (es : List (String × Nat)) (mode : Nat),
    inodes[i]? = some ⟨.dir es, mode⟩ → (es.map Prod.fst).Nodup

theorem PosixFS.ext {a b : PosixFS} (hi : a.inodes = b.inodes) (hr : a.root = b.root)
    (hc : a.cwd = b.cwd) (hm : a.chmodable = b.chmodable) : a = b := by
  cases a; cases b; subst hi hr hc hm; rfl

def Inode.entriesNodup (i : Inode) : Bool :=
  match i.node with
  | .dir es => decide (es.map Prod.fst).Nodup
  | _ => true

def Inode.dropEntry (name : String) (x : Inode) : Inode :=
  match x.node with
  | .dir es => { x with node := .dir (es.filter (·.1 != name)) }
  | _ => x

namespace PosixFS

/-- The file system of an inode table whose directories list no name twice, every inode
the user's own. -/
def ofInodes (inodes : List Inode) (root cwd : Nat) (h : inodes.all Inode.entriesNodup = true) :
    PosixFS where
  inodes := inodes
  root := root
  cwd := cwd
  chmodable _ := true
  entries_nodup i es m hi := by
    have := List.all_eq_true.mp h _ (List.getElem?_mem hi)
    simpa [Inode.entriesNodup] using this

variable (fs : PosixFS)

def get? (ino : Nat) : Option Inode := fs.inodes[ino]?

theorem get?_eq_none_of_le {i : Nat} (h : fs.inodes.length ≤ i) : fs.get? i = none :=
  List.getElem?_eq_none h

theorem lt_of_get?_eq_some {i : Nat} {x : Inode} (h : fs.get? i = some x) : i < fs.inodes.length :=
  (List.getElem?_eq_some_iff.mp h).1

/-- The inode `name` names in directory `cur`, when `cur` is a searchable directory. -/
def child (cur : Nat) (name : String) : Option Nat :=
  match fs.get? cur with
  | some ⟨.dir es, mode⟩ => if canSearch mode then es.lookup name else none
  | _ => none

/-- One component of `os.path.realpath`: from the inode reached and the components left
unresolved, resolve `name`; a link is resolved by `expand`. A component that cannot be
resolved is kept as it is, and so is every later one. -/
def stepName (expand : Nat → String → Path → Nat × List String) :
    Nat × List String → String → Nat × List String
  | (cur, []), name =>
    match fs.child cur name with
    | some ino =>
      match (fs.get? ino).map Inode.node with
      | some (.symlink target) => expand cur name target
      | some _ => (ino, [])
      | none => (cur, [name])
    | none => (cur, [name])
  | (cur, rest), name => (cur, rest ++ [name])

/-- The expansion of a link found in directory `cur`, with `n` expansions left. -/
def expand : Nat → Nat → String → Path → Nat × List String
  | 0, cur, name, _ => (cur, [name])
  | n + 1, cur, _, target =>
    target.parts.foldl (fs.stepName fun c nm t => expand n c nm t)
      (if target.isabs then fs.root else cur, [])

def start (p : Path) : Nat := if p.isabs then fs.root else fs.cwd

/-- `os.path.realpath(p)`: the inode reached and the components left unresolved. -/
def realpath (p : Path) : Nat × List String :=
  p.parts.foldl (fs.stepName (fs.expand maxSymlinks)) (fs.start p, [])

/-- The inode a path names, following links, when every component resolves. -/
def resolve (p : Path) : Option Nat :=
  match fs.realpath p with
  | (ino, []) => some ino
  | _ => none

/-- `DirEntry.is_dir(follow_symlinks=False)`, from the entry's own inode. -/
def entryIsDir (ino : Nat) : Option Bool :=
  (fs.get? ino).map fun i => match i.node with
    | .dir _ => true
    | _ => false

/-- `os.scandir(p)`: the entries of a readable and searchable directory. -/
def scandir (p : Path) : Option (List DirEntry) :=
  match fs.resolve p with
  | some ino =>
    match fs.get? ino with
    | some ⟨.dir es, mode⟩ =>
      if canRead mode && canSearch mode then some (es.map fun e => ⟨e.1, fs.entryIsDir e.2⟩)
      else none
    | _ => none
  | none => none

/-- `os.path.isdir(p)`. -/
def isdir (p : Path) : Bool :=
  match fs.resolve p with
  | some ino =>
    match fs.get? ino with
    | some ⟨.dir _, _⟩ => true
    | _ => false
  | none => false

/-- The table with the mode of `ino` set. -/
def setMode (ino mode : Nat) : PosixFS where
  inodes := fs.inodes.modify (fun i => { i with mode := mode }) ino
  root := fs.root
  cwd := fs.cwd
  chmodable := fs.chmodable
  entries_nodup i es m h := by
    rw [List.getElem?_modify] at h
    split at h
    · obtain ⟨⟨node, m'⟩, hi, he⟩ := Option.map_eq_some'.mp h
      cases he
      exact fs.entries_nodup _ es m' hi
    · exact fs.entries_nodup i es m (by simpa using h)

/-- `os.chmod(p, mode)`; `none` when it raises. -/
def chmod (p : Path) (mode : Nat) : Option PosixFS :=
  (fs.resolve p).bind fun ino => if fs.chmodable ino then some (fs.setMode ino mode) else none

/-- `os.path.getsize(p)`: a file's length; a directory's `st_size` is taken as 4096. -/
def getsize (p : Path) : Option Nat :=
  match fs.resolve p with
  | some ino =>
    match fs.get? ino with
    | some ⟨.file content, _⟩ => some content.length
    | some ⟨.dir _, _⟩ => some 4096
    | _ => none
  | none => none

/-- The table with the entry `name` of directory `d` unlinked. -/
def unlink (d : Nat) (name : String) : PosixFS where
  inodes := fs.inodes.modify (Inode.dropEntry name) d
  root := fs.root
  cwd := fs.cwd
  chmodable := fs.chmodable
  entries_nodup i es m h := by
    rw [List.getElem?_modify] at h
    split at h
    · obtain ⟨⟨node, m'⟩, hi, he⟩ := Option.map_eq_some'.mp h
      cases node with
      | dir es' =>
        cases he
        exact (fs.entries_nodup _ es' m' hi).sublist ((List.filter_sublist _).map _)
      | file c => cases he
      | symlink t => cases he
    · exact fs.entries_nodup i es m (by simpa using h)

/-- `os.remove(p)`: unlink a non-directory entry of a writable and searchable directory,
without following a link in the last component. -/
def remove (p : Path) : Option PosixFS :=
  match p.parts.getLast?, fs.resolve p.dirname with
  | some name, some d =>
    match fs.get? d with
    | some ⟨.dir es, mode⟩ =>
      if canWrite mode && canSearch mode then
        match es.lookup name with
        | some ino => if fs.entryIsDir ino = some true then none else some (fs.unlink d name)
        | none => none
      else none
    | _ => none
  | _, _ => none

/-- The bytes `open(p, "rb")` reads: a readable regular file. -/
def readFile (p : Path) : Option String :=
  match fs.resolve p with
  | some ino =>
    match fs.get? ino with
    | some ⟨.file content, mode⟩ => if canRead mode then some content else none
    | _ => none
  | none => none

/-- The file system as `fast_scan` queries it. -/
def toScanFS : ScanFS (Nat × List String) where
  realpath := fs.realpath
  scandir := fs.scandir
  scandir_nodup p es h := by
    unfold scandir at h
    split at h
    · split at h
      · split at h
        · cases h
          rename_i es' _ hget _
          simpa [List.map_map, Function.comp_def] using fs.entries_nodup _ es' _ hget
        · cases h
      · cases h
    · cases h

end PosixFS

end SakUtility
