import Mathlib.Data.List.Basic

/-!
# Paths as `os.path` handles them

A path is its list of components and whether it is absolute; `join` keeps the rule
of `os.path.join` that an absolute second argument discards the first. The paths of
this tool never carry `.` or `..` components, so `normpath` is not modelled.
Python's `str` methods act on the rendered path, a list of characters.
-/

namespace SakUtility

set_option autoImplicit false

/-- A path: absolute or relative, and its components. -/
structure Path where
  isabs : Bool
  parts : List String
  deriving DecidableEq, Repr

namespace Path

/-- `os.path.join(a, b)`. -/
def join (a b : Path) : Path :=
  if b.isabs then b else ⟨a.isabs, a.parts ++ b.parts⟩

/-- A single relative component, as an entry name is. -/
def ofName (name : String) : Path := ⟨false, [name]⟩

/-- `os.path.basename`. -/
def basename (p : Path) : String := p.parts.getLast?.getD ""

/-- `os.path.dirname`. -/
def dirname (p : Path) : Path := ⟨p.isabs, p.parts.dropLast⟩

/-- `os.path.abspath` against the working directory `cwd`. -/
def abspath (cwd p : Path) : Path := if p.isabs then p else cwd.join p

/-- Length of `os.path.commonprefix` of two component lists. -/
def commonPrefixLength : List String → List String → Nat
  | a :: as, b :: bs => if a = b then commonPrefixLength as bs + 1 else 0
  | _, _ => 0

/-- `posixpath.relpath(path, start)`. -/
def relpath (cwd path start : Path) : Path :=
  let s := (abspath cwd start).parts
  let p := (abspath cwd path).parts
  let i := commonPrefixLength s p
  let rel := List.replicate (s.length - i) ".." ++ p.drop i
  if rel = [] then ⟨false, ["."]⟩ else ⟨false, rel⟩

/-- The path as the string `os.path` returns, character by character. -/
def chars (p : Path) : List Char :=
  (if p.isabs then ['/'] else []) ++ ("/".intercalate p.parts).toList

@[simp] theorem join_of_isabs (a b : Path) (h : b.isabs = true) : a.join b = b := by
  simp [join, h]

@[simp] theorem join_ofName (a : Path) (name : String) :
    a.join (ofName name) = ⟨a.isabs, a.parts ++ [name]⟩ := rfl

@[simp] theorem basename_join_ofName (a : Path) (name : String) :
    (a.join (ofName name)).basename = name := by simp [basename]

@[simp] theorem dirname_join_ofName (a : Path) (name : String) :
    (a.join (ofName name)).dirname = a := by simp [dirname]

theorem join_ofName_injective {a b : Path} {m n : String}
    (h : a.join (ofName m) = b.join (ofName n)) : a = b ∧ m = n := by
  simp only [join_ofName, mk.injEq] at h
  obtain ⟨habs, hparts⟩ := h
  obtain ⟨hp, hn⟩ := List.append_inj hparts (by simpa using congrArg List.length hparts)
  exact ⟨by cases a; cases b; simp_all, by simpa using hn⟩

theorem commonPrefixLength_append (s t : List String) :
    commonPrefixLength s (s ++ t) = s.length := by
  induction s with
  | nil => cases t <;> rfl
  | cons a s ih => simp [commonPrefixLength, ih]

theorem relpath_append (cwd start : Path) (t : List String) (hs : start.isabs = true)
    (ht : t ≠ []) : relpath cwd ⟨true, start.parts ++ t⟩ start = ⟨false, t⟩ := by
  simp [relpath, abspath, hs, commonPrefixLength_append, ht]

end Path

/-- `str.lower` on ASCII text. Python lowers other letters by Unicode's case tables, which
the model does not carry: the functions that lower a file, pattern or value name take the
mapping as a parameter `lower`, and this is the instance their concrete runs use. -/
def asciiLower (s : List Char) : List Char := s.map Char.toLower

/-- `str.endswith`. -/
def endswith (s suffix : List Char) : Bool := suffix.isSuffixOf s

/-- `str.lstrip(c)`. -/
def lstrip (c : Char) (s : List Char) : List Char := s.dropWhile (· == c)

end SakUtility
