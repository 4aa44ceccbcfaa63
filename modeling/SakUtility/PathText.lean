import SakUtility.Path

/-!
# `os.path` on the strings it returns

The functions of `posixpath` and `ntpath` (as of Python 3.12) whose results the tool builds
names and labels from, on `str` values, character by character. `splitext` follows
`genericpath._splitext`: the extension is the last dot of the last component and what follows
it, unless only dots stand before that dot in the component, so `.bashrc` has none and `a.`
has `.`. `ntpath` takes both `\\` and `/` as separators and splits off a drive (`C:` or a UNC
share) and a root before it looks at components; `str.upper`, and the `str.lower` of the
drives `ntpath.join` compares, are taken on ASCII letters.
-/

namespace SakUtility

set_option autoImplicit false

/-- `sys.platform.startswith("win")`. -/
inductive Platform
  | posix
  | windows
  deriving DecidableEq, Repr

namespace PathText

/-- `s and s[-1] not in seps`. -/
def lastNotIn (seps : Char → Bool) (s : String) : Bool :=
  match s.data.getLast? with
  | some c => !seps c
  | none => false

@[simp] theorem lastNotIn_empty (seps : Char → Bool) : lastNotIn seps "" = false := rfl

/-- `s.find(c, start)`, `none` for `-1`. -/
def findFrom (s : List Char) (c : Char) (start : Nat) : Option Nat :=
  ((s.drop start).findIdx? (· == c)).map (· + start)

/-- Read backwards, a string splits at the last character outside `P`. -/
theorem span_reverse_append {P : Char → Bool} (A B : List Char) {c : Char} (hc : P c = false)
    (hB : ∀ x ∈ B, P x = true) : (A ++ c :: B).reverse.span P = (B.reverse, c :: A.reverse) := by
  have hB' : ∀ x ∈ B.reverse, P x = true := fun x hx => hB x (List.mem_reverse.mp hx)
  simp only [List.span_eq_take_drop, List.reverse_append, List.reverse_cons, List.append_assoc,
    List.singleton_append, List.takeWhile_append_of_pos hB', List.dropWhile_append_of_pos hB']
  simp [hc]

/-! ### `posixpath` -/

/-- `posixpath.join(a, *p)`. -/
def posixJoin (a : String) (p : List String) : String :=
  p.foldl (fun path b =>
    if b.data.head? = some '/' then b
    else if lastNotIn (· == '/') path then path ++ "/" ++ b
    else path ++ b) a

/-- `posixpath.split(p)`: what precedes the last `/`, with its trailing slashes removed
unless it is all slashes, and what follows. -/
def posixSplit (p : String) : String × String :=
  let (tailRev, headRev) := p.data.reverse.span (· != '/')
  (⟨if headRev.all (· == '/') then headRev.reverse else (headRev.dropWhile (· == '/')).reverse⟩,
    ⟨tailRev.reverse⟩)

/-- `posixpath.split` at a last `/` that follows a character other than `/`. -/
theorem posixSplit_append (A B : List Char) (hA : ∃ c, A.getLast? = some c ∧ c ≠ '/')
    (hB : '/' ∉ B) : posixSplit ⟨A ++ '/' :: B⟩ = (⟨A⟩, ⟨B⟩) := by
  obtain ⟨c, hc, hc'⟩ := hA
  obtain ⟨A', rfl⟩ : ∃ A', A = A' ++ [c] := ⟨A.dropLast, (List.dropLast_append_getLast? c hc).symm⟩
  have hsp := span_reverse_append (P := (· != '/')) (A' ++ [c]) B (c := '/') (by simp)
    (fun x hx => by simpa using ne_of_mem_of_not_mem hx hB)
  simp only [posixSplit, hsp]
  simp [hc']

theorem posixJoin_single (a s : String) (ha : lastNotIn (· == '/') a = true)
    (hs : s.data.head? ≠ some '/') : posixJoin a [s] = a ++ "/" ++ s := by
  simp [posixJoin, ha, hs]

/-! ### `ntpath` -/

/-- `c in "\\/"`. -/
def ntSep (c : Char) : Bool := c == '\\' || c == '/'

/-- `ntpath.splitroot(p)`: the drive, the root and the rest. -/
def ntSplitroot (p : String) : String × String × String :=
  let normp := p.data.map fun c => if c = '/' then '\\' else c
  match normp with
  | '\\' :: '\\' :: _ =>
    let start := if (normp.take 8).map Char.toUpper = "\\\\?\\UNC\\".data then 8 else 2
    match findFrom normp '\\' start with
    | none => (p, "", "")
    | some index =>
      match findFrom normp '\\' (index + 1) with
      | none => (p, "", "")
      | some index2 =>
        (⟨p.data.take index2⟩, ⟨(p.data.drop index2).take 1⟩, ⟨p.data.drop (index2 + 1)⟩)
  | '\\' :: _ => ("", ⟨p.data.take 1⟩, ⟨p.data.drop 1⟩)
  | _ :: ':' :: '\\' :: _ => (⟨p.data.take 2⟩, ⟨(p.data.drop 2).take 1⟩, ⟨p.data.drop 3⟩)
  | _ :: ':' :: _ => (⟨p.data.take 2⟩, "", ⟨p.data.drop 2⟩)
  | _ => ("", "", p)

/-- `result_path + sep` unless it is empty or ends with a separator, then `p_path`. -/
def ntAppend (resultPath pPath : String) : String :=
  (if lastNotIn ntSep resultPath then resultPath ++ "\\" else resultPath) ++ pPath

/-- One pass of the loop of `ntpath.join` on `(result_drive, result_root, result_path)`. -/
def ntJoinStep (acc : String × String × String) (p : String) : String × String × String :=
  let (resultDrive, resultRoot, resultPath) := acc
  let (pDrive, pRoot, pPath) := ntSplitroot p
  if pRoot ≠ "" then
    (if pDrive ≠ "" ∨ resultDrive = "" then pDrive else resultDrive, pRoot, pPath)
  else if pDrive ≠ "" ∧ pDrive ≠ resultDrive then
    if asciiLower pDrive.data ≠ asciiLower resultDrive.data then (pDrive, pRoot, pPath)
    else (pDrive, resultRoot, ntAppend resultPath pPath)
  else (resultDrive, resultRoot, ntAppend resultPath pPath)

/-- `ntpath.join(path, *paths)`, with the separator it adds between a UNC drive and a
relative path. -/
def ntJoin (path : String) (paths : List String) : String :=
  let (d, r, rp) := paths.foldl ntJoinStep (ntSplitroot path)
  if rp ≠ "" ∧ r = "" ∧ lastNotIn (fun c => c == ':' || ntSep c) d then d ++ "\\" ++ rp
  else d ++ r ++ rp

/-- `ntpath.split(p)`: drive and root, then the rest split at its last separator, the head
with its trailing separators removed. -/
def ntSplit (p : String) : String × String :=
  let (d, r, rest) := ntSplitroot p
  let (tailRev, headRev) := rest.data.reverse.span (fun c => !ntSep c)
  (d ++ r ++ ⟨(headRev.dropWhile ntSep).reverse⟩, ⟨tailRev.reverse⟩)

theorem ntSplitroot_drive (t : List Char) :
    ntSplitroot ⟨'C' :: ':' :: '\\' :: t⟩ = ("C:", "\\", ⟨t⟩) := rfl

/-- A string with no separator first and no drive colon second has no drive and no root. -/
theorem ntSplitroot_relative (s : String) (h0 : ∀ c ∈ s.data.head?, ntSep c = false)
    (h1 : s.data[1]? ≠ some ':') : ntSplitroot s = ("", "", s) := by
  obtain ⟨l⟩ := s
  unfold ntSplitroot
  match l, h0, h1 with
  | [], _, _ => rfl
  | [c], h0, _ =>
    have : c ≠ '\\' ∧ c ≠ '/' := by simpa [ntSep] using h0
    simp [this]
  | c :: d :: l, h0, h1 =>
    have : c ≠ '\\' ∧ c ≠ '/' := by simpa [ntSep] using h0
    have hd : d ≠ ':' := by simpa using h1
    by_cases hd' : d = '/' <;> simp [this, hd, hd']

/-- `ntpath.split` of a path on drive `C:` with a root, at a last separator that follows a
character other than a separator. -/
theorem ntSplit_drive (A B : List Char) (hA : ∃ c, A.getLast? = some c ∧ ntSep c = false)
    (hB : ∀ x ∈ B, ntSep x = false) :
    ntSplit ⟨'C' :: ':' :: '\\' :: (A ++ '\\' :: B)⟩ = (⟨'C' :: ':' :: '\\' :: A⟩, ⟨B⟩) := by
  obtain ⟨c, hc, hc'⟩ := hA
  obtain ⟨A', rfl⟩ : ∃ A', A = A' ++ [c] := ⟨A.dropLast, (List.dropLast_append_getLast? c hc).symm⟩
  have hsp := span_reverse_append (P := fun x => !ntSep x) (A' ++ [c]) B (c := '\\') rfl
    (fun x hx => by simp [hB x hx])
  simp only [ntSplit, ntSplitroot_drive, hsp]
  simp [List.dropWhile_cons, show ntSep '\\' = true from rfl, hc', String.ext_iff]

/-- `ntpath.join` of a rooted path on drive `C:` and one relative name. -/
theorem ntJoin_drive_single (A : List Char) (hA : ∃ c, A.getLast? = some c ∧ ntSep c = false)
    (s : String) (h0 : ∀ c ∈ s.data.head?, ntSep c = false) (h1 : s.data[1]? ≠ some ':') :
    ntJoin ⟨'C' :: ':' :: '\\' :: A⟩ [s] = ⟨'C' :: ':' :: '\\' :: (A ++ '\\' :: s.data)⟩ := by
  obtain ⟨c, hc, hc'⟩ := hA
  have hlast : lastNotIn ntSep ⟨A⟩ = true := by simp [lastNotIn, hc, hc']
  simp [ntJoin, ntSplitroot_drive, ntJoinStep, ntSplitroot_relative s h0 h1, ntAppend, hlast,
    String.ext_iff]

example : ntJoin "C:\\\\Users" ["u\\Documents"] = "C:\\\\Users\\u\\Documents" ∧
    ntSplit "C:\\\\Users\\u\\Documents" = ("C:\\\\Users\\u", "Documents") ∧
    ntJoin "\\\\srv\\share" ["x"] = "\\\\srv\\share\\x" ∧ ntJoin "C:a" ["D:\\b", "c"] = "D:\\b\\c" ∧
    posixJoin "/Users" ["u/Movies"] = "/Users/u/Movies" ∧ posixSplit "//a//b" = ("//a", "b") ∧
    posixSplit "//b" = ("//", "b") := by
  decide


/-- `os.path.splitext(p)`, reading `p` backwards: the characters after the last `.` or
`/`, and what stands before. -/
def splitext (p : String) : String × String :=
  match p.data.reverse.span (fun c => c != '.' && c != '/') with
  | (extRev, '.' :: beforeRev) =>
    if (beforeRev.takeWhile (· != '/')).any (· != '.') then
      (⟨beforeRev.reverse⟩, ⟨'.' :: extRev.reverse⟩)
    else (p, "")
  | _ => (p, "")

example : splitext "a.tar.gz" = ("a.tar", ".gz") ∧ splitext ".bashrc" = (".bashrc", "") ∧
    splitext "a." = ("a", ".") ∧ splitext "d.x/..f" = ("d.x/..f", "") := by decide

theorem splitext_append (p : String) : (splitext p).1 ++ (splitext p).2 = p := by
  unfold splitext
  split
  · rename_i extRev beforeRev h
    have hp : extRev ++ '.' :: beforeRev = p.data.reverse := by
      rw [List.span_eq_take_drop, Prod.mk.injEq] at h
      rw [← h.1, ← h.2, List.takeWhile_append_dropWhile]
    split
    · exact String.ext (by simpa using congrArg List.reverse hp)
    · exact String.append_empty p
  · exact String.append_empty p

theorem splitext_snd (p : String) :
    (splitext p).2.data = [] ∨ ∃ e, (splitext p).2.data = '.' :: e := by
  unfold splitext
  split
  · split
    · exact .inr ⟨_, rfl⟩
    · exact .inl rfl
  · exact .inl rfl

end PathText

open PathText in
/-- `os.path.join(a, *p)` of the platform. -/
def Platform.join : Platform → String → List String → String
  | .posix => posixJoin
  | .windows => ntJoin

open PathText in
/-- `os.path.split(p)` of the platform. -/
def Platform.split : Platform → String → String × String
  | .posix => posixSplit
  | .windows => ntSplit

/-- `os.path.dirname(p)`. -/
def Platform.dirname (pl : Platform) (p : String) : String := (pl.split p).1

/-- `os.path.basename(p)`. -/
def Platform.basename (pl : Platform) (p : String) : String := (pl.split p).2

end SakUtility
