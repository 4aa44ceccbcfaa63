import SakUtility.Dict
import SakUtility.PathText

/-!
# `LicenseScanWorker`

`_scan_windows` walks seven registry targets with `scan_path`, recording each value that looks
like a key under `f"{key_path}\\{name}"`; `_scan_macos` records each leaf of each `.plist` file
that looks like a key under `f"{basename(path)}:{k}"`. Both merge their futures' dicts with
`results.update`. The run is not cancelled; `str.lower`, `safe_tostr` and the plist parser are
parameters. The result keys forget the hive and the directory, so one of two findings under one
key is lost whatever order the futures complete in.
-/

namespace SakUtility

set_option autoImplicit false

open PathText

variable (lower : List Char → List Char)

/-! ### `looks_like_key` -/

/-- `"sub" in s`. -/
def containsText (s sub : List Char) : Bool := s.tails.any (sub.isPrefixOf ·)

/-- `[A-Z0-9]`. -/
def keyChar (c : Char) : Bool := ('A' ≤ c && c ≤ 'Z') || ('0' ≤ c && c ≤ '9')

/-- `[A-Z0-9]{5}` at the start of `s`. -/
def keyGroup (s : List Char) : Bool := (s.take 5).length = 5 && (s.take 5).all keyChar

/-- `[A-Z0-9]{5}(?:-[A-Z0-9]{5}){4}` at the start of `s`. -/
def productKeyAt (s : List Char) : Bool :=
  keyGroup s && (List.range 4).all fun g =>
    (s.drop (5 + 6 * g)).head? = some '-' && keyGroup (s.drop (6 + 6 * g))

/-- `looks_like_key(name, value)`: the name lowered by `lower` holds `key` or `license`, or
`pattern.search(value)` finds a product key. -/
def looksLikeKey (name value : String) : Bool :=
  containsText (lower name.data) "key".data || containsText (lower name.data) "license".data ||
    value.data.tails.any productKeyAt

example : looksLikeKey asciiLower "ProductKey" "x" ∧
    looksLikeKey asciiLower "Serial" "abcde-FGHIJ-KLMNO-PQRST-UVWXY" = false ∧
    looksLikeKey asciiLower "Serial" "id ABCDE-FGHIJ-KLMNO-PQRST-UVWX1" := by
  decide

/-! ### `_scan_windows` -/

/-- `winreg.HKEY_LOCAL_MACHINE` and `winreg.HKEY_CURRENT_USER`. -/
inductive Hive
  | localMachine
  | currentUser
  deriving DecidableEq, Repr

/-- An open registry key: the values `EnumValue` lists, by name, and the subkey names
`EnumKey` lists. -/
structure RegKey (V : Type) where
  values : List (String × V)
  subkeys : List String

/-- The registry as `winreg.OpenKey(hive, key_path)` reads it; `none` when opening raises. -/
structure Registry (V : Type) where
  openKey : Hive → String → Option (RegKey V)

variable {V : Type}

/-- The `EnumValue` loop of one key: `found_local[f"{key_path}\\{name}"] = sval` for each
value whose `safe_tostr` is a nonempty string that looks like a key. -/
def recordValues (safeTostr : V → Option String) (keyPath : String)
    (values : List (String × V)) (found : List (String × String)) : List (String × String) :=
  values.foldl (fun found nv =>
    match safeTostr nv.2 with
    | some sval =>
      if sval ≠ "" ∧ looksLikeKey lower nv.1 sval = true then dictSet found (keyPath ++ "\\" ++ nv.1) sval
      else found
    | none => found) found

/-- `scan_path(hive, subkey)` from the stack `stack`, its top first, with `found_local` so
far, opening at most `fuel` keys; `none` when that is not enough. A key that does not open
is skipped, and the subkeys of an opened one are pushed in the order `EnumKey` lists them. -/
def scanPath (reg : Registry V) (safeTostr : V → Option String) (hive : Hive) :
    Nat → List String → List (String × String) → Option (List (String × String))
  | _, [], found => some found
  | 0, _ :: _, _ => none
  | fuel + 1, keyPath :: stack, found =>
    match reg.openKey hive keyPath with
    | none => scanPath reg safeTostr hive fuel stack found
    | some key =>
      scanPath reg safeTostr hive fuel
        ((key.subkeys.map fun sub => keyPath ++ "\\" ++ sub).reverse ++ stack)
        (recordValues lower safeTostr keyPath key.values found)

/-- The `targets` of `_scan_windows`. -/
def windowsTargets : List (Hive × String) :=
  [(.localMachine, "SOFTWARE\\Microsoft\\Windows NT\\CurrentVersion"),
    (.localMachine, "SOFTWARE\\Wow6432Node\\Microsoft\\Windows NT\\CurrentVersion"),
    (.currentUser, "SOFTWARE"),
    (.localMachine, "SOFTWARE\\Microsoft\\Office"),
    (.localMachine, "SOFTWARE\\Wow6432Node\\Microsoft\\Office"),
    (.localMachine, "SOFTWARE\\Microsoft\\Windows\\CurrentVersion\\Uninstall"),
    (.localMachine, "SOFTWARE\\Wow6432Node\\Microsoft\\Windows\\CurrentVersion\\Uninstall")]

/-- The dicts the futures `pool.submit(scan_path, hive, sub)` return, in submission order. -/
def windowsFutures (reg : Registry V) (safeTostr : V → Option String) (fuel : Nat) :
    Option (List (List (String × String))) :=
  windowsTargets.mapM fun t => scanPath lower reg safeTostr t.1 fuel [t.2] []

/-- `results.update(fut.result())` over the futures in the order `as_completed` yields
them. -/
def mergeResults (completed : List (List (String × String))) : List (String × String) :=
  completed.foldl dictUpdate []

theorem mergeResults_keys_nodup (completed : List (List (String × String))) :
    ((mergeResults completed).map Prod.fst).Nodup := by
  unfold mergeResults
  generalize hd : ([] : List (String × String)) = d
  have h : (d.map Prod.fst).Nodup := hd ▸ List.nodup_nil
  clear hd
  induction completed generalizing d with
  | nil => exact h
  | cons r completed ih => exact ih _ (dictUpdate_keys_nodup h r)

/-- Two findings under one result key never both survive the merge. -/
theorem mergeResults_one_value (completed : List (List (String × String))) {k v₁ v₂ : String}
    (hv : v₁ ≠ v₂) : (k, v₁) ∉ mergeResults completed ∨ (k, v₂) ∉ mergeResults completed := by
  by_contra h
  push_neg at h
  exact hv (snd_eq_of_mem (mergeResults_keys_nodup completed) h.1 h.2)

/-! ### `_scan_macos` -/

/-- A value `plistlib.load` returns; a leaf holds what `str()` gives of it. -/
inductive Plist
  | leaf (s : String)
  | array (items : List Plist)
  | dict (items : List (String × Plist))
  deriving Repr

mutual

/-- `flatten_items(obj, pre)`: the dotted path and `str()` of every leaf, the trailing dot
dropped. -/
def flattenItems : Plist → List Char → List (List Char × String)
  | .leaf s, pre => [(pre.dropLast, s)]
  | .array items, pre => flattenArray items pre 0
  | .dict items, pre => flattenDict items pre

/-- The items of a list, from index `i` on. -/
def flattenArray : List Plist → List Char → Nat → List (List Char × String)
  | [], _, _ => []
  | v :: vs, pre, i =>
    flattenItems v (pre ++ (toString i).data ++ ['.']) ++ flattenArray vs pre (i + 1)

/-- The items of a dict. -/
def flattenDict : List (String × Plist) → List Char → List (List Char × String)
  | [], _ => []
  | (k, v) :: kvs, pre => flattenItems v (pre ++ k.data ++ ['.']) ++ flattenDict kvs pre

end

example : flattenItems (.dict [("a", .leaf "1"), ("b", .array [.leaf "x", .dict [("c", .leaf "y")]])])
      [] = [("a".data, "1"), ("b.0".data, "x"), ("b.1.c".data, "y")] ∧
    flattenItems (.dict [("a.b", .leaf "1"), ("a", .dict [("b", .leaf "2")])]) [] =
      [("a.b".data, "1"), ("a.b".data, "2")] := by
  decide

/-- `os.path.expanduser("~/Library/Preferences")` for the home directory `home`. -/
def userPreferences (home : String) : String :=
  ⟨(home.data.reverse.dropWhile (· == '/')).reverse ++ "/Library/Preferences".data⟩

/-- The `files` of `_scan_macos`: the `.plist` names of each search path that exists and
can be listed, joined to it. -/
def macFiles (pathExists : String → Bool) (listdir : String → Option (List String))
    (home : String) : List String :=
  ["/Library/Preferences", userPreferences home].flatMap fun base =>
    if pathExists base then
      match listdir base with
      | some names => (names.filter fun f => endswith f.data ".plist".data).map
          fun f => posixJoin base [f]
      | none => []
    else []

/-- `scan_one(path)`, the file parsed by `load`; `none` when opening or parsing raises. -/
def scanOne (load : String → Option Plist) (path : String) : List (String × String) :=
  match load path with
  | none => []
  | some data => (flattenItems data []).foldl (fun found kv =>
      if looksLikeKey lower ⟨kv.1⟩ kv.2 then dictSet found (Platform.posix.basename path ++ ":" ++ ⟨kv.1⟩) kv.2
      else found) []

/-- The dicts the futures `pool.submit(scan_one, p)` return, in submission order. -/
def macFutures (pathExists : String → Bool) (listdir : String → Option (List String))
    (home : String) (load : String → Option Plist) : List (List (String × String)) :=
  (macFiles pathExists listdir home).map (scanOne lower load)

/-! ### Lost findings -/

/-- `Office\ProductKey` under both hives. -/
def officeRegistry : Registry String where
  openKey
    | .localMachine, "SOFTWARE\\Microsoft\\Office" =>
      some ⟨[("ProductKey", "AAAAA-AAAAA-AAAAA-AAAAA-AAAAA")], []⟩
    | .currentUser, "SOFTWARE" => some ⟨[], ["Microsoft"]⟩
    | .currentUser, "SOFTWARE\\Microsoft" => some ⟨[], ["Office"]⟩
    | .currentUser, "SOFTWARE\\Microsoft\\Office" =>
      some ⟨[("ProductKey", "BBBBB-BBBBB-BBBBB-BBBBB-BBBBB")], []⟩
    | _, _ => none

/-- `com.app.plist`, with its own license key, in both Preferences directories. -/
def twinPlist (path : String) : Option Plist :=
  some (.dict [("LicenseKey", .leaf (if path = "/Library/Preferences/com.app.plist" then "K1" else "K2"))])

/-- On Windows the key `HKLM\SOFTWARE\Microsoft\Office\ProductKey` and the key
`HKCU\SOFTWARE\Microsoft\Office\ProductKey` are both found under the result key
`SOFTWARE\Microsoft\Office\ProductKey`; on macOS the two `com.app.plist` files are both found
under `com.app.plist:LicenseKey`. Whatever order the futures complete in, one finding of each
pair is missing from the results. -/
theorem license_results_lose_findings :
    windowsFutures asciiLower officeRegistry some 4 = some [[], [],
      [("SOFTWARE\\Microsoft\\Office\\ProductKey", "BBBBB-BBBBB-BBBBB-BBBBB-BBBBB")],
      [("SOFTWARE\\Microsoft\\Office\\ProductKey", "AAAAA-AAAAA-AAAAA-AAAAA-AAAAA")], [], [], []] ∧
    (∀ completed, completed.Perm [[], [],
        [("SOFTWARE\\Microsoft\\Office\\ProductKey", "BBBBB-BBBBB-BBBBB-BBBBB-BBBBB")],
        [("SOFTWARE\\Microsoft\\Office\\ProductKey", "AAAAA-AAAAA-AAAAA-AAAAA-AAAAA")], [], [], []] →
      ("SOFTWARE\\Microsoft\\Office\\ProductKey", "AAAAA-AAAAA-AAAAA-AAAAA-AAAAA") ∉
          mergeResults completed ∨
        ("SOFTWARE\\Microsoft\\Office\\ProductKey", "BBBBB-BBBBB-BBBBB-BBBBB-BBBBB") ∉
          mergeResults completed) ∧
    macFutures asciiLower (fun _ => true) (fun _ => some ["com.app.plist"]) "/Users/alice" twinPlist =
      [[("com.app.plist:LicenseKey", "K1")], [("com.app.plist:LicenseKey", "K2")]] ∧
    ∀ completed, completed.Perm [[("com.app.plist:LicenseKey", "K1")],
        [("com.app.plist:LicenseKey", "K2")]] →
      ("com.app.plist:LicenseKey", "K1") ∉ mergeResults completed ∨
        ("com.app.plist:LicenseKey", "K2") ∉ mergeResults completed :=
  ⟨by decide, fun completed _ => mergeResults_one_value completed (by decide), by decide,
    fun completed _ => mergeResults_one_value completed (by decide)⟩

end SakUtility
