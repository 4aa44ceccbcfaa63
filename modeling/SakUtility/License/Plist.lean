import SakUtility.License.Registry

/-!
# What `_scan_macos` records

`flatten_items(obj)` yields every leaf of a parsed plist once, under the dotted path of dict keys
and list indices leading to it, and `scan_one(path)` records each such leaf that looks like a key
under `f"{basename(path)}:{k}"`. So the results hold only findings of the `.plist` files of the
two Preferences directories, and every finding's name is a key of the results, whatever order
the futures complete in.
-/

namespace SakUtility

set_option autoImplicit false

/-- The dict keys and list indices `path` lead, in the plist value, to the leaf `s`. -/
inductive LeafAt : Plist → List String → String → Prop
  | leaf (s : String) : LeafAt (.leaf s) [] s
  | array {items : List Plist} {i : Nat} {v : Plist} {path : List String} {s : String} :
      items[i]? = some v → LeafAt v path s → LeafAt (.array items) (toString i :: path) s
  | dict {items : List (String × Plist)} {k : String} {v : Plist} {path : List String}
      {s : String} : (k, v) ∈ items → LeafAt v path s → LeafAt (.dict items) (k :: path) s

/-- The `prefix` of `flatten_items` after the steps `path`: each key or index, then a dot. -/
def dotted (path : List String) : List Char := path.flatMap fun k => k.data ++ ['.']

@[simp] theorem dotted_nil : dotted [] = [] := rfl

@[simp] theorem dotted_cons (k : String) (path : List String) :
    dotted (k :: path) = k.data ++ ['.'] ++ dotted path := by
  simp [dotted]

section LeafAt

variable {path : List String} {s : String}

theorem leafAt_leaf_iff {s' : String} : LeafAt (.leaf s') path s ↔ path = [] ∧ s = s' := by
  constructor
  · rintro ⟨⟩; exact ⟨rfl, rfl⟩
  · rintro ⟨rfl, rfl⟩; exact .leaf _

theorem leafAt_array_iff {items : List Plist} : LeafAt (.array items) path s ↔
    ∃ i : Nat, ∃ v path', items[i]? = some v ∧ LeafAt v path' s ∧ path = toString i :: path' := by
  constructor
  · rintro ⟨⟩; exact ⟨_, _, _, ‹_›, ‹_›, rfl⟩
  · rintro ⟨i, v, path', hi, h, rfl⟩; exact .array hi h

theorem leafAt_dict_iff {items : List (String × Plist)} : LeafAt (.dict items) path s ↔
    ∃ k v path', (k, v) ∈ items ∧ LeafAt v path' s ∧ path = k :: path' := by
  constructor
  · rintro ⟨⟩; exact ⟨_, _, _, ‹_›, ‹_›, rfl⟩
  · rintro ⟨k, v, path', hk, h, rfl⟩; exact .dict hk h

end LeafAt

/-- `flatten_items(v, pre)` yields exactly the leaves of `v`, each under `pre` and the dotted
path to it, less the trailing dot. -/
theorem mem_flattenItems (v : Plist) (pre : List Char) : ∀ p s,
    (p, s) ∈ flattenItems v pre ↔ ∃ path, LeafAt v path s ∧ p = (pre ++ dotted path).dropLast := by
  refine flattenItems.induct
    (fun v pre => ∀ p s, (p, s) ∈ flattenItems v pre ↔
      ∃ path, LeafAt v path s ∧ p = (pre ++ dotted path).dropLast)
    (fun items pre => ∀ p s, (p, s) ∈ flattenDict items pre ↔
      ∃ k v path, (k, v) ∈ items ∧ LeafAt v path s ∧ p = (pre ++ dotted (k :: path)).dropLast)
    (fun items pre i => ∀ p s, (p, s) ∈ flattenArray items pre i ↔
      ∃ j v path, items[j]? = some v ∧ LeafAt v path s ∧
        p = (pre ++ dotted (toString (i + j) :: path)).dropLast)
    ?leaf ?array ?dict ?arrayNil ?arrayCons ?dictNil ?dictCons v pre
  case leaf =>
    intro s' pre p s
    simp only [flattenItems, List.mem_singleton, Prod.mk.injEq, leafAt_leaf_iff]
    constructor
    · rintro ⟨rfl, rfl⟩; exact ⟨[], ⟨rfl, rfl⟩, by simp⟩
    · rintro ⟨_, ⟨rfl, rfl⟩, rfl⟩; simp
  case array =>
    intro items pre ih p s
    rw [flattenItems, ih]
    simp only [leafAt_array_iff, Nat.zero_add]
    constructor
    · rintro ⟨j, v, path, hj, h, rfl⟩; exact ⟨_, ⟨j, v, path, hj, h, rfl⟩, rfl⟩
    · rintro ⟨_, ⟨j, v, path, hj, h, rfl⟩, rfl⟩; exact ⟨j, v, path, hj, h, rfl⟩
  case dict =>
    intro items pre ih p s
    rw [flattenItems, ih]
    simp only [leafAt_dict_iff]
    constructor
    · rintro ⟨k, v, path, hk, h, rfl⟩; exact ⟨_, ⟨k, v, path, hk, h, rfl⟩, rfl⟩
    · rintro ⟨_, ⟨k, v, path, hk, h, rfl⟩, rfl⟩; exact ⟨k, v, path, hk, h, rfl⟩
  case arrayNil => simp [flattenArray]
  case arrayCons =>
    intro v vs pre i ih₁ ih₂ p s
    rw [flattenArray, List.mem_append, ih₁, ih₂]
    constructor
    · rintro (⟨path, h, rfl⟩ | ⟨j, v', path, hj, h, rfl⟩)
      · exact ⟨0, v, path, by simp, h, by simp⟩
      · exact ⟨j + 1, v', path, by simpa using hj, h, by simp [Nat.add_right_comm, Nat.add_assoc]⟩
    · rintro ⟨_ | j, v', path, hj, h, rfl⟩
      · obtain rfl : v = v' := by simpa using hj
        exact .inl ⟨path, h, by simp⟩
      · exact .inr ⟨j, v', path, by simpa using hj, h, by simp [Nat.add_right_comm, Nat.add_assoc]⟩
  case dictNil => simp [flattenDict]
  case dictCons =>
    intro k v kvs pre ih₁ ih₂ p s
    rw [flattenDict, List.mem_append, ih₁, ih₂]
    constructor
    · rintro (⟨path, h, rfl⟩ | ⟨k', v', path, hk, h, rfl⟩)
      · exact ⟨k, v, path, List.mem_cons_self _ _, h, by simp⟩
      · exact ⟨k', v', path, List.mem_cons_of_mem _ hk, h, rfl⟩
    · rintro ⟨k', v', path, hk, h, rfl⟩
      rcases List.mem_cons.mp hk with hk | hk
      · cases hk; exact .inl ⟨path, h, by simp⟩
      · exact .inr ⟨k', v', path, hk, h, rfl⟩

/-! ### `scan_one` and the run -/

section ScanOne

variable (lower : List Char → List Char) (load : String → Option Plist) (path : String)

theorem mem_foldl_scanOne (items : List (List Char × String)) (acc : List (String × String))
    {e : String × String}
    (he : e ∈ items.foldl (fun found kv => if looksLikeKey lower ⟨kv.1⟩ kv.2 then
      dictSet found (Platform.posix.basename path ++ ":" ++ ⟨kv.1⟩) kv.2 else found) acc) :
    e ∈ acc ∨ ∃ kv ∈ items, looksLikeKey lower ⟨kv.1⟩ kv.2 = true ∧
      e = (Platform.posix.basename path ++ ":" ++ ⟨kv.1⟩, kv.2) := by
  induction items generalizing acc with
  | nil => exact .inl he
  | cons kv items ih =>
    rcases ih _ he with he | ⟨kv', hkv', h⟩
    · dsimp only at he
      split at he
      · exact (mem_dictSet he).symm.imp id fun h => ⟨kv, List.mem_cons_self _ _, ‹_›, h⟩
      · exact .inl he
    · exact .inr ⟨kv', List.mem_cons_of_mem _ hkv', h⟩

theorem keys_foldl_scanOne (items : List (List Char × String)) (acc : List (String × String)) :
    acc.map Prod.fst ⊆ (items.foldl (fun found kv => if looksLikeKey lower ⟨kv.1⟩ kv.2 then
      dictSet found (Platform.posix.basename path ++ ":" ++ ⟨kv.1⟩) kv.2 else found) acc).map
        Prod.fst ∧
    ∀ kv ∈ items, looksLikeKey lower ⟨kv.1⟩ kv.2 = true →
      Platform.posix.basename path ++ ":" ++ ⟨kv.1⟩ ∈ (items.foldl (fun found kv =>
        if looksLikeKey lower ⟨kv.1⟩ kv.2 then
          dictSet found (Platform.posix.basename path ++ ":" ++ ⟨kv.1⟩) kv.2 else found) acc).map
        Prod.fst := by
  induction items generalizing acc with
  | nil => exact ⟨List.Subset.refl _, fun _ h => (nomatch h)⟩
  | cons kv items ih =>
    have hstep : acc.map Prod.fst ⊆ (if looksLikeKey lower ⟨kv.1⟩ kv.2 then
        dictSet acc (Platform.posix.basename path ++ ":" ++ ⟨kv.1⟩) kv.2 else acc).map Prod.fst := by
      split
      · exact keys_subset_dictSet _ _ _
      · exact List.Subset.refl _
    refine ⟨hstep.trans (ih _).1, fun kv' hkv' hk => ?_⟩
    rcases List.mem_cons.mp hkv' with rfl | hkv'
    · exact (ih _).1 (by simp only [hk, if_true]; exact mem_keys_dictSet _ _ _)
    · exact (ih _).2 kv' hkv' hk

end ScanOne

/-- A finding of `_scan_macos`: a leaf that looks like a key, of a `.plist` file the run
collects and parses, under `f"{basename(path)}:{k}"`. -/
def MacFinding (lower : List Char → List Char) (pathExists : String → Bool)
    (listdir : String → Option (List String)) (home : String) (load : String → Option Plist)
    (e : String × String) : Prop :=
  ∃ path ∈ macFiles pathExists listdir home, ∃ data keyPath, load path = some data ∧
    LeafAt data keyPath e.2 ∧ looksLikeKey lower ⟨(dotted keyPath).dropLast⟩ e.2 = true ∧
    e.1 = Platform.posix.basename path ++ ":" ++ ⟨(dotted keyPath).dropLast⟩

/-- In a run that is not cancelled, in whatever order `as_completed` yields the futures of
`_scan_macos`, `results` holds only findings, and the name of every finding is one of its keys:
a finding's value can be lost to another under the same name, its name never is. -/
theorem scanMacos_records_findings (lower : List Char → List Char) (pathExists : String → Bool)
    (listdir : String → Option (List String)) (home : String) (load : String → Option Plist)
    (completed : List (List (String × String)))
    (hp : completed.Perm (macFutures lower pathExists listdir home load)) :
    (∀ e ∈ mergeResults completed, MacFinding lower pathExists listdir home load e) ∧
    ∀ e, MacFinding lower pathExists listdir home load e → e.1 ∈ (mergeResults completed).map Prod.fst := by
  refine ⟨fun e he => ?_, fun e ⟨path, hpath, data, keyPath, hl, hleaf, hk, he⟩ => ?_⟩
  · obtain ⟨r, hr, he⟩ := mem_mergeResults he
    obtain ⟨path, hpath, rfl⟩ := List.mem_map.mp (hp.subset hr)
    unfold scanOne at he
    cases hl : load path with
    | none => rw [hl] at he; cases he
    | some data =>
      rw [hl] at he
      obtain ⟨kv, hkv, hk, rfl⟩ := (mem_foldl_scanOne lower path _ [] he).resolve_left (List.not_mem_nil _)
      obtain ⟨keyPath, hleaf, hkp⟩ := (mem_flattenItems data [] kv.1 kv.2).mp hkv
      rw [List.nil_append] at hkp
      exact ⟨path, hpath, data, keyPath, hl, hleaf, hkp ▸ hk, by rw [← hkp]⟩
  · have hkv := (mem_flattenItems data [] _ _).mpr ⟨keyPath, hleaf, rfl⟩
    have hkey : e.1 ∈ (scanOne lower load path).map Prod.fst := by
      unfold scanOne
      rw [hl, he]
      exact (keys_foldl_scanOne lower path _ []).2 _ hkv hk
    exact keys_subset_mergeResults (hp.symm.subset (List.mem_map_of_mem _ hpath)) hkey

/-- Both `com.app.plist` files, completed in the reverse order of submission. -/
theorem scanMacos_records_findings_twin :
    [[("com.app.plist:LicenseKey", "K2")], [("com.app.plist:LicenseKey", "K1")]].Perm
        (macFutures asciiLower (fun _ => true) (fun _ => some ["com.app.plist"]) "/Users/alice" twinPlist) ∧
      ∀ e ∈ mergeResults [[("com.app.plist:LicenseKey", "K2")], [("com.app.plist:LicenseKey", "K1")]],
        MacFinding asciiLower (fun _ => true) (fun _ => some ["com.app.plist"]) "/Users/alice" twinPlist e := by
  have hp : [[("com.app.plist:LicenseKey", "K2")], [("com.app.plist:LicenseKey", "K1")]].Perm
      (macFutures asciiLower (fun _ => true) (fun _ => some ["com.app.plist"]) "/Users/alice" twinPlist) := by
    decide
  exact ⟨hp, (scanMacos_records_findings _ _ _ _ _ _ hp).1⟩

end SakUtility
