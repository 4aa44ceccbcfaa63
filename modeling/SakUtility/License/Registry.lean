import SakUtility.License.Scan

/-!
# What `scan_path` records

`scan_path(hive, subkey)` walks the keys below `subkey` depth first with a stack. Its dict holds
exactly the findings below `subkey`, the values that look like keys of the keys reached through
subkeys that open: each item is one, and each one's full name is a key. When every chain of
subkeys ends, enough opened keys let the walk end. Both facts come from the walk on a stack
being the walk on its top followed by the walk on the rest.
-/

namespace SakUtility

set_option autoImplicit false

variable {V : Type} (lower : List Char → List Char) (reg : Registry V) (safeTostr : V → Option String)
  (hive : Hive)

/-- `k'` is reached from `k` through the subkeys of keys that open. -/
inductive KeyReach : String → String → Prop
  | refl (k : String) : KeyReach k k
  | child {k k' sub : String} {key : RegKey V} (hk : reg.openKey hive k = some key)
      (hs : sub ∈ key.subkeys) (h : KeyReach (k ++ "\\" ++ sub) k') : KeyReach k k'

/-- Every chain of subkeys below `k` ends. -/
inductive KeyFinite : String → Prop
  | intro (k : String) (h : ∀ key, reg.openKey hive k = some key → ∀ sub ∈ key.subkeys,
      KeyFinite (k ++ "\\" ++ sub)) : KeyFinite k

/-- A finding below `k`: the value `name` of a key `k'` reached from `k` whose `safe_tostr` is
a nonempty string that looks like a key, under `f"{k'}\\{name}"`. -/
def Finding (k : String) (e : String × String) : Prop :=
  ∃ k' key name v, KeyReach reg hive k k' ∧ reg.openKey hive k' = some key ∧
    (name, v) ∈ key.values ∧ safeTostr v = some e.2 ∧ e.2 ≠ "" ∧ looksLikeKey lower name e.2 = true ∧
    e.1 = k' ++ "\\" ++ name

variable {lower reg safeTostr hive}

/-! ### The `EnumValue` loop -/

section Record

variable (keyPath : String)

theorem recordValues_cons (nv : String × V) (values : List (String × V))
    (found : List (String × String)) :
    recordValues lower safeTostr keyPath (nv :: values) found =
      recordValues lower safeTostr keyPath values (recordValues lower safeTostr keyPath [nv] found) := rfl

/-- One turn of the loop records the value when it is a nonempty string that looks like a
key, and does nothing else. -/
theorem recordValues_singleton_cases (nv : String × V) (found : List (String × String)) :
    recordValues lower safeTostr keyPath [nv] found = found ∨ ∃ s, safeTostr nv.2 = some s ∧ s ≠ "" ∧
      looksLikeKey lower nv.1 s = true ∧
      recordValues lower safeTostr keyPath [nv] found = dictSet found (keyPath ++ "\\" ++ nv.1) s := by
  unfold recordValues
  cases h : safeTostr nv.2 with
  | none => simp [h]
  | some s =>
    by_cases hs : s ≠ "" ∧ looksLikeKey lower nv.1 s = true
    · exact .inr ⟨s, rfl, hs.1, hs.2, by simp [h, hs]⟩
    · exact .inl (by simp [h, hs])

theorem keys_subset_recordValues (values : List (String × V)) (found : List (String × String)) :
    found.map Prod.fst ⊆ (recordValues lower safeTostr keyPath values found).map Prod.fst := by
  induction values generalizing found with
  | nil => exact List.Subset.refl _
  | cons nv values ih =>
    rw [recordValues_cons]
    refine List.Subset.trans ?_ (ih _)
    rcases recordValues_singleton_cases keyPath nv found with h | ⟨s, -, -, -, h⟩ <;> rw [h]
    · exact List.Subset.refl _
    · exact keys_subset_dictSet _ _ _

theorem mem_keys_recordValues {values : List (String × V)} {name : String} {v : V} {s : String}
    (hv : (name, v) ∈ values) (hs : safeTostr v = some s) (hne : s ≠ "")
    (hk : looksLikeKey lower name s = true) (found : List (String × String)) :
    keyPath ++ "\\" ++ name ∈ (recordValues lower safeTostr keyPath values found).map Prod.fst := by
  induction values generalizing found with
  | nil => cases hv
  | cons nv values ih =>
    rw [recordValues_cons]
    rcases List.mem_cons.mp hv with rfl | hv
    · refine keys_subset_recordValues keyPath _ _ ?_
      rw [show recordValues lower safeTostr keyPath [(name, v)] found =
        dictSet found (keyPath ++ "\\" ++ name) s by simp [recordValues, hs, hne, hk]]
      exact mem_keys_dictSet _ _ _
    · exact ih hv _

theorem mem_recordValues {values : List (String × V)} {found : List (String × String)}
    {e : String × String} (he : e ∈ recordValues lower safeTostr keyPath values found) :
    e ∈ found ∨ ∃ name v, (name, v) ∈ values ∧ safeTostr v = some e.2 ∧ e.2 ≠ "" ∧
      looksLikeKey lower name e.2 = true ∧ e.1 = keyPath ++ "\\" ++ name := by
  induction values generalizing found with
  | nil => exact .inl he
  | cons nv values ih =>
    rw [recordValues_cons] at he
    rcases ih he with he | ⟨name, v, hm, h⟩
    · rcases recordValues_singleton_cases keyPath nv found with h | ⟨s, hs, hne, hk, h⟩ <;>
        rw [h] at he
      · exact .inl he
      · rcases mem_dictSet he with rfl | he
        · exact .inr ⟨nv.1, nv.2, List.mem_cons_self _ _, hs, hne, hk, rfl⟩
        · exact .inl he
    · exact .inr ⟨name, v, List.mem_cons_of_mem _ hm, h⟩

end Record

/-! ### The walk -/

theorem mem_subkeyPaths {k c : String} {key : RegKey V}
    (hc : c ∈ (key.subkeys.map fun sub => k ++ "\\" ++ sub).reverse) :
    ∃ sub ∈ key.subkeys, c = k ++ "\\" ++ sub := by
  obtain ⟨sub, hs, rfl⟩ := List.mem_map.mp (List.mem_reverse.mp hc)
  exact ⟨sub, hs, rfl⟩

theorem Finding.of_child {k sub : String} {key : RegKey V} (hk : reg.openKey hive k = some key)
    (hs : sub ∈ key.subkeys) {e : String × String}
    (h : Finding lower reg safeTostr hive (k ++ "\\" ++ sub) e) : Finding lower reg safeTostr hive k e := by
  obtain ⟨k', key', name, v, hr, h⟩ := h
  exact ⟨k', key', name, v, .child hk hs hr, h⟩

/-- Every item of the walk's dict was there before or is a finding below a key of the stack. -/
theorem scanPath_sound {fuel : Nat} {stack : List String} {found r : List (String × String)}
    (h : scanPath lower reg safeTostr hive fuel stack found = some r) :
    ∀ e ∈ r, e ∈ found ∨ ∃ k ∈ stack, Finding lower reg safeTostr hive k e := by
  induction fuel, stack, found using scanPath.induct lower reg safeTostr hive with
  | case1 fuel found =>
    simp only [scanPath, Option.some.injEq] at h
    exact fun e he => .inl (h ▸ he)
  | case2 k stack found => simp [scanPath] at h
  | case3 fuel k stack found hk ih =>
    -- the key does not open
    simp only [scanPath, hk] at h
    intro e he
    exact (ih h e he).imp_right fun ⟨k', hk', hf⟩ => ⟨k', List.mem_cons_of_mem _ hk', hf⟩
  | case4 fuel k stack found key hk ih =>
    -- the key opens: its values are recorded and its subkeys pushed
    simp only [scanPath, hk] at h
    intro e he
    rcases ih h e he with he | ⟨k', hk', hf⟩
    · rcases mem_recordValues k he with he | ⟨name, v, hm, h⟩
      · exact .inl he
      · exact .inr ⟨k, List.mem_cons_self _ _, k, key, name, v, .refl k, hk, hm, h⟩
    · rcases List.mem_append.mp hk' with hc | hst
      · obtain ⟨sub, hs, rfl⟩ := mem_subkeyPaths hc
        exact .inr ⟨k, List.mem_cons_self _ _, hf.of_child hk hs⟩
      · exact .inr ⟨k', List.mem_cons_of_mem _ hst, hf⟩

/-- The walk keeps the keys of its dict and adds the full name of every finding below a key
of the stack. -/
theorem scanPath_complete {fuel : Nat} {stack : List String} {found r : List (String × String)}
    (h : scanPath lower reg safeTostr hive fuel stack found = some r) :
    found.map Prod.fst ⊆ r.map Prod.fst ∧
      ∀ k ∈ stack, ∀ e, Finding lower reg safeTostr hive k e → e.1 ∈ r.map Prod.fst := by
  induction fuel, stack, found using scanPath.induct lower reg safeTostr hive with
  | case1 fuel found =>
    simp only [scanPath, Option.some.injEq] at h
    exact ⟨h ▸ List.Subset.refl _, fun _ hk => nomatch hk⟩
  | case2 k stack found => simp [scanPath] at h
  | case3 fuel k stack found hk ih =>
    -- a key that does not open has no findings
    simp only [scanPath, hk] at h
    refine ⟨(ih h).1, fun k' hk' e hf => ?_⟩
    rcases List.mem_cons.mp hk' with rfl | hk'
    · obtain ⟨k'', key, -, -, hr, hok, -⟩ := hf
      cases hr with
      | refl => rw [hk] at hok; cases hok
      | child hk' => rw [hk] at hk'; cases hk'
    · exact (ih h).2 k' hk' e hf
  | case4 fuel k stack found key hk ih =>
    simp only [scanPath, hk] at h
    obtain ⟨hsub, hall⟩ := ih h
    refine ⟨(keys_subset_recordValues k _ _).trans hsub, fun k' hk' e hf => ?_⟩
    rcases List.mem_cons.mp hk' with rfl | hk'
    · -- a finding of the key itself, or of a key below one of its subkeys
      obtain ⟨k'', key', name, v, hr, hok, hm, hs, hne, hl, he⟩ := hf
      cases hr with
      | refl =>
        rw [hk] at hok
        cases hok
        exact hsub (he ▸ mem_keys_recordValues k' hm hs hne hl found)
      | child hk' hsk hr =>
        rw [hk] at hk'
        cases hk'
        exact hall _ (List.mem_append_left _ (List.mem_reverse.mpr (List.mem_map_of_mem _ hsk))) e
          ⟨k'', key', name, v, hr, hok, hm, hs, hne, hl, he⟩
    · exact hall k' (List.mem_append_right _ hk') e hf

/-! ### The walk ends -/

theorem scanPath_add {fuel : Nat} {stack : List String} {found r : List (String × String)}
    (h : scanPath lower reg safeTostr hive fuel stack found = some r) (extra : Nat) :
    scanPath lower reg safeTostr hive (fuel + extra) stack found = some r := by
  induction fuel, stack, found using scanPath.induct lower reg safeTostr hive with
  | case1 fuel found => simpa [scanPath] using h
  | case2 k stack found => simp [scanPath] at h
  | case3 fuel k stack found hk ih | case4 fuel k stack found _ hk ih =>
    simp only [scanPath, hk] at h
    rw [Nat.succ_add]
    simpa only [scanPath, hk] using ih h

/-- Walking `st₁` and then `st₂`, from the dict the first walk ends with, is walking
`st₁ ++ st₂`. -/
theorem scanPath_append {f₁ f₂ : Nat} {st₁ st₂ : List String} {found r₁ r₂ : List (String × String)}
    (h₁ : scanPath lower reg safeTostr hive f₁ st₁ found = some r₁)
    (h₂ : scanPath lower reg safeTostr hive f₂ st₂ r₁ = some r₂) :
    scanPath lower reg safeTostr hive (f₁ + f₂) (st₁ ++ st₂) found = some r₂ := by
  induction f₁, st₁, found using scanPath.induct lower reg safeTostr hive with
  | case1 fuel found =>
    simp only [scanPath, Option.some.injEq] at h₁
    subst h₁
    rw [Nat.add_comm]
    exact scanPath_add h₂ fuel
  | case2 k stack found => simp [scanPath] at h₁
  | case3 fuel k stack found hk ih | case4 fuel k stack found _ hk ih =>
    simp only [scanPath, hk] at h₁
    rw [Nat.succ_add, List.cons_append]
    simpa only [scanPath, hk, List.append_assoc] using ih h₁

theorem scanPath_ends_of_forall {stack : List String}
    (h : ∀ c ∈ stack, ∀ found, ∃ fuel r, scanPath lower reg safeTostr hive fuel [c] found = some r)
    (found : List (String × String)) :
    ∃ fuel r, scanPath lower reg safeTostr hive fuel stack found = some r := by
  induction stack generalizing found with
  | nil => exact ⟨0, found, by simp [scanPath]⟩
  | cons c cs ih =>
    obtain ⟨f₁, r₁, h₁⟩ := h c (List.mem_cons_self _ _) found
    obtain ⟨f₂, r₂, h₂⟩ := ih (fun c hc => h c (List.mem_cons_of_mem _ hc)) r₁
    exact ⟨f₁ + f₂, r₂, scanPath_append h₁ h₂⟩

/-- Below a key whose chains of subkeys all end, enough opened keys let the walk end. -/
theorem scanPath_ends {k : String} (hk : KeyFinite reg hive k) (found : List (String × String)) :
    ∃ fuel r, scanPath lower reg safeTostr hive fuel [k] found = some r := by
  induction hk generalizing found with
  | intro k _ ih =>
    cases hkey : reg.openKey hive k with
    | none => exact ⟨1, found, by simp [scanPath, hkey]⟩
    | some key =>
      obtain ⟨fuel, r, h⟩ := scanPath_ends_of_forall (fun c hc => by
        obtain ⟨sub, hs, rfl⟩ := mem_subkeyPaths hc
        exact ih key hkey sub hs) (recordValues lower safeTostr k key.values found)
      exact ⟨fuel + 1, r, by simpa only [scanPath, hkey, List.append_nil] using h⟩

variable (safeTostr) in
/-- Below a key whose chains of subkeys all end, `scan_path(hive, subkey)` ends, and records
exactly the findings below `subkey`: each item of its dict is one, and the full name of each
one is a key of the dict. -/
theorem scanPath_records_findings {subkey : String} (hfin : KeyFinite reg hive subkey) :
    ∃ fuel found, scanPath lower reg safeTostr hive fuel [subkey] [] = some found ∧
      (∀ e ∈ found, Finding lower reg safeTostr hive subkey e) ∧
      ∀ e, Finding lower reg safeTostr hive subkey e → e.1 ∈ found.map Prod.fst := by
  obtain ⟨fuel, found, h⟩ := scanPath_ends hfin []
  refine ⟨fuel, found, h, fun e he => ?_, (scanPath_complete h).2 subkey (List.mem_singleton_self _)⟩
  rcases scanPath_sound h e he with he | ⟨k, hk, hf⟩
  · cases he
  · exact List.mem_singleton.mp hk ▸ hf

/-- A test of `KeyFinite` that looks `depth` levels of subkeys down. -/
def keyFiniteCheck (reg : Registry V) (hive : Hive) : Nat → String → Bool
  | 0, k => (reg.openKey hive k).all fun key => key.subkeys.isEmpty
  | depth + 1, k => (reg.openKey hive k).all fun key =>
    key.subkeys.all fun sub => keyFiniteCheck reg hive depth (k ++ "\\" ++ sub)

theorem keyFinite_of_check (depth : Nat) {k : String}
    (h : keyFiniteCheck reg hive depth k = true) : KeyFinite reg hive k := by
  induction depth generalizing k with
  | zero =>
    refine .intro k fun key hk sub hs => ?_
    simp only [keyFiniteCheck, hk, Option.all_some, List.isEmpty_iff] at h
    rw [h] at hs
    cases hs
  | succ depth ih =>
    refine .intro k fun key hk sub hs => ih ?_
    simp only [keyFiniteCheck, hk, Option.all_some, List.all_eq_true] at h
    exact h sub hs

/-! ### `_scan_windows` -/

theorem keys_subset_foldl_dictUpdate (completed : List (List (String × String)))
    (acc : List (String × String)) :
    acc.map Prod.fst ⊆ (completed.foldl dictUpdate acc).map Prod.fst := by
  induction completed generalizing acc with
  | nil => exact List.Subset.refl _
  | cons r rs ih => exact (keys_subset_dictUpdate acc r).trans (ih _)

theorem keys_subset_mergeResults {completed : List (List (String × String))}
    {r : List (String × String)} (hr : r ∈ completed) :
    r.map Prod.fst ⊆ (mergeResults completed).map Prod.fst := by
  unfold mergeResults
  generalize ([] : List (String × String)) = acc
  induction completed generalizing acc with
  | nil => cases hr
  | cons r' rs ih =>
    rcases List.mem_cons.mp hr with rfl | hr
    · exact (keys_subset_dictUpdate_right acc r).trans (keys_subset_foldl_dictUpdate rs _)
    · exact ih hr _

theorem mem_mergeResults {completed : List (List (String × String))} {e : String × String}
    (he : e ∈ mergeResults completed) : ∃ r ∈ completed, e ∈ r := by
  suffices h : ∀ acc : List (String × String), e ∈ completed.foldl dictUpdate acc →
      e ∈ acc ∨ ∃ r ∈ completed, e ∈ r from (h [] he).resolve_left (List.not_mem_nil e)
  clear he
  intro acc he
  induction completed generalizing acc with
  | nil => exact .inl he
  | cons r rs ih =>
    rcases ih _ he with he | ⟨r', hr', he⟩
    · exact (mem_dictUpdate he).imp_right fun h => ⟨r, List.mem_cons_self _ _, h⟩
    · exact .inr ⟨r', List.mem_cons_of_mem _ hr', he⟩

variable (safeTostr) in
/-- With the keys below every target finite, enough opened keys let every future end; each
dict holds only findings below a target, and every finding below a target has its full name in
one of them. -/
theorem mapM_scanPath_ends (ts : List (Hive × String)) (hfin : ∀ t ∈ ts, KeyFinite reg t.1 t.2) :
    ∃ fuel, ∀ fuel', fuel ≤ fuel' → ∃ rs,
      ts.mapM (fun t => scanPath lower reg safeTostr t.1 fuel' [t.2] []) = some rs ∧
      (∀ r ∈ rs, ∀ e ∈ r, ∃ t ∈ ts, Finding lower reg safeTostr t.1 t.2 e) ∧
      ∀ t ∈ ts, ∀ e, Finding lower reg safeTostr t.1 t.2 e → ∃ r ∈ rs, e.1 ∈ r.map Prod.fst := by
  induction ts with
  | nil => exact ⟨0, fun _ _ => ⟨[], rfl, fun _ h => (nomatch h), fun _ h => (nomatch h)⟩⟩
  | cons t ts ih =>
    obtain ⟨f₁, found, h₁, hs₁, hc₁⟩ :=
      scanPath_records_findings safeTostr (hfin t (List.mem_cons_self _ _))
    obtain ⟨f₂, h₂⟩ := ih fun t ht => hfin t (List.mem_cons_of_mem _ ht)
    refine ⟨f₁ + f₂, fun fuel' hf => ?_⟩
    obtain ⟨rs, hrs, hs, hc⟩ := h₂ fuel' (by omega)
    have h₁' : scanPath lower reg safeTostr t.1 fuel' [t.2] [] = some found := by
      simpa [Nat.add_sub_cancel' (by omega : f₁ ≤ fuel')] using scanPath_add h₁ (fuel' - f₁)
    refine ⟨found :: rs, by rw [List.mapM_cons, h₁', hrs]; rfl, fun r hr e he => ?_,
      fun t' ht' e hf => ?_⟩
    · rcases List.mem_cons.mp hr with rfl | hr
      · exact ⟨t, List.mem_cons_self _ _, hs₁ e he⟩
      · obtain ⟨t', ht', hf⟩ := hs r hr e he
        exact ⟨t', List.mem_cons_of_mem _ ht', hf⟩
    · rcases List.mem_cons.mp ht' with rfl | ht'
      · exact ⟨found, List.mem_cons_self _ _, hc₁ e hf⟩
      · obtain ⟨r, hr, hk⟩ := hc t' ht' e hf
        exact ⟨r, List.mem_cons_of_mem _ hr, hk⟩

/-- In a run that is not cancelled, on a registry where every chain of subkeys below each
target ends, the futures of `_scan_windows` all end, and in whatever order `as_completed`
yields them, `results` holds only findings below the targets, while the full name of every
finding below every target is one of its keys: a finding's value can be lost to another under
the same name, its name never is. -/
theorem scanWindows_records_findings (safeTostr : V → Option String)
    (hfin : ∀ t ∈ windowsTargets, KeyFinite reg t.1 t.2) :
    ∃ fuel rs, windowsFutures lower reg safeTostr fuel = some rs ∧ ∀ completed, completed.Perm rs →
      (∀ e ∈ mergeResults completed, ∃ t ∈ windowsTargets, Finding lower reg safeTostr t.1 t.2 e) ∧
      ∀ t ∈ windowsTargets, ∀ e, Finding lower reg safeTostr t.1 t.2 e →
        e.1 ∈ (mergeResults completed).map Prod.fst := by
  obtain ⟨fuel, h⟩ := mapM_scanPath_ends safeTostr windowsTargets hfin
  obtain ⟨rs, hrs, hs, hc⟩ := h fuel le_rfl
  refine ⟨fuel, rs, hrs, fun completed hp => ⟨fun e he => ?_, fun t ht e hf => ?_⟩⟩
  · obtain ⟨r, hr, he⟩ := mem_mergeResults he
    exact hs r (hp.subset hr) e he
  · obtain ⟨r, hr, hk⟩ := hc t ht e hf
    exact keys_subset_mergeResults (hp.symm.subset hr) hk

theorem scanWindows_records_findings_office :
    ∃ fuel rs, windowsFutures asciiLower officeRegistry some fuel = some rs ∧ ∀ completed, completed.Perm rs →
      (∀ e ∈ mergeResults completed, ∃ t ∈ windowsTargets, Finding asciiLower officeRegistry some t.1 t.2 e) ∧
      ∀ t ∈ windowsTargets, ∀ e, Finding asciiLower officeRegistry some t.1 t.2 e →
        e.1 ∈ (mergeResults completed).map Prod.fst :=
  scanWindows_records_findings some fun t ht => keyFinite_of_check 2
    ((by decide : ∀ t ∈ windowsTargets, keyFiniteCheck officeRegistry t.1 2 t.2 = true) t ht)

end SakUtility
