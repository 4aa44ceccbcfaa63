import Mathlib.Data.List.Nodup

/-!
# Dicts keyed by strings

A Python `dict` with string keys as the list of its items in insertion order, read with
`List.lookup`.
-/

namespace SakUtility

set_option autoImplicit false

variable {β : Type}

theorem lookup_cons_eq (k : String) (v : β) (l : List (String × β)) (h : String) :
    ((k, v) :: l).lookup h = if h = k then some v else l.lookup h := by
  by_cases hk : h = k
  · simp [hk]
  · simp [List.lookup_cons, beq_false_of_ne hk, hk]

theorem lookup_append (l l' : List (String × β)) (h : String) :
    (l ++ l').lookup h = (l.lookup h).or (l'.lookup h) := by
  induction l with
  | nil => rfl
  | cons kv l ih =>
    obtain ⟨k, v⟩ := kv
    simp only [List.cons_append, lookup_cons_eq, ih]
    split <;> rfl

theorem lookup_of_mem {l : List (String × β)} (hnd : (l.map Prod.fst).Nodup) {kv : String × β}
    (hkv : kv ∈ l) : l.lookup kv.1 = some kv.2 := by
  induction l with
  | nil => cases hkv
  | cons kv' l ih =>
    obtain ⟨hk, hnd⟩ := List.nodup_cons.mp hnd
    rw [lookup_cons_eq]
    rcases List.mem_cons.mp hkv with rfl | hkv
    · simp
    · have hne : kv.1 ≠ kv'.1 := fun he => hk (he ▸ List.mem_map_of_mem Prod.fst hkv)
      rw [if_neg hne]
      exact ih hnd hkv

theorem mem_of_lookup {l : List (String × β)} {k : String} {v : β} (h : l.lookup k = some v) :
    (k, v) ∈ l := by
  induction l with
  | nil => cases h
  | cons kv l ih =>
    obtain ⟨k', v'⟩ := kv
    rw [lookup_cons_eq] at h
    split at h
    · cases h
      subst_vars
      exact List.mem_cons_self _ _
    · exact List.mem_cons_of_mem _ (ih h)

/-- `d[k] = v`: the value of `k` replaced in place, or the item appended. -/
def dictSet : List (String × β) → String → β → List (String × β)
  | [], k, v => [(k, v)]
  | (k', v') :: d, k, v => if k = k' then (k', v) :: d else (k', v') :: dictSet d k v

/-- `d.update(other)`. -/
def dictUpdate (d other : List (String × β)) : List (String × β) :=
  other.foldl (fun d kv => dictSet d kv.1 kv.2) d

theorem keys_dictSet (d : List (String × β)) (k : String) (v : β) :
    (dictSet d k v).map Prod.fst = if k ∈ d.map Prod.fst then d.map Prod.fst else d.map Prod.fst ++ [k] := by
  induction d with
  | nil => rfl
  | cons kv d ih =>
    obtain ⟨k', v'⟩ := kv
    by_cases hk : k = k'
    · simp [dictSet, hk]
    · by_cases hm : k ∈ d.map Prod.fst <;> simp_all [dictSet]

theorem dictSet_keys_nodup {d : List (String × β)} (hd : (d.map Prod.fst).Nodup) (k : String)
    (v : β) : ((dictSet d k v).map Prod.fst).Nodup := by
  rw [keys_dictSet]
  split
  · exact hd
  · rename_i hk
    exact hd.append (List.nodup_singleton k) (by simpa using hk)

theorem keys_subset_dictSet (d : List (String × β)) (k : String) (v : β) :
    d.map Prod.fst ⊆ (dictSet d k v).map Prod.fst := by
  rw [keys_dictSet]
  split <;> simp

theorem mem_keys_dictSet (d : List (String × β)) (k : String) (v : β) :
    k ∈ (dictSet d k v).map Prod.fst := by
  rw [keys_dictSet]
  split <;> simp_all

theorem mem_dictSet {d : List (String × β)} {k : String} {v : β} {e : String × β}
    (he : e ∈ dictSet d k v) : e = (k, v) ∨ e ∈ d := by
  induction d with
  | nil => simpa [dictSet] using he
  | cons kv d ih =>
    obtain ⟨k', v'⟩ := kv
    unfold dictSet at he
    split_ifs at he with hk
    · rcases List.mem_cons.mp he with rfl | he
      · exact .inl (by rw [hk])
      · exact .inr (List.mem_cons_of_mem _ he)
    · rcases List.mem_cons.mp he with rfl | he
      · exact .inr (List.mem_cons_self _ _)
      · exact (ih he).imp_right (List.mem_cons_of_mem _)

theorem dictUpdate_keys_nodup {d : List (String × β)} (hd : (d.map Prod.fst).Nodup)
    (other : List (String × β)) : ((dictUpdate d other).map Prod.fst).Nodup := by
  induction other generalizing d with
  | nil => exact hd
  | cons kv other ih => exact ih (dictSet_keys_nodup hd kv.1 kv.2)

theorem keys_subset_dictUpdate (d other : List (String × β)) :
    d.map Prod.fst ⊆ (dictUpdate d other).map Prod.fst := by
  induction other generalizing d with
  | nil => exact List.Subset.refl _
  | cons kv other ih => exact (keys_subset_dictSet d kv.1 kv.2).trans (ih _)

theorem keys_subset_dictUpdate_right (d other : List (String × β)) :
    other.map Prod.fst ⊆ (dictUpdate d other).map Prod.fst := by
  induction other generalizing d with
  | nil => exact List.nil_subset _
  | cons kv other ih =>
    refine List.cons_subset.mpr ⟨?_, ih _⟩
    exact keys_subset_dictUpdate _ other (mem_keys_dictSet d kv.1 kv.2)

theorem mem_dictUpdate {d other : List (String × β)} {e : String × β}
    (he : e ∈ dictUpdate d other) : e ∈ d ∨ e ∈ other := by
  induction other generalizing d with
  | nil => exact .inl he
  | cons kv other ih =>
    rcases ih he with he | he
    · exact (mem_dictSet he).elim (fun h => .inr (h ▸ List.mem_cons_self _ _)) .inl
    · exact .inr (List.mem_cons_of_mem _ he)

/-- A dict holds one value per key. -/
theorem snd_eq_of_mem {l : List (String × β)} (hnd : (l.map Prod.fst).Nodup) {k : String} {a b : β}
    (ha : (k, a) ∈ l) (hb : (k, b) ∈ l) : a = b :=
  Option.some.inj ((lookup_of_mem hnd ha).symm.trans (lookup_of_mem hnd hb))

end SakUtility
