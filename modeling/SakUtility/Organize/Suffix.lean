import Mathlib.Data.Finset.Card
import Mathlib.Data.Nat.Digits
import Mathlib.Data.Nat.Find
import SakUtility.Path
import SakUtility.PathText

/-!
# The numeric-suffix loops

`organize_directory` and the move action of `run_deduplication` pick a free name with one loop:
while `os.path.exists` holds, try the candidate of `counter`, counting from `1`. The candidates
are pairwise distinct and differ from the first name, so when only the names of a finite set
exist, the loop stops at the first free name after at most one check more than the set has
names.
-/

namespace SakUtility

set_option autoImplicit false

/-! ### Decimal numbering -/

/-- The value of a string of decimal digits. -/
def decimalValue (ds : List Char) : Nat :=
  ds.foldl (fun acc c => 10 * acc + (c.toNat - 48)) 0

theorem toDigitsCore_eq_append (base : Nat) :
    ∀ (fuel n : Nat) (ds : List Char),
      Nat.toDigitsCore base fuel n ds = Nat.toDigitsCore base fuel n [] ++ ds
  | 0, _, _ => rfl
  | fuel + 1, n, ds => by
    simp only [Nat.toDigitsCore]
    split
    · rfl
    · rw [toDigitsCore_eq_append base fuel _ (_ :: ds),
        toDigitsCore_eq_append base fuel _ [_]]
      simp

theorem digitChar_value : ∀ k < 10, (Nat.digitChar k).toNat - 48 = k := by decide

theorem decimalValue_toDigitsCore :
    ∀ (fuel n : Nat), n < fuel → decimalValue (Nat.toDigitsCore 10 fuel n []) = n
  | 0, _, h => absurd h (Nat.not_lt_zero _)
  | fuel + 1, n, h => by
    simp only [Nat.toDigitsCore]
    split
    · simp [decimalValue, digitChar_value _ (Nat.mod_lt n (by decide))]
      omega
    · rw [toDigitsCore_eq_append, decimalValue, List.foldl_append, ← decimalValue,
        decimalValue_toDigitsCore fuel (n / 10) (by omega)]
      simp [digitChar_value _ (Nat.mod_lt n (by decide))]
      omega

@[simp] theorem data_toString_nat (n : Nat) : (toString n).data = Nat.toDigits 10 n := rfl

/-- `str(counter)` tells counters apart. -/
theorem toDigits_injective : Function.Injective (Nat.toDigits 10) := fun a b h => by
  rw [← decimalValue_toDigitsCore (a + 1) a (by omega),
    ← decimalValue_toDigitsCore (b + 1) b (by omega)]
  exact congrArg decimalValue h

/-! ### The loop -/

section Loop

variable {α : Type}

/-- `while os.path.exists(current): current = candidate(counter); counter += 1`, with at
most `fuel` existence checks: the path the loop stops at and the checks it made. -/
def suffixLoop (pathExists : α → Bool) (candidate : Nat → α) :
    Nat → Nat → α → Option (α × Nat)
  | 0, _, _ => none
  | fuel + 1, counter, current =>
    if pathExists current then
      (suffixLoop pathExists candidate fuel (counter + 1) (candidate counter)).map
        fun r => (r.1, r.2 + 1)
    else some (current, 1)

/-- The paths the loop tries: the first one, then the candidates from `1` on. -/
def candidates (first : α) (candidate : Nat → α) : Nat → α
  | 0 => first
  | k + 1 => candidate (k + 1)

/-- `r` is the first path of `seq` that does not exist, reached with one existence check
per path tried, at most `bound + 1` of them. -/
def FirstFree (pathExists : α → Bool) (seq : Nat → α) (bound : Nat) (r : Option (α × Nat)) :
    Prop :=
  ∃ m ≤ bound, r = some (seq m, m + 1) ∧ pathExists (seq m) = false ∧
    ∀ j < m, pathExists (seq j) = true

variable {pathExists : α → Bool} {candidate : Nat → α}

theorem suffixLoop_free {fuel counter : Nat} {current : α} (h : pathExists current = false) :
    suffixLoop pathExists candidate (fuel + 1) counter current = some (current, 1) := by
  simp [suffixLoop, h]

theorem suffixLoop_taken {fuel counter : Nat} {current : α} (h : pathExists current = true) :
    suffixLoop pathExists candidate (fuel + 1) counter current =
      (suffixLoop pathExists candidate fuel (counter + 1) (candidate counter)).map
        fun r => (r.1, r.2 + 1) := by
  simp [suffixLoop, h]

theorem candidates_injective {first : α} (hc : Function.Injective candidate)
    (hne : ∀ k, candidate (k + 1) ≠ first) : Function.Injective (candidates first candidate) := by
  rintro (_ | a) (_ | b) h
  · rfl
  · exact absurd h.symm (hne b)
  · exact absurd h (hne a)
  · exact hc h

/-- From the `i`-th path tried, when the next `j` exist and the one after does not, the
loop stops there after `j + 1` checks. -/
theorem suffixLoop_run {first : α} (j : Nat) :
    ∀ (i fuel : Nat), j < fuel →
      (∀ l < j, pathExists (candidates first candidate (i + l)) = true) →
      pathExists (candidates first candidate (i + j)) = false →
      suffixLoop pathExists candidate fuel (i + 1) (candidates first candidate i) =
        some (candidates first candidate (i + j), j + 1) := by
  induction j with
  | zero =>
    rintro i (_ | fuel) h - hfree
    · omega
    · exact suffixLoop_free hfree
  | succ j ih =>
    rintro i (_ | fuel) h htaken hfree
    · omega
    rw [suffixLoop_taken (by simpa using htaken 0 (by omega))]
    have hnext := ih (i + 1) fuel (by omega) (fun l hl => by
      rw [Nat.add_right_comm]; exact htaken (l + 1) (by omega))
      (by rw [Nat.add_right_comm]; exact hfree)
    simp only [candidates] at hnext ⊢
    rw [hnext, Nat.add_right_comm]
    rfl

/-- With a free path among the first `bound + 1` and more checks allowed, the loop returns
the first free path. -/
theorem suffixLoop_firstFree {first : α} {bound fuel : Nat}
    (hfree : ∃ m ≤ bound, pathExists (candidates first candidate m) = false)
    (hfuel : bound < fuel) :
    FirstFree pathExists (candidates first candidate) bound
      (suffixLoop pathExists candidate fuel 1 first) := by
  have hex : ∃ m, pathExists (candidates first candidate m) = false :=
    let ⟨m, _, hm⟩ := hfree; ⟨m, hm⟩
  obtain ⟨m, hm, _⟩ := hfree
  have hle : Nat.find hex ≤ bound := (Nat.find_min' hex ‹_›).trans hm
  have htaken : ∀ j < Nat.find hex, pathExists (candidates first candidate j) = true :=
    fun j hj => by simpa using Nat.find_min hex hj
  refine ⟨Nat.find hex, hle, ?_, Nat.find_spec hex, htaken⟩
  have := suffixLoop_run (Nat.find hex) 0 fuel (by omega) (by simpa using htaken)
    (by simpa using Nat.find_spec hex)
  simpa using this

/-- Pigeonhole: when a path exists only if its name is in `E`, and the names of the paths
tried are distinct, one of the first `E.card + 1` paths tried does not exist. -/
theorem exists_free_le_card {β : Type} {seq : Nat → α} {names : Nat → β}
    (hinj : Function.Injective names) (E : Finset β)
    (hE : ∀ k, pathExists (seq k) = true → names k ∈ E) :
    ∃ m ≤ E.card, pathExists (seq m) = false := by
  by_contra hall
  push_neg at hall
  have := Finset.card_le_card_of_injOn names
    (s := Finset.range (E.card + 1)) (t := E)
    (fun k hk => hE k (by simpa using hall k (by simpa [Nat.lt_succ_iff] using hk)))
    (hinj.injOn)
  rw [Finset.card_range] at this
  omega

end Loop

/-! ### The two loops of the tool -/

/-- `filename, extension = os.path.splitext(file)` followed by
`extension = extension[1:] if extension else "NoExtension"`. -/
def organizeSplit (file : String) : String × String :=
  let extension := (PathText.splitext file).2
  ((PathText.splitext file).1,
    if extension = "" then "NoExtension" else ⟨extension.data.drop 1⟩)

/-- The `new_filename` of `organize_directory` for `counter`. -/
def organizeName (filename extension : String) (counter : Nat) : String :=
  if extension ≠ "NoExtension" then filename ++ "_" ++ toString counter ++ "." ++ extension
  else filename ++ "_" ++ toString counter

/-- The collision loop of `organize_directory` for `file`, moved into `dest_folder`. -/
def organizeDestination (pathExists : Path → Bool) (fuel : Nat) (destFolder : Path)
    (file : String) : Option (Path × Nat) :=
  suffixLoop pathExists
    (fun counter => destFolder.join (.ofName
      (organizeName (organizeSplit file).1 (organizeSplit file).2 counter)))
    fuel 1 (destFolder.join (.ofName file))

/-- The names `organize_directory` tries for `file`. -/
def organizeNames (file : String) : Nat → String :=
  candidates file (organizeName (organizeSplit file).1 (organizeSplit file).2)

/-- The name `f"{stem}_{counter}{ext}"` of the move action. -/
def dedupeName (stem ext : String) (counter : Nat) : String :=
  stem ++ "_" ++ toString counter ++ ext

/-- The `while os.path.exists(target_path)` loop of the move action, from
`target_path = os.path.join(target_dir, base)`. -/
def dedupeLoop (pathExists : Path → Bool) (fuel : Nat) (targetDir : Path) (base : String) :
    Option (Path × Nat) :=
  suffixLoop pathExists
    (fun counter => targetDir.join (.ofName
      (dedupeName (PathText.splitext base).1 (PathText.splitext base).2 counter)))
    fuel 1 (targetDir.join (.ofName base))

/-- The names the move action tries for `base`. -/
def dedupeNames (base : String) : Nat → String :=
  candidates base (dedupeName (PathText.splitext base).1 (PathText.splitext base).2)

/-- The target the move action gives `path`: `os.path.join(target_dir, base)` when it does
not exist, and otherwise what the loop settles on. -/
def moveTarget (pathExists : Path → Bool) (fuel : Nat) (targetDir path : Path) : Option Path :=
  let targetPath := targetDir.join (.ofName path.basename)
  if pathExists targetPath then (dedupeLoop pathExists fuel targetDir path.basename).map Prod.fst
  else some targetPath

/-- The check before the loop changes nothing: the loop stops at once at a free base name. -/
theorem moveTarget_eq (pathExists : Path → Bool) (fuel : Nat) (targetDir path : Path) :
    moveTarget pathExists (fuel + 1) targetDir path =
      (dedupeLoop pathExists (fuel + 1) targetDir path.basename).map Prod.fst := by
  simp only [moveTarget]
  split
  · rfl
  · rename_i h
    rw [dedupeLoop, suffixLoop_free (by simpa using h)]
    rfl

theorem organizeName_injective (filename extension : String) :
    Function.Injective (organizeName filename extension) := by
  intro a b h
  apply toDigits_injective
  unfold organizeName at h
  split at h <;> simpa [String.ext_iff] using h

theorem organizeName_data (filename extension : String) (k : Nat) :
    ∃ rest, (organizeName filename extension k).data = filename.data ++ '_' :: rest := by
  unfold organizeName
  split <;> simp

theorem organizeName_ne (file : String) (k : Nat) :
    organizeName (organizeSplit file).1 (organizeSplit file).2 k ≠ file := by
  intro h
  have hd : (organizeName (organizeSplit file).1 (organizeSplit file).2 k).data =
      (PathText.splitext file).1.data ++ (PathText.splitext file).2.data := by
    rw [h, ← String.data_append, PathText.splitext_append]
  obtain ⟨rest, hr⟩ := organizeName_data (organizeSplit file).1 (organizeSplit file).2 k
  rw [hr, organizeSplit, List.append_cancel_left_eq] at hd
  rcases PathText.splitext_snd file with he | ⟨e, he⟩ <;> simp [he] at hd

theorem dedupeName_injective (stem ext : String) : Function.Injective (dedupeName stem ext) := by
  intro a b h
  apply toDigits_injective
  simpa [dedupeName, String.ext_iff] using h

theorem dedupeName_ne (stem ext : String) (k : Nat) : dedupeName stem ext k ≠ stem ++ ext := by
  intro h
  have := congrArg (fun s => s.data.length) h
  simp [dedupeName] at this
  omega

theorem organizeNames_injective (file : String) : Function.Injective (organizeNames file) :=
  candidates_injective (organizeName_injective _ _) (fun k => organizeName_ne file (k + 1))

theorem dedupeNames_injective (base : String) : Function.Injective (dedupeNames base) :=
  candidates_injective (dedupeName_injective _ _) fun k h =>
    dedupeName_ne _ _ (k + 1) (h.trans (PathText.splitext_append base).symm)

section Folder

variable (pathExists : Path → Bool) (dir : Path) (E : Finset String)
  (hE : ∀ name, pathExists (dir.join (.ofName name)) = true → name ∈ E)

include hE in
/-- A loop over names of `dir` that are pairwise distinct stops at the first one that does not
exist, after at most `E.card + 1` checks. -/
theorem suffixLoop_join_firstFree {first : String} {g : Nat → String}
    (hinj : Function.Injective (candidates first g)) {fuel : Nat} (hfuel : E.card < fuel) :
    FirstFree pathExists (fun k => dir.join (.ofName (candidates first g k))) E.card
      (suffixLoop pathExists (fun c => dir.join (.ofName (g c))) fuel 1
        (dir.join (.ofName first))) := by
  have hseq : candidates (dir.join (.ofName first)) (fun c => dir.join (.ofName (g c))) =
      fun k => dir.join (.ofName (candidates first g k)) := funext fun k => by cases k <;> rfl
  rw [← hseq]
  exact suffixLoop_firstFree (by rw [hseq]; exact exists_free_le_card hinj E fun k => hE _) hfuel

include hE in
/-- When only the names of the finite set `E` exist in the folder, both loops stop at the
first name that does not exist, after at most `E.card + 1` existence checks. -/
theorem suffix_loops_first_free (fuel : Nat) (hfuel : E.card < fuel) (name : String) :
    FirstFree pathExists (fun k => dir.join (.ofName (organizeNames name k))) E.card
        (organizeDestination pathExists fuel dir name) ∧
      FirstFree pathExists (fun k => dir.join (.ofName (dedupeNames name k))) E.card
        (dedupeLoop pathExists fuel dir name) :=
  ⟨suffixLoop_join_firstFree pathExists dir E hE (organizeNames_injective name) hfuel,
    suffixLoop_join_firstFree pathExists dir E hE (dedupeNames_injective name) hfuel⟩

end Folder

/-- A folder `/d` holding `a.txt` and `a_1.txt`. -/
def twoTaken (p : Path) : Bool := decide (p ∈ [⟨true, ["d", "a.txt"]⟩, ⟨true, ["d", "a_1.txt"]⟩])

theorem twoTaken_names (name : String) (h : twoTaken (Path.join ⟨true, ["d"]⟩ (.ofName name))) :
    name ∈ ({"a.txt", "a_1.txt"} : Finset String) := by
  simpa [twoTaken] using h

theorem suffix_loops_first_free_two_taken :
    ({"a.txt", "a_1.txt"} : Finset String).card < 3 ∧
    FirstFree twoTaken (fun k => Path.join ⟨true, ["d"]⟩ (.ofName (organizeNames "a.txt" k))) 2
        (organizeDestination twoTaken 3 ⟨true, ["d"]⟩ "a.txt") ∧
      FirstFree twoTaken (fun k => Path.join ⟨true, ["d"]⟩ (.ofName (dedupeNames "a.txt" k))) 2
        (dedupeLoop twoTaken 3 ⟨true, ["d"]⟩ "a.txt") :=
  ⟨by decide, suffix_loops_first_free twoTaken ⟨true, ["d"]⟩ {"a.txt", "a_1.txt"} twoTaken_names 3
    (by decide) "a.txt"⟩

example : organizeDestination twoTaken 3 ⟨true, ["d"]⟩ "a.txt" = some (⟨true, ["d", "a_2.txt"]⟩, 3) ∧
    dedupeLoop twoTaken 3 ⟨true, ["d"]⟩ "a.txt" = some (⟨true, ["d", "a_2.txt"]⟩, 3) := by
  decide

end SakUtility
