import SakUtility.Permission.Modes

/-!
# The signals of a run, and where cancelling stops it

The first item before which the cancel flag is seen set is where the run stops: every item before
it is set and reported with `progress(processed, total, path)`, then `finished(False, ...)`; a run
that never sees the flag reports every item and sends `finished(True, ...)`. Given enough fuel
for its scans, every run sends exactly one `finished`, as its last signal.
-/

namespace SakUtility

set_option autoImplicit false

namespace PermissionUpdateWorker

/-- Where the loop from index `k` over `n` items stops: the offset of the item before which
the flag is seen set, or `n`. -/
def cancelPoint (cancelAt : Option Nat) (k n : Nat) : Nat :=
  match cancelAt with
  | some m => if k ≤ m ∧ m < k + n then m - k else n
  | none => n

/-- One item of the loop, numbered `ip.1`: its work, then its `progress` signal. -/
def itemStep (apply : PermOutcome → Path → PermOutcome) (total : Nat) (st : PermOutcome)
    (ip : Nat × Path) : PermOutcome :=
  { apply st ip.2 with events := (apply st ip.2).events ++ [.progress ip.1 total ip.2] }

theorem cancelPoint_succ {cancelAt : Option Nat} {k : Nat} (h : cancelAt ≠ some k) (n : Nat) :
    cancelPoint cancelAt k (n + 1) = cancelPoint cancelAt (k + 1) n + 1 := by
  cases cancelAt with
  | none => rfl
  | some m =>
    have hm : m ≠ k := fun e => h (e ▸ rfl)
    simp only [cancelPoint]
    split_ifs <;> omega

theorem cancelPoint_zero (cancelAt : Option Nat) (n : Nat) :
    cancelPoint cancelAt 0 n = min (cancelAt.getD n) n := by
  cases cancelAt with
  | none => simp [cancelPoint]
  | some m => simp only [cancelPoint, Option.getD_some]; split_ifs <;> omega

section Loop

variable (apply : PermOutcome → Path → PermOutcome) (total : Nat) (cancelAt : Option Nat)
  (doneMsg : String)

/-- The loop is the items before its stop, each set and reported, then one `finished`. -/
theorem itemLoop_eq : ∀ (k : Nat) (items : List Path) (st : PermOutcome),
    itemLoop apply total cancelAt doneMsg k items st =
      let st' := ((items.take (cancelPoint cancelAt k items.length)).enumFrom (k + 1)).foldl
        (itemStep apply total) st
      { st' with events := st'.events ++
          [if cancelPoint cancelAt k items.length < items.length then
            .finished false "Permission update cancelled." else .finished true doneMsg] } := by
  intro k items
  induction items generalizing k with
  | nil => intro st; simp [itemLoop, cancelPoint]
  | cons p items ih =>
    intro st
    by_cases hc : cancelAt = some k
    · subst hc
      simp [itemLoop, cancelPoint]
    · rw [itemLoop, if_neg hc, ih, List.length_cons, cancelPoint_succ hc]
      simp [itemStep]

theorem foldl_itemStep_events (happ : ∀ st p, (apply st p).events = st.events) :
    ∀ (ips : List (Nat × Path)) (st : PermOutcome), (ips.foldl (itemStep apply total) st).events =
      st.events ++ ips.map fun ip => .progress ip.1 total ip.2
  | [], st => by simp
  | ip :: ips, st => by
    rw [List.foldl_cons, foldl_itemStep_events happ ips]
    simp [itemStep, happ]

theorem foldl_itemStep_grants (happ : ∀ st p, (apply st p).grants = st.grants) :
    ∀ (ips : List (Nat × Path)) (st : PermOutcome), (ips.foldl (itemStep apply total) st).grants =
      st.grants
  | [], st => rfl
  | ip :: ips, st => by
    rw [List.foldl_cons, foldl_itemStep_grants happ ips]
    simp [itemStep, happ]

theorem foldl_itemStep_fs {f : PosixFS → Path → PosixFS} (hfs : ∀ st p, (apply st p).fs = f st.fs p) :
    ∀ (ips : List (Nat × Path)) (st : PermOutcome),
      (ips.foldl (itemStep apply total) st).fs = (ips.map Prod.snd).foldl f st.fs
  | [], st => rfl
  | ip :: ips, st => by
    rw [List.foldl_cons, foldl_itemStep_fs hfs ips]
    simp [itemStep, hfs]

end Loop

theorem posixItem_events (st : PermOutcome) (p : Path) : (posixItem st p).events = st.events := by
  unfold posixItem setPermsPosix
  cases st.fs.chmod p (if st.fs.isdir p then 0o777 else 0o666) <;> rfl

theorem posixItem_grants (st : PermOutcome) (p : Path) : (posixItem st p).grants = st.grants := by
  unfold posixItem setPermsPosix
  cases st.fs.chmod p (if st.fs.isdir p then 0o777 else 0o666) <;> rfl

/-- The grants before the Windows loop, one per root, in order; nothing else changes. -/
theorem foldl_setPermsWindows : ∀ (roots : List Path) (st : PermOutcome),
    roots.foldl setPermsWindows st = { st with grants := st.grants ++ roots }
  | [], st => by simp
  | b :: roots, st => by
    rw [List.foldl_cons, foldl_setPermsWindows roots]
    simp [setPermsWindows]

/-- Given enough fuel for its scans, a run lists one set of items and returns, whatever item
the flag is first seen before: it sends `progress(i, total, path)` for the items before it,
numbered from one, then one `finished`, whose success says that the flag was not seen; on
Windows it has granted each root, in order, and on POSIX none, where it leaves the file system
of setting exactly the items before the stop, in order. -/
theorem run_signals_and_modes (w : PermissionUpdateWorker) (platform : Platform)
    (cancelAt : Option Nat) (fs : PosixFS) :
    ∃ fuel₀ items, ∀ fuel, fuel₀ ≤ fuel → collectItems fs fuel w.rootPaths = some items ∧
      ∃ o, w.run platform cancelAt fs fuel = some o ∧
      o.events = ((items.take (min (cancelAt.getD items.length) items.length)).enumFrom 1).map
          (fun ip => .progress ip.1 items.length ip.2) ++
        [if min (cancelAt.getD items.length) items.length < items.length then
          .finished false "Permission update cancelled."
        else .finished true
          ("Permissions updated for " ++ toString w.rootPaths.length ++ " top-level path(s).")] ∧
      o.grants = (match platform with
        | .posix => []
        | .windows => w.rootPaths) ∧
      (platform = .posix → o.fs = (items.take (min (cancelAt.getD items.length) items.length)).foldl
        PosixFS.chmodItem fs) := by
  obtain ⟨fuel₀, items, hitems⟩ := collectItems_total fs w.rootPaths
  refine ⟨fuel₀, items, fun fuel hle => ⟨hitems fuel hle, _, by rw [run, hitems fuel hle]; rfl, ?_⟩⟩
  cases platform with
  | posix =>
    simp only [itemLoop_eq, cancelPoint_zero, foldl_itemStep_events _ _ posixItem_events,
      foldl_itemStep_grants _ _ posixItem_grants, foldl_itemStep_fs _ _ posixItem_fs,
      List.enumFrom_map_snd]
    exact ⟨by simp, trivial, fun _ => trivial⟩
  | windows =>
    simp only [itemLoop_eq, cancelPoint_zero, foldl_itemStep_events _ _ (fun st _ => rfl),
      foldl_itemStep_grants _ _ (fun st _ => rfl), foldl_setPermsWindows]
    exact ⟨by simp, by simp, nofun⟩

theorem run_signals_and_modes_locked :
    ∃ fuel₀ items, ∀ fuel, fuel₀ ≤ fuel → collectItems lockedTree fuel [⟨true, ["r"]⟩] = some items ∧
      ∃ o, (⟨[⟨true, ["r"]⟩]⟩ : PermissionUpdateWorker).run .posix (some 1) lockedTree fuel = some o ∧
      o.events = ((items.take (min ((some 1).getD items.length) items.length)).enumFrom 1).map
          (fun ip => .progress ip.1 items.length ip.2) ++
        [if min ((some 1).getD items.length) items.length < items.length then
          .finished false "Permission update cancelled."
        else .finished true ("Permissions updated for " ++ toString 1 ++ " top-level path(s).")] ∧
      o.grants = [] ∧
      (Platform.posix = .posix → o.fs = (items.take (min ((some 1).getD items.length)
        items.length)).foldl PosixFS.chmodItem lockedTree) :=
  run_signals_and_modes ⟨[⟨true, ["r"]⟩]⟩ .posix (some 1) lockedTree

end PermissionUpdateWorker

end SakUtility
