import SakUtility.Posix.Resolve

/-!
# Unlinking entries

`os.remove` unlinks one entry that does not name a directory, in a directory the user may
write and search.
-/

namespace SakUtility

set_option autoImplicit false

namespace PosixFS

variable (fs : PosixFS)

/-- No inode is a symbolic link. -/
def NoLinks : Prop := ∀ i x, fs.get? i = some x → ∀ t, x.node ≠ .symlink t

theorem get?_unlink (d : Nat) (name : String) (i : Nat) :
    (fs.unlink d name).get? i = (fs.get? i).map fun x => if d = i then x.dropEntry name else x := by
  simp [get?, unlink, List.getElem?_modify]

theorem child_eq_some {cur j : Nat} {name : String} (h : fs.child cur name = some j) :
    ∃ es m, fs.get? cur = some ⟨.dir es, m⟩ ∧ canSearch m = true ∧ (name, j) ∈ es := by
  unfold child at h
  split at h
  · rename_i es m hg
    split_ifs at h with hs
    exact ⟨es, m, hg, hs, mem_of_lookup h⟩
  · cases h

theorem remove_eq_some {p : Path} {fs' : PosixFS} (h : fs.remove p = some fs') :
    ∃ name d es m j, p.parts.getLast? = some name ∧ fs.resolve p.dirname = some d ∧
      fs.get? d = some ⟨.dir es, m⟩ ∧ (canWrite m && canSearch m) = true ∧ (name, j) ∈ es ∧
      fs.entryIsDir j ≠ some true ∧ fs' = fs.unlink d name := by
  unfold remove at h
  split at h
  · rename_i name d hn hd
    split at h
    · rename_i es m hg
      split_ifs at h with hwm
      split at h
      · rename_i j hj
        split_ifs at h with hdir
        exact ⟨name, d, es, m, j, hn, hd, hg, hwm, mem_of_lookup hj, hdir, (Option.some.inj h).symm⟩
      · cases h
    · cases h
  · cases h

end PosixFS

end SakUtility
