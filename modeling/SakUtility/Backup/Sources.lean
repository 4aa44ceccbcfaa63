import SakUtility.PathText

/-!
# Backup sources and the user label

`select_users_for_backup` resolves a template of `backup_sources` for user `u` as
`os.path.join(USER_ROOT, subpath_tpl.format(user=u))`, and `trigger_backup` takes the user back
as `os.path.basename(os.path.dirname(p))`. Under a template of one component the label is the
user; the Outlook template of Windows goes four components deep, and its label is `Microsoft`
whoever the user is, so the Outlook files of all users go to one destination root.
-/

namespace SakUtility

set_option autoImplicit false

open PathText

/-- `USER_ROOT`: on Windows `os.path.expandvars(r"C:\\Users")`, which has no variable to
expand and keeps both backslashes of the raw string; `/Users` elsewhere. -/
def userRoot : Platform → String
  | .windows => "C:\\\\Users"
  | .posix => "/Users"

/-- The replacement field of the templates. -/
def userField : String := "\x7buser\x7d"

/-- Where `str.format` is in the template: in text, after `{`, inside a replacement field
(with the characters of its name read so far), or after a `}` of the text. -/
inductive FormatState
  | text
  | openBrace
  | field (name : List Char)
  | closeBrace
  deriving DecidableEq, Repr

/-- One character of the template under `format(user=u)`: the next state and the characters
it writes; `none` when `format` raises. A field of another name or an empty one raises, and
so does a `}` of the text that is not doubled. A conversion, a format spec, an attribute or
an index (`{user!r}`, `{user:>8}`), which no template holds, is read as part of the name. -/
def formatStep (u : List Char) : FormatState → Char → Option (FormatState × List Char)
  | .text, c =>
    if c = '\x7b' then some (.openBrace, []) else if c = '\x7d' then some (.closeBrace, [])
    else some (.text, [c])
  | .openBrace, c =>
    if c = '\x7b' then some (.text, ['\x7b']) else if c = '\x7d' then none
    else some (.field [c], [])
  | .field name, c =>
    if c = '\x7d' then (if name = "user".data then some (.text, u) else none)
    else some (.field (name ++ [c]), [])
  | .closeBrace, c => if c = '\x7d' then some (.text, ['\x7d']) else none

/-- `format` over the rest of the template from state `st`; it must end in text. -/
def formatRun (u : List Char) : FormatState → List Char → Option (List Char)
  | .text, [] => some []
  | _, [] => none
  | st, c :: rest =>
    match formatStep u st c with
    | some (st', out) => (formatRun u st' rest).map (out ++ ·)
    | none => none

/-- `template.format(user=u)`; `none` when it raises. -/
def formatUser (template u : String) : Option String :=
  (formatRun u.data .text template.data).map String.mk

example : formatUser ⟨userField.data ++ "/Documents".data⟩ "bob" = some "bob/Documents" ∧
    formatUser "\x7b\x7buser\x7d\x7d" "bob" = some "\x7buser\x7d" ∧
    formatUser "\x7bname\x7d" "bob" = none ∧ formatUser "a\x7db" "bob" = none := by
  decide

/-- A value of `backup_sources`: `(subpath_tpl, patterns, dest)`. -/
structure BackupSource where
  subpathTpl : String
  patterns : List String
  dest : String
  deriving DecidableEq, Repr

/-- `self.backup_sources`, by button name. -/
def backupSources (pl : Platform) : List (String × BackupSource) :=
  match pl with
  | .windows => [
      ("Backup Contacts", ⟨pl.join userField ["Contacts"], ["*"], "Contacts"⟩),
      ("Backup Photos", ⟨pl.join userField ["Pictures"], ["*"], "Pictures"⟩),
      ("Backup Documents", ⟨pl.join userField ["Documents"], ["*"], "Documents"⟩),
      ("Backup Videos", ⟨pl.join userField ["Videos"], ["*"], "Videos"⟩),
      ("Backup Music", ⟨pl.join userField ["Music"], ["*"], "Music"⟩),
      ("Backup Desktop", ⟨pl.join userField ["Desktop"], ["*"], "Desktop"⟩),
      ("Backup Downloads", ⟨pl.join userField ["Downloads"], ["*"], "Downloads"⟩),
      ("Backup Outlook Files", ⟨pl.join userField ["AppData", "Local", "Microsoft", "Outlook"],
        ["*.pst", "*.ost", "*.nst"], "Outlook"⟩)]
  | .posix => [
      ("Backup Contacts", ⟨pl.join userField ["Contacts"], ["*"], "Contacts"⟩),
      ("Backup Photos", ⟨pl.join userField ["Pictures"], ["*"], "Pictures"⟩),
      ("Backup Documents", ⟨pl.join userField ["Documents"], ["*"], "Documents"⟩),
      ("Backup Videos", ⟨pl.join userField ["Movies"], ["*"], "Movies"⟩),
      ("Backup Music", ⟨pl.join userField ["Music"], ["*"], "Music"⟩),
      ("Backup Desktop", ⟨pl.join userField ["Desktop"], ["*"], "Desktop"⟩),
      ("Backup Downloads", ⟨pl.join userField ["Downloads"], ["*"], "Downloads"⟩)]

/-- The path `select_users_for_backup` resolves for user `u`. -/
def resolveSource (pl : Platform) (u : String) (src : BackupSource) : Option String :=
  (formatUser src.subpathTpl u).map fun subpath => pl.join (userRoot pl) [subpath]

/-- `user = os.path.basename(os.path.dirname(p))`. -/
def userLabel (pl : Platform) (p : String) : String := pl.basename (pl.dirname p)

/-- `destination_root = os.path.join(self.backup_location, user, dest)`. -/
def destinationRoot (pl : Platform) (backupLocation user dest : String) : String :=
  pl.join backupLocation [user, dest]

/-- A user folder name as `os.listdir(USER_ROOT)` gives it, one path component: not empty,
with no separator, and on Windows no drive colon. -/
def Platform.IsName : Platform → String → Prop
  | .posix, u => u.data ≠ [] ∧ ∀ c ∈ u.data, c ≠ '/'
  | .windows, u => u.data ≠ [] ∧ ∀ c ∈ u.data, ntSep c = false ∧ c ≠ ':'

instance (pl : Platform) (u : String) : Decidable (pl.IsName u) :=
  match pl with
  | .posix => inferInstanceAs (Decidable (u.data ≠ [] ∧ ∀ c ∈ u.data, c ≠ '/'))
  | .windows => inferInstanceAs (Decidable (u.data ≠ [] ∧ ∀ c ∈ u.data, ntSep c = false ∧ c ≠ ':'))

/-- Characters `format` copies as they are. -/
def Plain (X : List Char) : Prop := ∀ c ∈ X, c ≠ '\x7b' ∧ c ≠ '\x7d'

instance : DecidablePred Plain := fun X =>
  inferInstanceAs (Decidable (∀ c ∈ X, c ≠ '\x7b' ∧ c ≠ '\x7d'))

theorem formatRun_plain (u : List Char) :
    ∀ X : List Char, Plain X → formatRun u .text X = some X
  | [], _ => rfl
  | c :: X, h => by
    obtain ⟨h1, h2⟩ := h c (List.mem_cons_self _ _)
    simp [formatRun, formatStep, h1, h2,
      formatRun_plain u X fun c hc => h c (List.mem_cons_of_mem _ hc)]

theorem formatUser_userField (u : String) (X : List Char) (hX : Plain X) :
    formatUser ⟨userField.data ++ X⟩ u = some ⟨u.data ++ X⟩ := by
  have : formatRun u.data .text (userField.data ++ X) =
      (formatRun u.data .text X).map (u.data ++ ·) := by
    simp [userField, formatRun, formatStep, Function.comp_def]
  simp [formatUser, this, formatRun_plain u.data X hX]

theorem getLast?_append_of_ne_nil {A B : List Char} (hB : B ≠ []) :
    (A ++ B).getLast? = B.getLast? := by
  obtain ⟨b, hb⟩ := Option.ne_none_iff_exists'.mp (mt List.getLast?_eq_none_iff.mp hB)
  simp [hb]

theorem getLast?_append_cons {A B : List Char} (c : Char) (hB : B ≠ []) :
    (A ++ c :: B).getLast? = B.getLast? := by
  rw [show A ++ c :: B = (A ++ [c]) ++ B by simp, getLast?_append_of_ne_nil hB]

theorem ntJoin_userField (name : String) (h0 : ∀ c ∈ name.data.head?, ntSep c = false)
    (h1 : name.data[1]? ≠ some ':') :
    ntJoin userField [name] = ⟨userField.data ++ '\\' :: name.data⟩ := by
  have hroot : ntSplitroot userField = ("", "", userField) := rfl
  have hlast : lastNotIn ntSep userField = true := rfl
  simp [ntJoin, ntJoinStep, hroot, ntSplitroot_relative name h0 h1, ntAppend, hlast,
    String.ext_iff]

theorem posixJoin_userField (name : String) (h0 : name.data.head? ≠ some '/') :
    posixJoin userField [name] = ⟨userField.data ++ '/' :: name.data⟩ := by
  rw [posixJoin_single userField name rfl h0]
  simp [String.ext_iff]

/-! ### Windows -/

section Windows

variable {u : String} (hu : Platform.windows.IsName u)
include hu

theorem Platform.IsName.windows_last : ∃ c, u.data.getLast? = some c ∧ ntSep c = false := by
  obtain ⟨hne, hc⟩ := hu
  obtain ⟨c, hc'⟩ := Option.ne_none_iff_exists'.mp (mt List.getLast?_eq_none_iff.mp hne)
  exact ⟨c, hc', (hc c (List.mem_of_getLast?_eq_some hc')).1⟩

/-- A Windows name followed by anything but a colon has no drive and no root. -/
theorem Platform.IsName.windows_relative (t : List Char) (ht : t.head? ≠ some ':') :
    (∀ c ∈ (u.data ++ t).head?, ntSep c = false) ∧ (u.data ++ t)[1]? ≠ some ':' := by
  obtain ⟨hne, hc⟩ := hu
  obtain ⟨a, l, hal⟩ := List.exists_cons_of_ne_nil hne
  rw [hal]
  refine ⟨by simpa using (hc a (by simp [hal])).1, ?_⟩
  cases l with
  | nil => cases t <;> simp_all
  | cons b l => simpa using (hc b (by simp [hal])).2

theorem resolveSource_windows (X : List Char) (hX : Plain X) (pats : List String) (dest : String) :
    resolveSource .windows u ⟨⟨userField.data ++ '\\' :: X⟩, pats, dest⟩ =
      some ⟨'C' :: ':' :: '\\' :: ("\\Users".data ++ '\\' :: (u.data ++ '\\' :: X))⟩ := by
  have hplain : Plain ('\\' :: X) := fun c hc => by
    rcases List.mem_cons.mp hc with rfl | hc
    · decide
    · exact hX c hc
  obtain ⟨h0, h1⟩ := hu.windows_relative ('\\' :: X) (by simp)
  simp only [resolveSource, formatUser_userField u _ hplain, Option.map_some']
  exact congrArg some
    (ntJoin_drive_single "\\Users".data ⟨'s', rfl, rfl⟩ ⟨u.data ++ '\\' :: X⟩ h0 h1)

theorem userLabel_windows_single (X : List Char) (hX : Plain X) (hsep : ∀ c ∈ X, ntSep c = false)
    (pats : List String) (dest : String) :
    (resolveSource .windows u ⟨⟨userField.data ++ '\\' :: X⟩, pats, dest⟩).map
      (userLabel .windows) = some u := by
  obtain ⟨c, hc, hc'⟩ := hu.windows_last
  have hpath : "\\Users".data ++ '\\' :: (u.data ++ '\\' :: X) =
      ("\\Users".data ++ '\\' :: u.data) ++ '\\' :: X := by simp
  rw [resolveSource_windows hu X hX, Option.map_some']
  simp only [userLabel, Platform.dirname, Platform.basename, Platform.split]
  rw [hpath, ntSplit_drive _ X ⟨c, (getLast?_append_cons _ hu.1).trans hc, hc'⟩ hsep,
    ntSplit_drive "\\Users".data u.data ⟨'s', rfl, rfl⟩ fun c hc => (hu.2 c hc).1]

theorem userLabel_windows_join {name : String} (hname : Platform.windows.IsName name)
    (hplain : Plain name.data) (pats : List String) (dest : String) :
    (resolveSource .windows u ⟨Platform.windows.join userField [name], pats, dest⟩).map
      (userLabel .windows) = some u := by
  obtain ⟨h0, h1⟩ := hname.windows_relative [] (by simp)
  rw [List.append_nil] at h0 h1
  rw [Platform.join, ntJoin_userField name h0 h1]
  exact userLabel_windows_single hu _ hplain (fun c hc => (hname.2 c hc).1) pats dest

/-- Under the Outlook template, the label is `Microsoft` whoever the user is. -/
theorem userLabel_windows_outlook (pats : List String) (dest : String) :
    (resolveSource .windows u
      ⟨Platform.windows.join userField ["AppData", "Local", "Microsoft", "Outlook"], pats, dest⟩).map
      (userLabel .windows) = some "Microsoft" := by
  have htpl : Platform.windows.join userField ["AppData", "Local", "Microsoft", "Outlook"] =
      ⟨userField.data ++ '\\' :: "AppData\\Local\\Microsoft\\Outlook".data⟩ := by decide
  have h1 : "\\Users".data ++ '\\' :: (u.data ++ '\\' :: "AppData\\Local\\Microsoft\\Outlook".data) =
      ("\\Users".data ++ '\\' :: u.data ++ "\\AppData\\Local\\Microsoft".data) ++
        '\\' :: "Outlook".data := by simp
  have h2 : "\\Users".data ++ '\\' :: u.data ++ "\\AppData\\Local\\Microsoft".data =
      ("\\Users".data ++ '\\' :: u.data ++ "\\AppData\\Local".data) ++ '\\' :: "Microsoft".data := by
    simp
  rw [htpl, resolveSource_windows hu _ (by decide), Option.map_some']
  simp only [userLabel, Platform.dirname, Platform.basename, Platform.split]
  rw [h1, ntSplit_drive _ _ ⟨'t', by rw [getLast?_append_of_ne_nil (by simp)]; rfl, rfl⟩ (by decide),
    h2, ntSplit_drive _ _ ⟨'l', by rw [getLast?_append_of_ne_nil (by simp)]; rfl, rfl⟩ (by decide)]

end Windows

/-! ### POSIX -/

section Posix

variable {u : String} (hu : Platform.posix.IsName u)
include hu

theorem Platform.IsName.posix_last : ∃ c, u.data.getLast? = some c ∧ c ≠ '/' := by
  obtain ⟨hne, hc⟩ := hu
  obtain ⟨c, hc'⟩ := Option.ne_none_iff_exists'.mp (mt List.getLast?_eq_none_iff.mp hne)
  exact ⟨c, hc', hc c (List.mem_of_getLast?_eq_some hc')⟩

theorem Platform.IsName.posix_head (t : List Char) : (u.data ++ t).head? ≠ some '/' := by
  obtain ⟨a, l, hal⟩ := List.exists_cons_of_ne_nil hu.1
  simpa [hal] using hu.2 a (by simp [hal])

theorem resolveSource_posix (X : List Char) (hX : Plain X) (pats : List String) (dest : String) :
    resolveSource .posix u ⟨⟨userField.data ++ '/' :: X⟩, pats, dest⟩ =
      some ⟨"/Users".data ++ '/' :: (u.data ++ '/' :: X)⟩ := by
  have hplain : Plain ('/' :: X) := fun c hc => by
    rcases List.mem_cons.mp hc with rfl | hc
    · decide
    · exact hX c hc
  simp only [resolveSource, formatUser_userField u _ hplain, Option.map_some', userRoot,
    Platform.join, posixJoin_single "/Users" ⟨u.data ++ '/' :: X⟩ rfl (hu.posix_head _)]
  simp [String.ext_iff]

theorem userLabel_posix_join {name : String} (hname : Platform.posix.IsName name)
    (hplain : Plain name.data) (pats : List String) (dest : String) :
    (resolveSource .posix u ⟨Platform.posix.join userField [name], pats, dest⟩).map
      (userLabel .posix) = some u := by
  obtain ⟨c, hc, hc'⟩ := hu.posix_last
  have hpath : "/Users".data ++ '/' :: (u.data ++ '/' :: name.data) =
      ("/Users".data ++ '/' :: u.data) ++ '/' :: name.data := by simp
  have hname' := hname.posix_head []
  rw [List.append_nil] at hname'
  rw [Platform.join, posixJoin_userField name hname', resolveSource_posix hu _ hplain,
    Option.map_some']
  simp only [userLabel, Platform.dirname, Platform.basename, Platform.split]
  rw [hpath, posixSplit_append _ _ ⟨c, (getLast?_append_cons _ hu.1).trans hc, hc'⟩
    fun h => hname.2 _ h rfl, posixSplit_append "/Users".data u.data ⟨'s', rfl, by decide⟩
    fun h => hu.2 _ h rfl]

end Posix

/-- The label `trigger_backup` takes back from the path of every backup source is the user,
except under the Outlook template of Windows, where it is `Microsoft`. -/
theorem userLabel_resolveSource (pl : Platform) (u : String) (hu : pl.IsName u) {name : String}
    {src : BackupSource} (hs : (name, src) ∈ backupSources pl) :
    (resolveSource pl u src).map (userLabel pl) =
      some (if pl = .windows ∧ name = "Backup Outlook Files" then "Microsoft" else u) := by
  cases pl with
  | windows =>
    split
    · obtain ⟨-, rfl⟩ := ‹_ ∧ _›
      obtain rfl : src = ⟨Platform.windows.join userField ["AppData", "Local", "Microsoft", "Outlook"],
          ["*.pst", "*.ost", "*.nst"], "Outlook"⟩ := by simpa [backupSources] using hs
      exact userLabel_windows_outlook hu _ _
    · simp only [backupSources, List.mem_cons, Prod.mk.injEq, List.mem_singleton,
        List.not_mem_nil, or_false] at hs
      rcases hs with ⟨rfl, rfl⟩ | ⟨rfl, rfl⟩ | ⟨rfl, rfl⟩ | ⟨rfl, rfl⟩ | ⟨rfl, rfl⟩ | ⟨rfl, rfl⟩ |
        ⟨rfl, rfl⟩ | ⟨rfl, rfl⟩
      iterate 7 exact userLabel_windows_join hu (by decide) (by decide) _ _
      rename_i h
      exact absurd ⟨rfl, rfl⟩ h
  | posix =>
    rw [if_neg fun h => nomatch h.1]
    simp only [backupSources, List.mem_cons, Prod.mk.injEq, List.mem_singleton, List.not_mem_nil,
      or_false] at hs
    rcases hs with ⟨rfl, rfl⟩ | ⟨rfl, rfl⟩ | ⟨rfl, rfl⟩ | ⟨rfl, rfl⟩ | ⟨rfl, rfl⟩ | ⟨rfl, rfl⟩ |
      ⟨rfl, rfl⟩
    all_goals exact userLabel_posix_join hu (by decide) (by decide) _ _

/-- On Windows, `alice` and `bob` both get the Outlook label `Microsoft`. -/
theorem userLabel_resolveSource_outlook :
    (resolveSource .windows "alice" ⟨Platform.windows.join userField
        ["AppData", "Local", "Microsoft", "Outlook"], ["*.pst", "*.ost", "*.nst"], "Outlook"⟩).map
      (userLabel .windows) = some "Microsoft" ∧
    (resolveSource .windows "bob" ⟨Platform.windows.join userField
        ["AppData", "Local", "Microsoft", "Outlook"], ["*.pst", "*.ost", "*.nst"], "Outlook"⟩).map
      (userLabel .windows) = some "Microsoft" := by
  have hs : ("Backup Outlook Files", (⟨Platform.windows.join userField
      ["AppData", "Local", "Microsoft", "Outlook"], ["*.pst", "*.ost", "*.nst"], "Outlook"⟩ :
        BackupSource)) ∈ backupSources .windows := by simp [backupSources]
  exact ⟨by simpa using userLabel_resolveSource .windows "alice" (by decide) hs,
    by simpa using userLabel_resolveSource .windows "bob" (by decide) hs⟩

example : destinationRoot .windows "D:\\Backup" "Microsoft" "Outlook" =
    "D:\\Backup\\Microsoft\\Outlook" := by
  decide

end SakUtility
