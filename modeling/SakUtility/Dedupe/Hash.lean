import SakUtility.Dedupe.Delete

/-!
# The read loop of `chunked_file_hash`

`for chunk in iter(lambda: f.read(chunk_size), b""): hasher.update(chunk)`, with `f.read` a
function of the size asked for, the number of earlier calls and the bytes left, and `fuel`
counting the calls. Repeated `update` calls act as one call on their concatenation, so when
every read returns a nonempty prefix of at most `chunk_size` unread bytes, the chunked digest is
the one-shot digest the dedupe models use.
-/

namespace SakUtility

set_option autoImplicit false

variable {α β : Type}

/-- The chunks `iter(lambda: f.read(chunk_size), b"")` yields from the `k`-th call on, with
`rest` unread; `none` when more than `fuel` calls are needed. -/
def readChunks (read : Nat → Nat → List α → Nat) (chunkSize : Nat) :
    Nat → Nat → List α → Option (List (List α))
  | 0, _, _ => none
  | fuel + 1, k, rest =>
    let chunk := rest.take (read chunkSize k rest)
    if chunk.isEmpty then some []
    else (readChunks read chunkSize fuel (k + 1) (rest.drop (read chunkSize k rest))).map
      (chunk :: ·)

/-- `chunked_file_hash` once `open(filepath, "rb")` succeeded on `content`: the digest of
everything `hasher.update` was given. -/
def hashOpenFile (md5 : List α → β) (read : Nat → Nat → List α → Nat) (chunkSize fuel : Nat)
    (content : List α) : Option β :=
  (readChunks read chunkSize fuel 0 content).map fun chunks => md5 chunks.flatten

/-- `chunked_file_hash(filepath, chunk_size)` over the inode model, the file's characters
standing for its bytes. -/
def chunkedFileHashLoop (md5 : String → String) (read : Nat → Nat → List Char → Nat)
    (chunkSize fuel : Nat) (fs : PosixFS) (filepath : Path) : Option String :=
  (fs.readFile filepath).bind fun content =>
    hashOpenFile (fun bytes => md5 (String.mk bytes)) read chunkSize fuel content.data

/-- What `f.read(size)` does on a file: while bytes are left, it returns a nonempty prefix
of at most `size` of them. -/
def ValidRead (read : Nat → Nat → List α → Nat) (size : Nat) : Prop :=
  ∀ k rest, rest ≠ [] → 0 < read size k rest ∧ read size k rest ≤ size

/-- A regular file's `f.read(size)`: as many bytes as asked for, while there are. -/
def fullRead (size _k : Nat) (_rest : List α) : Nat := size

theorem validRead_fullRead {size : Nat} (h : 0 < size) : ValidRead (α := α) fullRead size :=
  fun _ _ _ => ⟨h, le_rfl⟩

section Loop

variable {read : Nat → Nat → List α → Nat} {chunkSize : Nat}

/-- At end of file the first read returns `b""` and the loop stops. -/
@[simp] theorem readChunks_eof (fuel k : Nat) :
    readChunks read chunkSize (fuel + 1) k ([] : List α) = some [] := by
  simp [readChunks]

/-- A read of `n > 0` bytes from a nonempty rest hands them to the hasher and goes on. -/
theorem readChunks_chunk {fuel k : Nat} {rest : List α} (hr : rest ≠ [])
    (hn : 0 < read chunkSize k rest) :
    readChunks read chunkSize (fuel + 1) k rest =
      (readChunks read chunkSize fuel (k + 1) (rest.drop (read chunkSize k rest))).map
        (rest.take (read chunkSize k rest) :: ·) := by
  have : (rest.take (read chunkSize k rest)).isEmpty = false := by
    cases rest with
    | nil => exact absurd rfl hr
    | cons a as =>
      obtain ⟨n, hn'⟩ := Nat.exists_eq_add_of_lt hn
      simp [hn']
  simp only [readChunks, this]
  rfl

/-- With more calls allowed than bytes left, the loop stops and feeds exactly the unread
bytes, in nonempty chunks of at most `chunkSize`. -/
theorem readChunks_spec (hread : ValidRead read chunkSize) :
    ∀ (fuel k : Nat) (rest : List α), rest.length < fuel →
      ∃ chunks, readChunks read chunkSize fuel k rest = some chunks ∧ chunks.flatten = rest ∧
        ∀ c ∈ chunks, c ≠ [] ∧ c.length ≤ chunkSize
  | 0, _, _, h => absurd h (Nat.not_lt_zero _)
  | fuel + 1, k, rest, h => by
    rcases eq_or_ne rest [] with rfl | hr
    · exact ⟨[], readChunks_eof fuel k, rfl, by simp⟩
    obtain ⟨hpos, hle⟩ := hread k rest hr
    have hlen : (rest.drop (read chunkSize k rest)).length < fuel := by
      have := List.length_pos.mpr hr
      rw [List.length_drop]; omega
    obtain ⟨cs, hcs, hjoin, hsize⟩ := readChunks_spec hread fuel (k + 1) _ hlen
    refine ⟨_ :: cs, by rw [readChunks_chunk hr hpos, hcs]; rfl, by simp [hjoin], ?_⟩
    intro c hc
    rcases List.mem_cons.mp hc with rfl | hc
    · refine ⟨fun h0 => ?_, (List.length_take_le _ _).trans hle⟩
      exact (List.take_eq_nil_iff.mp h0).elim (by omega) hr
    · exact hsize c hc

end Loop

theorem hashOpenFile_eq_md5 {read : Nat → Nat → List α → Nat} {chunkSize : Nat}
    (hread : ValidRead read chunkSize) (md5 : List α → β) (content : List α) (fuel : Nat)
    (hfuel : content.length < fuel) :
    (∃ chunks, readChunks read chunkSize fuel 0 content = some chunks ∧
      chunks.flatten = content) ∧
    hashOpenFile md5 read chunkSize fuel content = some (md5 content) := by
  obtain ⟨cs, hcs, hjoin, -⟩ := readChunks_spec hread fuel 0 content hfuel
  exact ⟨⟨cs, hcs, hjoin⟩, by simp [hashOpenFile, hcs, hjoin]⟩

/-- Five bytes read two at a time hash like the whole content. -/
theorem hashOpenFile_eq_md5_five :
    ValidRead (α := UInt8) fullRead 2 ∧ [1, 2, 3, 4, 5].length < 6 ∧
      hashOpenFile id fullRead 2 6 ([1, 2, 3, 4, 5] : List UInt8) = some [1, 2, 3, 4, 5] :=
  ⟨validRead_fullRead (by decide), by decide,
    (hashOpenFile_eq_md5 (validRead_fullRead (by decide)) id _ 6 (by decide)).2⟩

/-- With enough calls allowed, the chunked digest of a file is its one-shot digest, the
`chunkedFileHash` the duplicate finder is modelled with. -/
theorem chunkedFileHashLoop_eq {read : Nat → Nat → List Char → Nat} {chunkSize : Nat}
    (hread : ValidRead read chunkSize) (md5 : String → String) (fs : PosixFS) (filepath : Path)
    (fuel : Nat) (hfuel : ∀ content ∈ fs.readFile filepath, content.length < fuel) :
    chunkedFileHashLoop md5 read chunkSize fuel fs filepath = chunkedFileHash md5 fs filepath := by
  unfold chunkedFileHashLoop chunkedFileHash
  cases hc : fs.readFile filepath with
  | none => rfl
  | some content =>
    obtain ⟨cs, hcs, hjoin, -⟩ := readChunks_spec hread fuel 0 content.data (hfuel content hc)
    simp [hashOpenFile, hcs, hjoin]

end SakUtility
