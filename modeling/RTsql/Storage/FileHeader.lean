import RTsql.Library.Bytes

/-!
# The header of the database file

`FileHeader` of `file_header.rs`, in a build with encryption, and how `FileStorage::open_with_key`
begins. A header is the only code of what it decodes to. For an encrypted file it has the parameters
of the key derivation; those that `decode` lets through are not all accepted there, and then
`derive_key` panics. -/

namespace RTsql.Storage

open List RTsql.Library

structure FileHeader where
  version : ℕ
  flags : ℕ
  pageSize : ℕ
  salt : List UInt8
  kdfParams : List UInt8
  deriving DecidableEq

inductive HeaderError where
  | badMagic
  | zeroVersion
  | newerVersion (found : ℕ)
  | unknownFlags (bits : ℕ)
  | pageMismatch (found : ℕ)
  | reservedNonZero (region : String)
  deriving DecidableEq

/-- `RTSQLDB` and a zero. -/
def magic : List UInt8 := [82, 84, 83, 81, 76, 68, 66, 0]

/-- The `u32` at an offset. -/
def u32At (buf : List UInt8) (offset : ℕ) : ℕ := decodeLE ((buf.drop offset).take 4)

/-- `validate_kdf_params`. -/
def validateKdfParams (m t p : ℕ) : Bool := t ≠ 0 && p ≠ 0 && 1024 ≤ m && m ≤ 2 ^ 24

def FileHeader.encode (h : FileHeader) : List UInt8 :=
  magic ++ (encodeLE 4 h.version ++
    (encodeLE 4 h.flags ++ (encodeLE 4 h.pageSize ++ (h.salt ++ h.kdfParams))))

/-- `decode`, of 64 bytes. The lowest flag is that of encryption, and there are no others. -/
def FileHeader.decode (buf : List UInt8) : Except HeaderError FileHeader :=
  let version := u32At buf 8
  let flags := u32At buf 12
  let pageSize := u32At buf 16
  let salt := (buf.drop 20).take 32
  let kdfParams := buf.drop 52
  if buf.take 8 ≠ magic then .error .badMagic
  else if version = 0 then .error .zeroVersion
  else if version > 1 then .error (.newerVersion version)
  else if flags - flags % 2 ≠ 0 then .error (.unknownFlags (flags - flags % 2))
  else if pageSize ≠ 4096 then .error (.pageMismatch pageSize)
  else if flags % 2 ≠ 0 then
    if salt = replicate 32 0 then .error (.reservedNonZero "salt")
    else if validateKdfParams (u32At kdfParams 0) (u32At kdfParams 4) (u32At kdfParams 8) then
      .ok ⟨version, flags, pageSize, salt, kdfParams⟩
    else .error (.reservedNonZero "reserved")
  else if salt.any (· ≠ 0) then .error (.reservedNonZero "salt")
  else if kdfParams.any (· ≠ 0) then .error (.reservedNonZero "reserved")
  else .ok ⟨version, flags, pageSize, replicate 32 0, replicate 12 0⟩

/-- What opening a file can come to. Each error has the path of the file. -/
inductive Opened where
  | ok (recordSize pageCount : ℕ)
  | notADatabase
  | rejected (e : HeaderError)
  | invalidKey (message : String)
  | pageSizeMismatch (expected actual : ℕ)
  /-- The `expect` of `derive_key`. -/
  | panicked
  deriving DecidableEq

/-- The parameters that the constructor of `argon2` accepts. -/
def paramsAccepted (m t p : ℕ) : Bool := 1 ≤ p && p < 2 ^ 24 && 1 ≤ t && 8 * p ≤ m

/-- The pages of a file. -/
def countPages (recordSize fileLen : ℕ) : Opened :=
  if (fileLen - 64) % recordSize ≠ 0 then .pageSizeMismatch recordSize ((fileLen - 64) % recordSize)
  else .ok recordSize ((fileLen - 64) / recordSize)

/-- `open_with_key`, of a file that begins with `buf`; a new one is given a header. -/
def openWithKey (buf : List UInt8) (fileLen : ℕ) (key : Option String) : Opened :=
  if fileLen = 0 then
    if key.isNone then .ok 4096 0 else if paramsAccepted 19456 2 1 then .ok 4124 0 else .panicked
  else if fileLen < 64 then .notADatabase
  else
    match FileHeader.decode buf with
    | .error e => .rejected e
    | .ok h =>
      if h.flags % 2 ≠ 0 then
        if key.isNone then .invalidKey "database is encrypted, supply --key or RTSQL_KEY"
        else if paramsAccepted (u32At h.kdfParams 0) (u32At h.kdfParams 4) (u32At h.kdfParams 8) then
          countPages 4124 fileLen
        else .panicked
      else if key.isSome then .invalidKey "database is not encrypted"
      else countPages 4096 fileLen

variable {buf : List UInt8} {h : FileHeader}

theorem encodeLE_u32At {offset : ℕ} (hlen : offset + 4 ≤ buf.length) :
    encodeLE 4 (u32At buf offset) = (buf.drop offset).take 4 :=
  encodeLE_decodeLE (by rw [length_take, length_drop]; omega)

/-- Nothing of the bytes is lost. -/
theorem FileHeader.decode_eq_ok (hlen : buf.length = 64) (hd : decode buf = .ok h) :
    encode h = buf ∧ (h.flags % 2 ≠ 0 → h.flags = u32At buf 12 ∧ h.kdfParams = buf.drop 52 ∧
      validateKdfParams (u32At h.kdfParams 0) (u32At h.kdfParams 4) (u32At h.kdfParams 8)) := by
  have hpart (n k : ℕ) : (buf.drop n).take k ++ buf.drop (n + k) = buf.drop n := by
    rw [← drop_drop, take_append_drop]
  have hbuf : magic = buf.take 8 →
    encode ⟨u32At buf 8, u32At buf 12, u32At buf 16, (buf.drop 20).take 32, buf.drop 52⟩ = buf := by
    intro hmagic
    rw [encode, hmagic, encodeLE_u32At (by omega), encodeLE_u32At (by omega),
      encodeLE_u32At (by omega), hpart 20 32, hpart 16 4, hpart 12 4, hpart 8 4, take_append_drop]
  have hzeros {bs : List UInt8} (hany : ¬ bs.any (· ≠ 0) = true) : replicate bs.length 0 = bs :=
    (eq_replicate_iff.mpr ⟨rfl, fun b hb => by simpa using mt (any_eq_true.mpr ⟨b, hb, ·⟩) hany⟩).symm
  simp only [decode] at hd
  split_ifs at hd with hmagic _ _ _ _ _ _ hkdf hsalt hkdf
  · cases hd
    exact ⟨hbuf (not_not.mp hmagic).symm, fun _ => ⟨rfl, rfl, hkdf⟩⟩
  · cases hd
    have hsalt := hzeros hsalt
    have hkdf := hzeros hkdf
    rw [length_take, length_drop, hlen] at hsalt
    rw [length_drop, hlen] at hkdf
    exact ⟨hsalt ▸ hkdf ▸ hbuf (not_not.mp hmagic).symm, fun h => absurd h ‹_›⟩

theorem countPages_ne (recordSize fileLen : ℕ) : countPages recordSize fileLen ≠ .panicked := by
  unfold countPages
  split <;> simp

/-- Of the parameters that `decode` lets through, the constructor accepts those with eight blocks
for each lane. -/
theorem FileHeader.paramsAccepted_iff (hlen : buf.length = 64) (hd : decode buf = .ok h)
    (hflag : h.flags % 2 ≠ 0) :
    paramsAccepted (u32At h.kdfParams 0) (u32At h.kdfParams 4) (u32At h.kdfParams 8) = true ↔
      8 * u32At buf 60 ≤ u32At buf 52 := by
  obtain ⟨-, hparams, hvalid⟩ := (decode_eq_ok hlen hd).2 hflag
  have h52 : u32At h.kdfParams 0 = u32At buf 52 := by rw [hparams]; rfl
  have h60 : u32At h.kdfParams 8 = u32At buf 60 := by rw [hparams, u32At, u32At, drop_drop]
  rw [← h52, ← h60]
  simp only [validateKdfParams, paramsAccepted, Bool.and_eq_true, decide_eq_true_eq] at hvalid ⊢
  omega

/-- What decides whether opening panics: the header of an encrypted file that is given a key. -/
theorem openWithKey_panicked_iff {fileLen : ℕ} {key : Option String} :
    openWithKey buf fileLen key = .panicked ↔ 64 ≤ fileLen ∧ key.isSome = true ∧
      ∃ h, FileHeader.decode buf = .ok h ∧ h.flags % 2 ≠ 0 ∧
        ¬ paramsAccepted (u32At h.kdfParams 0) (u32At h.kdfParams 4) (u32At h.kdfParams 8) = true := by
  unfold openWithKey
  by_cases hnew : fileLen = 0
  · have hdefault : paramsAccepted 19456 2 1 = true := by decide
    rw [if_pos hnew, hdefault]
    cases key <;> simp [hnew]
  rw [if_neg hnew]
  by_cases hshort : fileLen < 64
  · rw [if_pos hshort]
    exact iff_of_false (by simp) fun h => absurd h.1 (by omega)
  rw [if_neg hshort, and_iff_right (Nat.le_of_not_lt hshort)]
  cases FileHeader.decode buf with
  | error e => simp
  | ok h =>
    have hpages (n : ℕ) := countPages_ne n fileLen
    simp only [Except.ok.injEq, exists_eq_left']
    cases key with
    | none =>
      simp only [Option.isNone_none, if_true, Option.isSome_none, Bool.false_eq_true, if_false,
        false_and, iff_false]
      split_ifs <;> simp [hpages]
    | some key =>
      simp only [Option.isNone_some, Bool.false_eq_true, if_false, Option.isSome_some, if_true, true_and]
      split_ifs <;> simp_all

/-- **Opening a file.** It does not panic exactly if a file of at least 64 bytes that is encrypted,
has a header that `decode` accepts and is opened with a key has at least eight blocks of memory for
each lane; those are the accepted parameters that the constructor accepts too. A header is the code
of what it decodes to, and of nothing else. -/
theorem open_total (hlen : buf.length = 64) (fileLen : ℕ) (key : Option String) :
    (openWithKey buf fileLen key ≠ .panicked ↔
      (64 ≤ fileLen → key.isSome = true → ∀ h, FileHeader.decode buf = .ok h → h.flags % 2 ≠ 0 →
        8 * u32At buf 60 ≤ u32At buf 52)) ∧
      ∀ h, FileHeader.decode buf = .ok h →
        (h.flags % 2 ≠ 0 →
          (paramsAccepted (u32At h.kdfParams 0) (u32At h.kdfParams 4) (u32At h.kdfParams 8) = true ↔
            8 * u32At buf 60 ≤ u32At buf 52)) ∧
        FileHeader.decode h.encode = .ok h ∧
        ∀ buf', buf'.length = 64 → FileHeader.decode buf' = .ok h → buf' = h.encode := by
  refine ⟨?_, fun h hd => ⟨FileHeader.paramsAccepted_iff hlen hd, ?_⟩⟩
  · rw [ne_eq, openWithKey_panicked_iff]
    constructor
    · intro hno hlong hkey h hd hflag
      by_contra hlanes
      exact hno ⟨hlong, hkey, h, hd, hflag, mt (FileHeader.paramsAccepted_iff hlen hd hflag).mp hlanes⟩
    · rintro hlanes ⟨hlong, hkey, h, hd, hflag, hparams⟩
      exact hparams ((FileHeader.paramsAccepted_iff hlen hd hflag).mpr (hlanes hlong hkey h hd hflag))
  · rw [(FileHeader.decode_eq_ok hlen hd).1]
    exact ⟨hd, fun buf' hlen' hd' =>
      (FileHeader.decode_eq_ok hlen' hd').1.symm.trans (FileHeader.decode_eq_ok hlen hd).1⟩

/-- The header of an encrypted file. -/
def encryptedHeader (m t p : ℕ) : List UInt8 :=
  FileHeader.encode ⟨1, 1, 4096, replicate 32 7, encodeLE 4 m ++ encodeLE 4 t ++ encodeLE 4 p⟩

theorem open_total_default : openWithKey (encryptedHeader 19456 2 1) 64 (some "key") ≠ .panicked :=
  (open_total (by decide) 64 (some "key")).1.mpr fun _ _ _ _ _ => by decide +kernel

theorem open_panics : openWithKey (encryptedHeader 1024 1 129) 64 (some "key") = .panicked := by
    decide +kernel

end RTsql.Storage
