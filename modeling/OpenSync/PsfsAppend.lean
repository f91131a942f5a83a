import OpenSync.PsfsFormat

/-!
# Appending a record to a PSFS file

A complete record is read back as it was written. A file to which `recordWrite` appended scans to the
old records, followed by the new one if all of its bytes up to the CRC went in. This needs that the
appended bytes do not complete a record in bytes the scan had rejected (`Inert`) and that the rest
of a short write does not hold a record image of its own.
-/

namespace OpenSync.Psfs
open List Record
open Journal (scan rejects)

theorem crc32_append (crc : BitVec 32) (a b : Bytes) : crc32 (crc32 crc a) b = crc32 crc (a ++ b) := by
  rw [crc32, crc32, crc32, BitVec.not_not, Crc.bytes_append]

theorem crc32_self (crc : BitVec 32) (d : Bytes) : crc32 (crc32 crc d) (Crc.leBytes (crc32 crc d)) = crc32Verify := by
  rw [crc32_append, crc32, Crc.bytes_append, crc32, Crc.bytes_residue]
  decide +kernel

/-- Chunks fed one after the other give the CRC of the whole, and a string with the stored bytes of its CRC behind it
gives the constant. -/
theorem crc32_chunks_and_residue (crc : BitVec 32) (chunks : List Bytes) (d : Bytes) :
    chunks.foldl crc32 crc = crc32 crc chunks.flatten ∧ crc32 crc (d ++ Crc.leBytes (crc32 crc d)) = crc32Verify := by
  constructor
  · induction chunks generalizing crc with
    | nil => exact BitVec.not_not.symm
    | cons a chunks ih => rw [foldl_cons, ih, crc32_append, flatten_cons]
  · rw [← crc32_append]
    exact crc32_self crc d

theorem recordBody_length (pr : Record) : (recordBody pr).length = 12 + pr.payload.length := by
  simp [recordBody, payload, Crc.leBytes]
  omega

theorem splitKey_payload (pr : Record) : splitKey pr.payload = some (pr.key, pr.data) := by
  have ht : pr.payload.takeWhile (· ≠ 0) = pr.key.1 := by
    rw [payload, takeWhile_append_of_pos]
    · simp
    · intro x hx
      have hne : x ≠ 0 := fun h => pr.key.2 (h ▸ hx)
      simpa using hne
  have hl : pr.payload.length = pr.key.1.length + (1 + pr.data.length) := by
    simp [payload]
    omega
  unfold splitKey
  rw [if_pos (by rw [ht, hl]; omega)]
  simp only [ht, Option.some.injEq, Prod.mk.injEq, true_and]
  rw [payload, ← drop_drop, drop_left]
  rfl

def Record.stored (pr : Record) : Record :=
  { pr with dirty := false, used := 12 + (pr.payload.length : ℤ) }

variable {pr : Record}

theorem accepts_recordBody (h : pr.payload.length ≤ maxRw) (w : Bytes) :
    Accepts (recordBody pr ++ w) (be32 pr.payload.length) pr.payload
      (Crc.leBytes (recordCrc pr)) w pr.stored := by
  have hsz : pr.key.1.length + 1 + pr.data.length = pr.payload.length := by
    simp [payload]
    omega
  have hp : (pr.key.1 ++ [0]) ++ pr.data = pr.payload := by simp [payload]
  have hc : recordCrc pr = crc32 (crc32 (crc32 0 (be32 magic)) (be32 pr.payload.length)) pr.payload := by
    rw [recordCrc, hsz, crc32_append _ _ pr.data, hp]
  refine ⟨?_, rfl, rfl, ?_, h, ?_, splitKey_payload pr, rfl, rfl⟩
  · rw [recordBody, hsz]
    simp [payload]
  · exact ofBe32_be32 (lt_of_le_of_lt h (by decide))
  · rw [hc]
    exact crc32_self _ _

theorem head_recordBody (h : pr.payload.length ≤ maxRw) (w : Bytes) :
    head (recordBody pr ++ w) = some (pr.stored, (recordBody pr).length) := by
  rw [recordBody_length]
  exact head_of_accepts (accepts_recordBody h w)

def written (f : Bytes) (pr : Record) (n : ℕ) : Bytes :=
  (recordIov f.length pr).take (min n (min maxRw (recordIov f.length pr).length))

theorem recordWrite_file (f : Bytes) (pr : Record) (n : ℕ) : (recordWrite f pr n).1 = f ++ written f pr n := by
  unfold recordWrite written
  dsimp only
  split_ifs <;> rfl

/-- The record went in up to its CRC; only padding may be missing. -/
def Reached (f : Bytes) (pr : Record) (n : ℕ) : Prop :=
  padLen f.length + (recordBody pr).length ≤ (written f pr n).length

instance (f : Bytes) (pr : Record) (n : ℕ) : Decidable (Reached f pr n) :=
  inferInstanceAs (Decidable (_ ≤ _))

/-- Appending `w` to `f` completes no record in bytes that the scan of `f` rejects. -/
def Inert (f w : Bytes) : Prop := ∀ s ∈ rejects head f, head (s ++ w) = none

instance (f w : Bytes) : Decidable (Inert f w) :=
  inferInstanceAs (Decidable (∀ s ∈ rejects head f, head (s ++ w) = none))

/-- The write completes no record in rejected bytes, and what a short write leaves behind holds no
record image. -/
def WriteSafe (f : Bytes) (pr : Record) (n : ℕ) : Prop :=
  Inert f (written f pr n) ∧ (¬ Reached f pr n → scan head ((written f pr n).drop (padLen f.length)) = [])

instance (f : Bytes) (pr : Record) (n : ℕ) : Decidable (WriteSafe f pr n) :=
  inferInstanceAs (Decidable (_ ∧ _))

theorem recordIov_length (size : ℕ) (pr : Record) :
    (recordIov size pr).length = padLen size + (recordBody pr).length + padLen (recordBody pr).length := by
  simp [recordIov, Nat.add_assoc]

theorem recordIov_drop (size : ℕ) (pr : Record) : (recordIov size pr).drop (padLen size) =
    recordBody pr ++ List.replicate (padLen (recordBody pr).length) padding := by
  rw [recordIov, append_assoc, drop_left' (length_replicate ..)]

theorem written_length (f : Bytes) (pr : Record) (n : ℕ) :
    (written f pr n).length = min n (min maxRw (recordIov f.length pr).length) := by
  rw [written, length_take]
  omega

variable {f : Bytes} {n : ℕ}

theorem Reached.payload_le (h : Reached f pr n) : pr.payload.length ≤ maxRw := by
  rw [Reached, written_length, recordBody_length] at h
  omega

theorem written_drop (f : Bytes) (pr : Record) (n : ℕ) (h : Reached f pr n) :
    ∃ p, (written f pr n).drop (padLen f.length) = recordBody pr ++ p ∧ p.length ≤ padLen (recordBody pr).length := by
  rw [Reached, written_length] at h
  rw [written, drop_take, recordIov_drop]
  generalize min n (min maxRw (recordIov f.length pr).length) = rc at h ⊢
  rw [take_append, take_of_length_le (by omega)]
  exact ⟨_, rfl, by simp⟩

theorem scan_recordWrite (h : WriteSafe f pr n) :
    scan head (recordWrite f pr n).1 = scan head f ++ if Reached f pr n then [pr.stored] else [] := by
  rw [recordWrite_file, Journal.scan_append head_local f _ h.1]
  congr 1
  rw [show Journal.align f.length - f.length = padLen f.length by
    have := padLen_add f.length; omega]
  split_ifs with hr
  · obtain ⟨p, hp, hl⟩ := written_drop f pr n hr
    have hb := padLen_add (recordBody pr).length
    rw [hp, Journal.scan_some head_local (head_recordBody hr.payload_le p),
      drop_of_length_le (by rw [length_append]; omega)]
    rfl
  · exact h.2 hr

/-- The two ways a write ends: a positive result means that everything including the padding was
written, and then the record is clean. -/
theorem recordWrite_cases (f : Bytes) (pr : Record) (n : ℕ) :
    (0 < (recordWrite f pr n).2.1 ∧ (recordWrite f pr n).2.2 = { pr with dirty := false } ∧
      written f pr n = recordIov f.length pr) ∨
    ((recordWrite f pr n).2.1 = -1 ∧ (recordWrite f pr n).2.2 = pr) := by
  unfold recordWrite
  dsimp only
  split_ifs with h
  · exact .inr ⟨rfl, rfl⟩
  · refine .inl ⟨?_, rfl, ?_⟩
    · change (0 : ℤ) < ((recordBody pr).length : ℤ)
      rw [recordBody_length]
      omega
    · rw [written, take_of_length_le (by omega)]

theorem recordWrite_pos (h : written f pr n = recordIov f.length pr) : 0 < (recordWrite f pr n).2.1 := by
  have hl := congrArg length h
  rw [written_length] at hl
  rw [recordWrite, if_neg (by omega)]
  change (0 : ℤ) < ((recordBody pr).length : ℤ)
  rw [recordBody_length]
  omega

theorem reached_of_written_eq (h : written f pr n = recordIov f.length pr) : Reached f pr n := by
  rw [Reached, h, recordIov_length]
  omega

/-! ## Round trip -/

def appendRecord (f : Bytes) (pr : Record) : Bytes × ℤ × Record := recordWrite f pr (recordIov f.length pr).length

/-- From the previous end of the file the record is read as it was made, up to the next boundary; from there the next
record is read. -/
structure RoundTrip (f : Bytes) (pr : Record) : Prop where
  taken : 0 < (appendRecord f pr).2.1
  read : recordRead true (appendRecord f pr).1 f.length = (.record pr, (appendRecord f pr).1.length)
  next : ∀ key data, 0 < (appendRecord (appendRecord f pr).1 (recordInit key data)).2.1 →
    (recordRead true (appendRecord (appendRecord f pr).1 (recordInit key data)).1 (appendRecord f pr).1.length).1 =
      .record (recordInit key data)

theorem taken_iff : 0 < (appendRecord f pr).2.1 ↔ (recordIov f.length pr).length ≤ maxRw := by
  constructor
  · intro h
    have hw := ((recordWrite_cases f pr _).resolve_right fun hf => by rw [appendRecord, hf.1] at h; omega).2.2
    have hl := congrArg length hw
    rw [written_length] at hl
    omega
  · intro h
    exact recordWrite_pos (take_of_length_le (by omega))

theorem recordRead_appendRecord (h : (recordIov f.length pr).length ≤ maxRw) :
    recordRead true (appendRecord f pr).1 f.length =
      (.record pr.stored, f.length + padLen f.length + (recordBody pr).length) := by
  have hf : (appendRecord f pr).1 = f ++ recordIov f.length pr := by
    rw [appendRecord, recordWrite_file, written, take_of_length_le (by omega)]
  have hl := recordIov_length f.length pr
  have hb := recordBody_length pr
  have hp : (readAt (f ++ recordIov f.length pr) f.length (padLen f.length)).length = padLen f.length := by
    rw [readAt_length, length_append]
    omega
  have hd : (f ++ recordIov f.length pr).drop (f.length + padLen f.length) =
      recordBody pr ++ replicate (padLen (recordBody pr).length) padding := by
    rw [← drop_drop, drop_left, recordIov_drop]
  rw [hf, recordRead, if_neg (by decide)]
  simp only [hp]
  rw [if_neg (by tauto), if_neg (by omega), recordReadAt_record (hd ▸ head_recordBody (by omega) _)]

/-- The whole vector fits one `writev`, and the record ends at a boundary: padding after it is not read. -/
theorem roundTrip_iff (f : Bytes) (key : Key) (data : Bytes) : RoundTrip f (recordInit key data) ↔
    padLen f.length + Journal.align (key.1.length + data.length + 13) ≤ maxRw ∧
      (key.1.length + 1 + data.length) % 4 = 0 := by
  have hs : ∀ key data, (recordInit key data).stored = recordInit key data := by
    intro key data
    simp only [stored, recordInit, payload, length_append, length_cons, mk.injEq, true_and]
    omega
  have hb : (recordBody (recordInit key data)).length = key.1.length + data.length + 13 := by
    rw [recordBody_length, payload, length_append, length_cons]
    simp only [recordInit]
    omega
  have hio := recordIov_length f.length (recordInit key data)
  have ha := padLen_add (recordBody (recordInit key data)).length
  rw [hb] at hio ha
  constructor
  · rintro ⟨ht, hr, -⟩
    have hle := taken_iff.mp ht
    refine ⟨by omega, ?_⟩
    have hen := congrArg Prod.snd (hr.symm.trans (recordRead_appendRecord hle))
    rw [appendRecord, recordWrite_file, written, take_of_length_le (by omega), length_append, hb] at hen
    have hp : padLen (key.1.length + data.length + 13) = 0 := by omega
    rw [padLen] at hp
    split_ifs at hp <;> omega
  · rintro ⟨hle, hm⟩
    have hle' : (recordIov f.length (recordInit key data)).length ≤ maxRw := by omega
    refine ⟨taken_iff.mpr hle', ?_, ?_⟩
    · have hp : padLen (key.1.length + data.length + 13) = 0 := if_neg (by omega)
      rw [recordRead_appendRecord hle', hs, hb, appendRecord, recordWrite_file, written,
        take_of_length_le (by omega), length_append, hio, hp, Nat.add_assoc]
      rfl
    · intro key' data' ht
      rw [recordRead_appendRecord (taken_iff.mp ht), hs]

/-- A record of fifteen bytes is read up to its CRC; the boundary is one byte further on. -/
theorem padding_not_read : ¬ RoundTrip [] (recordInit ⟨[107], by decide⟩ [1]) := by
  intro h
  have hr := congrArg Prod.snd h.read
  revert hr
  decide +kernel

end OpenSync.Psfs
