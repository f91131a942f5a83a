import OpenSync.PsfsRecord

/-!
# What the PSFS reader accepts

`Accepts` spells out the byte layout behind a successful `recordReadAt`. Acceptance is local to the
record's own bytes, so the reader is an instance of the journal scan, and each of its other exits
either reports the end of the file or goes on where the scan would go on.
-/

namespace OpenSync.Psfs
open List Journal

theorem padLen_add (n : ℕ) : n + padLen n = Journal.align n := by
  unfold padLen align
  split <;> omega

@[simp] theorem be32_length (n : ℕ) : (be32 n).length = 4 := rfl

variable {n : ℕ}

theorem ofBe32_be32 (h : n < 2 ^ 32) : ofBe32 (be32 n) = n := by
  simp only [ofBe32, be32, foldl_cons, foldl_nil, UInt8.toNat_ofNat']
  omega

theorem readAt_add (f : Bytes) (off k n : ℕ) : readAt f (off + k) n = readAt (f.drop off) k n := by
  rw [readAt, readAt, drop_drop]

theorem readAt_length (f : Bytes) (off n : ℕ) : (readAt f off n).length = min (min n maxRw) (f.length - off) := by
  rw [readAt, length_take, length_drop]

theorem recordReadAt_drop (f : Bytes) (coff : ℕ) :
    recordReadAt f coff = ((recordReadAt (f.drop coff) 0).1, coff + (recordReadAt (f.drop coff) 0).2) := by
  have h0 : readAt (f.drop coff) 0 4 = readAt f coff 4 := (readAt_add f coff 0 4).symm
  simp only [recordReadAt, h0, ← readAt_add, Nat.zero_add, Nat.add_assoc]
  by_cases h4 : (readAt f coff 4).length < 4
  · split_ifs <;> rfl
  have hs (n : ℕ) :
      f.length < coff + (4 + (4 + (n + 4))) ↔ (f.drop coff).length < 4 + (4 + (n + 4)) := by
    rw [length_drop]
    omega
  simp only [hs]
  generalize splitKey _ = key
  split_ifs <;> first | rfl | cases key <;> rfl

theorem readAt_zero_append (a b : Bytes) (h : a.length ≤ maxRw) : readAt (a ++ b) 0 a.length = a := by
  rw [readAt, drop_zero, Nat.min_eq_left h, take_left]

theorem readAt_append_append (a b c : Bytes) (h : b.length ≤ maxRw) : readAt (a ++ (b ++ c)) a.length b.length = b := by
  rw [readAt, drop_left, Nat.min_eq_left h, take_left]

/-- What `recordReadAt` accepts at the front of a string. -/
structure Accepts (s sz buf crc rest : Bytes) (pr : Record) : Prop where
  eq : s = be32 magic ++ (sz ++ (buf ++ (crc ++ rest)))
  sz_length : sz.length = 4
  crc_length : crc.length = 4
  size : ofBe32 sz = buf.length
  le_max : buf.length ≤ maxRw
  check : crc32 (crc32 (crc32 (crc32 0 (be32 magic)) sz) buf) crc = crc32Verify
  key : splitKey buf = some (pr.key, pr.data)
  dirty : pr.dirty = false
  used : pr.used = 12 + (buf.length : ℤ)

variable {pr : Record} {s sz buf crc rest : Bytes}

theorem Accepts.append (h : Accepts s sz buf crc rest pr) (w : Bytes) : Accepts (s ++ w) sz buf crc (rest ++ w) pr :=
  { h with eq := by rw [h.eq]; simp only [append_assoc] }

theorem recordReadAt_of_accepts (h : Accepts s sz buf crc rest pr) :
    recordReadAt s 0 = (.record pr, 12 + buf.length) := by
  obtain ⟨rfl, hsz, hcr, hsi, hm, hc, hk, hd, hu⟩ := h
  have hm4 : (4 : ℕ) ≤ maxRw := by decide
  set s := be32 magic ++ (sz ++ (buf ++ (crc ++ rest))) with hs
  have h1 : readAt s 0 4 = be32 magic := readAt_zero_append (be32 magic) _ hm4
  have h2 : readAt s 4 4 = sz := by
    have := readAt_append_append (be32 magic) sz (buf ++ (crc ++ rest)) (by omega)
    rwa [hsz] at this
  have h3 : readAt s 8 buf.length = buf := by
    have := readAt_append_append (be32 magic ++ sz) buf (crc ++ rest) hm
    simpa only [append_assoc, length_append, be32_length, hsz] using this
  have h4 : readAt s (8 + buf.length) 4 = crc := by
    have := readAt_append_append (be32 magic ++ sz ++ buf) crc rest (by omega)
    simpa only [append_assoc, length_append, be32_length, hsz, hcr, ← Nat.add_assoc] using this
  have hl : s.length = 12 + buf.length + rest.length := by
    simp only [hs, length_append, be32_length, hsz, hcr]
    omega
  simp only [recordReadAt, Nat.zero_add, h1, h2, h3, h4, hsi, be32_length, hsz, hcr, hc, hk]
  rw [if_neg (by omega), if_neg (by omega), if_neg (by simp), if_neg (by omega),
    if_neg (by omega), if_neg (by omega), if_neg (by omega), if_neg (by simp)]
  obtain ⟨key, data, dirty, used⟩ := pr
  simp only at hd hu
  rw [hd, hu]

theorem eq_parts (s : Bytes) (n : ℕ) :
    s = s.take 4 ++ ((s.drop 4).take 4 ++ ((s.drop 8).take n ++ ((s.drop (8 + n)).take 4 ++ s.drop (12 + n)))) := by
  have h (k m : ℕ) : (s.drop k).take m ++ s.drop (k + m) = s.drop k := by
    rw [← drop_drop, take_append_drop]
  have h8 : (s.drop 4).take 4 ++ s.drop 8 = s.drop 4 := h 4 4
  rw [show 12 + n = 8 + n + 4 by omega, h (8 + n) 4, h 8 n, h8, take_append_drop]

theorem accepts_of_recordReadAt (h : recordReadAt s 0 = (.record pr, n)) :
    ∃ sz buf crc rest, Accepts s sz buf crc rest pr ∧ n = 12 + buf.length := by
  simp only [recordReadAt, Nat.zero_add] at h
  split_ifs at h with h0 h4 hm hsz hen hbuf hcrc hc <;> try cases h
  split at h
  · cases h
  rename_i key data hk
  set sz := readAt s 4 4 with hszd
  set buf := readAt s 8 (ofBe32 sz) with hbu
  set crc := readAt s (8 + ofBe32 sz) 4 with hcr
  have hszl : sz.length = 4 := by
    rw [hszd, readAt_length] at hsz ⊢
    omega
  have hcrcl : crc.length = 4 := by
    rw [hcr, readAt_length] at hcrc ⊢
    omega
  have hbufm := readAt_length s 8 (ofBe32 sz)
  rw [← hbu] at hbufm
  have hb : buf.length = ofBe32 sz := by omega
  have hma : readAt s 0 4 = be32 magic := by simpa using hm
  have hm4 : (4 : ℕ) ≤ maxRw := by decide
  have hs : s = be32 magic ++ (sz ++ (buf ++ (crc ++ s.drop (12 + ofBe32 sz)))) := by
    have h1 : s.take 4 = be32 magic := by rw [← hma, readAt, Nat.min_eq_left hm4]; rfl
    have h2 : (s.drop 4).take 4 = sz := by rw [hszd, readAt, Nat.min_eq_left hm4]
    have h3 : (s.drop 8).take (ofBe32 sz) = buf := by
      rw [hbu, readAt, Nat.min_eq_left (by omega)]
    have h4 : (s.drop (8 + ofBe32 sz)).take 4 = crc := by
      rw [hcr, readAt, Nat.min_eq_left hm4]
    rw [← h1, ← h3, ← h4]
    conv_rhs => rw [← h2]
    exact eq_parts s _
  rw [hma] at hc
  obtain ⟨rfl, rfl⟩ := h
  exact ⟨sz, buf, crc, s.drop (12 + ofBe32 sz), ⟨hs, hszl, hcrcl, hb.symm, by omega,
    by simpa using hc, hk, rfl, by rw [hb]⟩, by rw [hb]⟩

theorem head_eq_some_iff : head s = some (pr, n) ↔ recordReadAt s 0 = (.record pr, n) := by
  unfold head
  split
  · rename_i pr' n' h
    rw [h]
    simp
  · rename_i h
    exact ⟨(nomatch ·), fun hr => (h pr n hr).elim⟩

theorem head_eq_some (h : head s = some (pr, n)) :
    ∃ sz buf crc rest, Accepts s sz buf crc rest pr ∧ n = 12 + buf.length :=
  accepts_of_recordReadAt (head_eq_some_iff.mp h)

theorem head_of_accepts (h : Accepts s sz buf crc rest pr) : head s = some (pr, 12 + buf.length) :=
  head_eq_some_iff.mpr (recordReadAt_of_accepts h)

theorem head_local : Journal.Local head where
  pos h := by
    obtain ⟨_, _, _, _, _, rfl⟩ := head_eq_some h
    omega
  le h := by
    obtain ⟨sz, buf, crc, rest, ha, rfl⟩ := head_eq_some h
    rw [ha.eq]
    simp only [length_append, be32_length, ha.sz_length, ha.crc_length]
    omega
  append h w := by
    obtain ⟨sz, buf, crc, rest, ha, rfl⟩ := head_eq_some h
    exact head_of_accepts (ha.append w)

variable {f : Bytes}

theorem scan_drop_short {off : ℕ} (h : f.length < off + 4) : Journal.scan head (f.drop off) = [] := by
  have hn : head (f.drop off) = none := by
    by_contra hne
    obtain ⟨p, hp⟩ := Option.ne_none_iff_exists'.mp hne
    obtain ⟨sz, buf, crc, rest, ha, -⟩ := head_eq_some hp
    have hl := congrArg length ha.eq
    simp only [length_drop, length_append, be32_length] at hl
    omega
  rw [scan_none head_local hn, drop_drop, drop_of_length_le (by omega)]
  rfl

/-- A failed attempt leaves the file position where the rest of the scan finds the same records as
one word further on. -/
theorem recordReadAt_fail {coff : ℕ} (hc : coff % 4 = 0) (hlt : coff < f.length) (hh : head (f.drop coff) = none) :
    ∃ off, recordReadAt f coff = (.fail, off) ∧ coff < off ∧
      Journal.scan head (f.drop (Journal.align off)) = Journal.scan head (f.drop (coff + 4)) := by
  have hm4 : min 4 maxRw = 4 := by decide
  have hb : align (coff + 4) = coff + 4 := align_of_mod (by omega)
  have hsh (off : ℕ) (h1 : f.length ≤ off) (h2 : f.length < coff + 8) :
      scan head (f.drop (align off)) = scan head (f.drop (coff + 4)) := by
    have hle := le_align off
    rw [scan_drop_short (by omega), scan_drop_short (by omega)]
  -- An accepted record would contradict `hh`; every other exit is a failure.
  have hno (pr : Record) (n : ℕ) : recordReadAt f coff ≠ (.record pr, n) := by
    intro hr
    rw [recordReadAt_drop, Prod.mk.injEq] at hr
    have hs : recordReadAt (f.drop coff) 0 = (.record pr, (recordReadAt (f.drop coff) 0).2) := Prod.ext hr.1 rfl
    rw [head_eq_some_iff.mpr hs] at hh
    cases hh
  unfold recordReadAt at hno ⊢
  simp only [readAt_length, hm4] at hno ⊢
  rw [if_neg (by omega)] at hno ⊢
  split_ifs at hno ⊢ with h4 hm hsz hen hbu hcr hch
  rotate_right
  · split at hno
    · exact ⟨_, rfl, by omega, by rw [hb]⟩
    · exact (hno _ _ rfl).elim
  all_goals first
    | exact ⟨_, rfl, by omega, by rw [hb]⟩
    | exact ⟨_, rfl, by omega, hsh _ (by omega) (by omega)⟩

theorem recordReadAt_eof {coff : ℕ} (h : f.length ≤ coff) : recordReadAt f coff = (.eof, coff) := by
  rw [recordReadAt, if_pos (by rw [readAt_length]; omega)]

theorem recordReadAt_record {coff n : ℕ}
    (h : head (f.drop coff) = some (pr, n)) : recordReadAt f coff = (.record pr, coff + n) := by
  rw [recordReadAt_drop, head_eq_some_iff.mp h]

end OpenSync.Psfs
