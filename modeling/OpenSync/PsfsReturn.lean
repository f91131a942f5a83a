import OpenSync.PsfsRestart

/-!
# Loading comes to an end

`psfs_load()` goes on after every failure. Here each `read()` may fail or return less than what was asked for. A round
whose first `read()` fails leaves the file position where it was; every other one ends the loop or moves it on.
-/

namespace OpenSync.Psfs
open List

/-- What the calls of `read()` come to: an error, or how many bytes beyond the first are to be had. -/
abbrev Outcomes := ℕ → Option ℕ

/-- The descriptor, and how often `read()` was called. -/
structure Reader extends Fd where
  calls : ℕ

section

variable (o : Outcomes) (f : Bytes)

def Reader.outcome (r : Reader) : Option ℕ := if r.readable then o r.calls else none

def Reader.read (r : Reader) (n : ℕ) : Option Bytes × Reader :=
  match r.outcome o with
  | none => (none, { r with calls := r.calls + 1 })
  | some k =>
    let buf := (readAt f r.off n).take (k + 1)
    (some buf, { r with off := r.off + buf.length, calls := r.calls + 1 })

def Reader.seek (r : Reader) (off : ℕ) : Reader := { r with off }

/-- An error is a negative number of bytes. -/
def isShort (buf : Option Bytes) (n : ℕ) : Bool := buf.all (·.length < n)

/-- What follows the magic number of a record at `coff`. -/
def recordRestWith (coff : ℕ) (r : Reader) : ReadResult × Reader :=
  let (prSize, r) := r.read o f 4
  if isShort prSize 4 then (.fail, r)
  else
    let size := ofBe32 (prSize.getD [])
    if f.length < coff + 4 + 4 + size + 4 then (.fail, r.seek (coff + 4))
    else
      let (buf, r) := r.read o f size
      if isShort buf size then (.fail, r.seek (coff + 4))
      else
        let (prCrc, r) := r.read o f 4
        if isShort prCrc 4 then (.fail, r.seek (coff + 4))
        else if crc32 (crc32 (crc32 (crc32 0 (be32 magic)) (prSize.getD [])) (buf.getD [])) (prCrc.getD []) ≠
            crc32Verify then (.fail, r.seek (coff + 4))
        else
          match splitKey (buf.getD []) with
          | none => (.fail, r.seek (coff + 4))
          | some (key, data) => (.record { key, data, dirty := false, used := 12 + size }, r)

def recordReadAtWith (r : Reader) : ReadResult × Reader :=
  let (prMagic, r') := r.read o f 4
  if prMagic = some [] then (.eof, r')
  else if isShort prMagic 4 then (.fail, r')
  else if prMagic ≠ some (be32 magic) then (.fail, r')
  else recordRestWith o f r.off r'

/-- `recordRead` is the case in which every `read()` returns all that there is. -/
def recordReadWith (r : Reader) : ReadResult × Reader :=
  if padLen r.off = 0 then recordReadAtWith o f r
  else
    let (pad, r') := r.read o f (padLen r.off)
    if pad = some [] then (.eof, r')
    else if isShort pad (padLen r.off) then (.fail, r')
    else recordReadAtWith o f r'

def loadLoopWith : ℕ → ℕ → Store → Option Store
  | 0, _, _ => none
  | fuel + 1, calls, ps =>
    let res := recordReadWith o f ⟨ps.fd, calls⟩
    let ps := { ps with fd := res.2.toFd }
    match res.1 with
    | .eof => some ps
    | .fail => loadLoopWith fuel res.2.calls ps
    | .record pr => loadLoopWith fuel res.2.calls (loadRecord ps pr)

/-- Loading returns when `read()` was called so often before. -/
def LoadReturns (calls : ℕ) (ps : Store) : Prop := ∃ fuel, (loadLoopWith o f fuel calls ps).isSome = true

end

variable {o : Outcomes} {f : Bytes} {r r' r'' : Reader} {n : ℕ} {buf : Option Bytes} {ps : Store}

/-! ## One round -/

/-- The position has moved on, or the first call failed. -/
def Advances (o : Outcomes) (f : Bytes) (r r' : Reader) : Prop :=
  r'.readable = r.readable ∧ (r.off < f.length ∧ r.off < r'.off ∨
    r.outcome o = none ∧ r'.off = r.off ∧ r'.calls = r.calls + 1)

section

variable (hr : r.read o f n = (buf, r'))
include hr

theorem read_le : r.off ≤ r'.off ∧ r'.readable = r.readable := by
  unfold Reader.read at hr
  split at hr <;> cases hr
  · exact ⟨le_rfl, rfl⟩
  · exact ⟨Nat.le_add_right _ _, rfl⟩

theorem read_advances (hen : buf ≠ some []) : Advances o f r r' := by
  unfold Reader.read at hr
  split at hr <;> cases hr
  case h_1 ho => exact ⟨rfl, .inr ⟨ho, rfl, rfl⟩⟩
  case h_2 k ho =>
    have hp : 0 < ((readAt f r.off n).take (k + 1)).length := length_pos_iff.mpr fun hn => hen (congrArg some hn)
    refine ⟨rfl, .inl ⟨?_, Nat.lt_add_of_pos_right hp⟩⟩
    rw [length_take, readAt_length] at hp
    omega

/-- After a `read()` that was not short, it is enough that the position does not come back. -/
theorem read_goes_on (hen : buf ≠ some []) (hs : ¬ isShort buf n = true)
    (hre : r''.readable = r'.readable) (ho : r.off < r'.off → r.off < r''.off) : Advances o f r r'' := by
  obtain ⟨hsa, ⟨hlt, hm⟩ | ⟨hou, -⟩⟩ := read_advances hr hen
  · exact ⟨hre.trans hsa, .inl ⟨hlt, ho hm⟩⟩
  · rw [Reader.read, hou] at hr
    cases hr
    exact absurd rfl hs

end

/-- Behind the magic number no failure goes back to where the record starts. -/
theorem recordRestWith_spec (coff : ℕ) : (recordRestWith o f coff r).2.readable = r.readable ∧
    (coff < r.off → coff < (recordRestWith o f coff r).2.off) := by
  unfold recordRestWith
  rcases hr₁ : r.read o f 4 with ⟨prSize, r₁⟩
  rcases hr₂ : r₁.read o f (ofBe32 (prSize.getD [])) with ⟨buf, r₂⟩
  rcases hr₃ : r₂.read o f 4 with ⟨prCrc, r₃⟩
  obtain ⟨hle₁, hsame₁⟩ := read_le hr₁
  obtain ⟨hle₂, hsame₂⟩ := read_le hr₂
  obtain ⟨hle₃, hsame₃⟩ := read_le hr₃
  have hs : r₃.readable = r.readable := hsame₃.trans (hsame₂.trans hsame₁)
  have hse : coff < r.off → coff < coff + 4 := fun _ => by omega
  simp only [hr₂, hr₃]
  split_ifs
  · exact ⟨hsame₁, fun h => h.trans_le hle₁⟩
  · exact ⟨hsame₁, hse⟩
  · exact ⟨hsame₂.trans hsame₁, hse⟩
  · exact ⟨hs, hse⟩
  · exact ⟨hs, hse⟩
  · split
    · exact ⟨hs, hse⟩
    · exact ⟨hs, fun h => h.trans_le (hle₁.trans (hle₂.trans hle₃))⟩

theorem recordReadAtWith_advances (h : (recordReadAtWith o f r).1 ≠ .eof) :
    Advances o f r (recordReadAtWith o f r).2 := by
  unfold recordReadAtWith at h ⊢
  rcases hr : r.read o f 4 with ⟨prMagic, r'⟩
  rw [hr] at h
  dsimp only at h ⊢
  split_ifs at h ⊢ with hen hs hm
  · exact absurd rfl h
  · exact read_advances hr hen
  · exact read_advances hr hen
  · obtain ⟨hre, hlt⟩ := recordRestWith_spec (o := o) (f := f) (r := r') r.off
    exact read_goes_on hr hen hs hre hlt

theorem recordReadWith_advances (h : (recordReadWith o f r).1 ≠ .eof) : Advances o f r (recordReadWith o f r).2 := by
  unfold recordReadWith at h ⊢
  rcases hr : r.read o f (padLen r.off) with ⟨pad, r'⟩
  rw [hr] at h
  dsimp only at h ⊢
  split_ifs at h ⊢ with hp hen hs
  · exact recordReadAtWith_advances h
  · exact absurd rfl h
  · exact read_advances hr hen
  · obtain ⟨hre, ho⟩ := recordReadAtWith_advances h
    exact read_goes_on hr hen hs hre fun hlt => by omega

/-! ## Whole loops -/

variable {calls : ℕ}

theorem LoadReturns.of_next (h : ∀ ps', ps'.fd = (recordReadWith o f ⟨ps.fd, calls⟩).2.toFd →
    (recordReadWith o f ⟨ps.fd, calls⟩).1 ≠ .eof → LoadReturns o f (recordReadWith o f ⟨ps.fd, calls⟩).2.calls ps') :
    LoadReturns o f calls ps := by
  have hl : ∀ fuel, loadLoopWith o f (fuel + 1) calls ps = _ := fun fuel => by rw [loadLoopWith]
  cases hrc : (recordReadWith o f ⟨ps.fd, calls⟩).1 with
  | eof => exact ⟨1, by rw [hl, hrc]; rfl⟩
  | fail =>
    obtain ⟨fuel, hf⟩ := h { ps with fd := (recordReadWith o f ⟨ps.fd, calls⟩).2.toFd } rfl (by simp [hrc])
    exact ⟨fuel + 1, by rw [hl, hrc]; exact hf⟩
  | record pr =>
    obtain ⟨fuel, hf⟩ := h _ (loadRecord_fd { ps with fd := (recordReadWith o f ⟨ps.fd, calls⟩).2.toFd } pr)
      (by simp [hrc])
    exact ⟨fuel + 1, by rw [hl, hrc]; exact hf⟩

theorem loadReturns_of_outcomes (ho : ∀ n, ∃ k ≥ n, o k ≠ none) (hr : ps.fd.readable = true) :
    LoadReturns o f calls ps := by
  induction hm : f.length - ps.fd.off using Nat.strong_induction_on generalizing ps calls with
  | _ m ih =>
    obtain ⟨k, hk, hok⟩ := ho calls
    -- until a call succeeds, each round is one call that fails
    induction hd : k - calls using Nat.strong_induction_on generalizing ps calls with
    | _ d ihd =>
      refine .of_next fun ps' hfd hgo => ?_
      obtain ⟨hs, hmo⟩ := recordReadWith_advances hgo
      have hr' : ps'.fd.readable = true := by
        rw [hfd]
        exact hs.trans hr
      dsimp only at hmo
      rcases hmo with ⟨hlt, hmo⟩ | ⟨hou, hof, hc⟩
      · refine ih (f.length - ps'.fd.off) ?_ hr' rfl
        rw [hfd]
        omega
      · have hf : o calls = none := by simpa [Reader.outcome, hr] using hou
        have hne : k ≠ calls := fun heq => hok (heq ▸ hf)
        exact ihd (k - (calls + 1)) (by omega) hr' (by rw [hfd, hof]; exact hm) (by omega) (by rw [hc])

theorem recordReadWith_failed (h : r.outcome o = none) : recordReadWith o f r = (.fail, { r with calls := r.calls + 1 }) := by
  simp [recordReadWith, recordReadAtWith, Reader.read, h, isShort]

theorem loadLoopWith_none (h : ∀ k ≥ calls, (if ps.fd.readable then o k else none) = none) (fuel : ℕ) :
    loadLoopWith o f fuel calls ps = none := by
  induction fuel generalizing calls with
  | zero => rfl
  | succ fuel ih =>
    have hf : (⟨ps.fd, calls⟩ : Reader).outcome o = none := h calls le_rfl
    rw [loadLoopWith, recordReadWith_failed hf]
    exact ih fun k hk => h k (Nat.le_of_succ_le hk)

/-- Whatever the file holds and whenever it is loaded, loading returns exactly if the descriptor is open for reading and
calls of `read()` do not fail for ever. -/
theorem load_returns_iff (o : Outcomes) (ps : Store) :
    (∀ f calls, LoadReturns o f calls ps) ↔ ps.fd.readable = true ∧ ∀ n, ∃ k ≥ n, o k ≠ none := by
  refine ⟨fun h => ?_, fun h f calls => loadReturns_of_outcomes h.2 h.1⟩
  by_contra hfa
  obtain ⟨N, hN⟩ : ∃ N, ∀ k ≥ N, (if ps.fd.readable then o k else none) = none := by
    cases hr : ps.fd.readable with
    | false => exact ⟨0, fun _ _ => rfl⟩
    | true => simpa [hr] using hfa
  obtain ⟨fuel, hf⟩ := h [] N
  rw [loadLoopWith_none hN] at hf
  cases hf

/-- After a prune the descriptor is open for writing only. -/
theorem pruned_never_loads : (sync defaultConfig .ok true samplePending).2 = true ∧
    ¬ LoadReturns (fun _ => some maxRw) (sync defaultConfig .ok true samplePending).1.file 0
      (sync defaultConfig .ok true samplePending).1.ps := by
  have hu : (sync defaultConfig .ok true samplePending).1.ps.fd.readable = false := by decide +kernel
  refine ⟨by decide +kernel, fun ⟨fuel, hf⟩ => ?_⟩
  rw [loadLoopWith_none (by simp [hu])] at hf
  cases hf

end OpenSync.Psfs
