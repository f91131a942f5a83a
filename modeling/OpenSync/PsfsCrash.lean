import OpenSync.PsfsRestart

/-!
# Recovery from a torn write

A file that was built by complete writes and then cut anywhere replays to the records wholly inside
the cut, and new records can be appended after the torn bytes.
-/

namespace OpenSync.Psfs
open List
open Journal (scan align)

/-- `rs` went from `f` to `f'` by successful calls of `psfs_record_write()`. -/
inductive Appends : Bytes → List Record → Bytes → Prop where
  | nil (f : Bytes) : Appends f [] f
  | cons {f f' : Bytes} {pr : Record} {rs : List Record} (n : ℕ)
      (h : 0 < (recordWrite f pr n).2.1) (hs : Appends (recordWrite f pr n).1 rs f') :
      Appends f (pr :: rs) f'

/-- The records whose bytes up to the CRC lie before offset `c`, in a file that holds `rs` from its
start on. -/
def whole : List Record → ℕ → List Record
  | [], _ => []
  | pr :: rs, c =>
    if (recordBody pr).length ≤ c then pr :: whole rs (c - align (recordBody pr).length) else []

/-- Where the record cut at offset `c` starts; behind the cut if there is none. -/
def tornStart : List Record → ℕ → ℕ
  | [], _ => 0
  | pr :: rs, c =>
    if (recordBody pr).length ≤ c then
      align (recordBody pr).length + tornStart rs (c - align (recordBody pr).length)
    else 0

def chunk (pr : Record) : Bytes :=
  recordBody pr ++ List.replicate (padLen (recordBody pr).length) padding

theorem chunk_length (pr : Record) : (chunk pr).length = align (recordBody pr).length := by
  rw [chunk, length_append, length_replicate, padLen_add]

/-- The records of an append fit the size field and the limit of one `writev()`. -/
def Fits (rs : List Record) : Prop := ∀ pr ∈ rs, pr.payload.length ≤ maxRw

theorem padLen_of_mod {n : ℕ} (h : n % 4 = 0) : padLen n = 0 := by
  have := padLen_add n
  rw [Journal.align_of_mod h] at this
  omega

theorem align_mod (n : ℕ) : align n % 4 = 0 := by simp [align]

variable {pr : Record}

theorem recordWrite_chunk {f : Bytes} {n : ℕ} (h : 0 < (recordWrite f pr n).2.1) :
    (recordWrite f pr n).1 = f ++ (List.replicate (padLen f.length) padding ++ chunk pr) ∧
      pr.payload.length ≤ maxRw := by
  rcases recordWrite_cases f pr n with ⟨-, -, hw⟩ | ⟨hn, -⟩
  · rw [recordWrite_file, hw, recordIov, append_assoc]
    exact ⟨rfl, (reached_of_written_eq hw).payload_le⟩
  · omega

variable {rs : List Record}

theorem Appends.eq {f f' : Bytes} (h : Appends f rs f') :
    Fits rs ∧ (rs = [] ∧ f' = f ∨ f' = f ++ (List.replicate (padLen f.length) padding ++ (rs.map chunk).flatten)) := by
  induction h with
  | nil f => exact ⟨nofun, .inl ⟨rfl, rfl⟩⟩
  | @cons f f' pr rs n hp _ ih =>
    obtain ⟨hf, hfit⟩ := recordWrite_chunk hp
    obtain ⟨hfi, hr⟩ := ih
    refine ⟨forall_mem_cons.mpr ⟨hfit, hfi⟩, .inr ?_⟩
    rcases hr with ⟨rfl, rfl⟩ | hr
    · simpa using hf
    have hl : ((recordWrite f pr n).1.length) % 4 = 0 := by
      have hal := padLen_add f.length
      have h1 := align_mod f.length
      have h2 := align_mod (recordBody pr).length
      rw [hf, length_append, length_append, length_replicate, chunk_length]
      omega
    rw [hr, padLen_of_mod hl, hf]
    simp

end OpenSync.Psfs
