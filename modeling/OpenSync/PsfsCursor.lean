import OpenSync.KeyedOrder
import OpenSync.PsfsRestart

/-!
# The cursor of a PSFS store

`psfs_next()` returns the key at a cursor in the tree and moves on; `psfs_drop_record()` moves a cursor away from a record
that goes. In every store that was loaded the tree is sorted, so what comes behind a key is what is greater.
-/

namespace OpenSync.Psfs
open List Keyed

open Keyed (Sorted)

/-- The key of the first record with data; the loop of `psfs_next()`. -/
def skipDeleted : List Record → Option Key
  | [] => none
  | pr :: prs => if pr.data = [] then skipDeleted prs else some pr.key

def psfsNext (ps : Store) : Store × Option Key :=
  match ps.next with
  | none => (ps, none)
  | some key => ({ ps with next := skipDeleted (Keyed.behind Record.key key ps.root) }, some key)

/-! ## Keys in order -/

instance byteOrder : LinearOrder UInt8 where
  le_refl a := UInt8.le_refl a
  le_trans a b c := UInt8.le_trans
  le_antisymm a b := UInt8.le_antisymm
  le_total a b := UInt8.le_total a b
  lt_iff_le_not_ge a b := by
    rw [UInt8.lt_iff_toNat_lt, UInt8.le_iff_toNat_le, UInt8.le_iff_toNat_le]
    omega
  toDecidableLE := inferInstance
  toDecidableEq := inferInstance
  toDecidableLT := inferInstance

theorem strLt_iff (s t : Bytes) : strLt s t = true ↔ s < t := by
  induction s generalizing t with
  | nil => cases t <;> simp [strLt]
  | cons a s ih =>
    cases t with
    | nil => simp [strLt]
    | cons b t =>
      rw [strLt, cons_lt_cons_iff]
      rcases lt_trichotomy a b with hab | rfl | hab
      · simp [hab]
      · simp [ih]
      · simp [hab, hab.not_gt, hab.ne']

abbrev Store.Sorted (ps : Store) : Prop := Keyed.Sorted Record.key ps.root

variable {ps : Store} {pr : Record} {k : Key}

/-! ## Invariants -/

theorem set_effect (ps : Store) (key : Key) (value : Option Bytes) :
    (set ps key value).1 = ps ∨ ps.write = true ∧ ∃ pr : Record, pr.key = key ∧ pr.data = value.getD [] ∧
        ((ps.find key = none ∧ pr.data ≠ [] ∧ (set ps key value).1 = addRecord ps pr) ∨
          ∃ old, ps.find key = some old ∧ old.data ≠ pr.data ∧
            (set ps key value).1 = addRecord (dropRecord ps old) pr) := by
  rw [set]
  cases hw : ps.write with
  | false => exact .inl rfl
  | true =>
    cases hf : ps.find key with
    | none =>
      by_cases hd : value.getD [] = []
      · exact .inl (by simp [hd])
      · exact .inr ⟨rfl, { recordInit key (value.getD []) with dirty := true }, rfl, rfl, .inl ⟨rfl, hd, by simp [hd]⟩⟩
    | some old =>
      by_cases hd : old.data = value.getD []
      · exact .inl (by simp [hd])
      · exact .inr ⟨rfl, { recordInit key (value.getD []) with dirty := true }, rfl, rfl,
          .inr ⟨old, rfl, hd, by simp [hd]⟩⟩

theorem sync_effect (cfg : Config) (env : SyncEnv) (forcePrune : Bool) (w : World) :
    ∃ ps' fd, (sync cfg env forcePrune w).1.ps = { ps' with fd } ∧
      (ps' = w.ps ∨ ps' = (w.ps.root.foldl (appendStep env) (true, w.ps, w.file)).2.1 ∨ ps' = (pruneCopy env w.ps).1) := by
  rw [sync]
  split
  · exact ⟨w.ps, _, rfl, .inl rfl⟩
  split
  · rw [syncPrune]
    dsimp only
    split
    · exact ⟨w.ps, _, rfl, .inl rfl⟩
    split
    · exact ⟨w.ps, _, rfl, .inl rfl⟩
    split
    · exact ⟨w.ps, _, rfl, .inl rfl⟩
    -- from here on the copy is there, whatever becomes of the files
    refine ⟨(pruneCopy env w.ps).1, ?_⟩
    split
    · exact ⟨_, rfl, .inr (.inr rfl)⟩
    split
    · exact ⟨_, rfl, .inr (.inr rfl)⟩
    split <;> exact ⟨_, rfl, .inr (.inr rfl)⟩
  · rw [syncAppend]
    split
    · exact ⟨w.ps, _, rfl, .inl rfl⟩
    · exact ⟨_, _, rfl, .inr (.inl rfl)⟩

theorem recordWrite_same (f : Bytes) (pr : Record) (n : ℕ) :
    (recordWrite f pr n).2.2.key = pr.key ∧ (recordWrite f pr n).2.2.used = pr.used := by
  rw [recordWrite]
  split <;> exact ⟨rfl, rfl⟩

/-- What holds of a store for as long as its records are only added, dropped and written. -/
structure Preserved (P : Store → Prop) : Prop where
  unique {ps : Store} (h : P ps) : ps.Unique
  moved {ps : Store} (h : P ps) (fd : Fd) (next : Option Key) : P { ps with fd, next }
  add {ps : Store} {pr : Record} (h : P ps) (hn : ps.find pr.key = none) : P (addRecord ps pr)
  drop {ps : Store} {pr : Record} (h : P ps) (hf : ps.find pr.key = some pr) : P (dropRecord ps pr)
  replace {ps : Store} {pr pr' : Record} (h : P ps) (hf : ps.find pr.key = some pr)
    (hs : pr'.key = pr.key ∧ pr'.used = pr.used) : P (ps.replace pr')

theorem sorted_preserved : Preserved Store.Sorted where
  unique h := h.unique
  moved h _ _ := h
  add h hn := Sorted.insert (fun a b => strLt_iff a.1 b.1) h hn
  drop h _ := Sorted.drop h _
  replace h _ _ := Keyed.Sorted.replace h _

variable (env : SyncEnv) (rs : List Record)

section

variable {P : Store → Prop} (hp : Preserved P)
include hp

section

variable (h : P ps)
include h

theorem Preserved.change {old : Record} (hf : ps.find pr.key = some old) :
    P (dropRecord ps old) ∧ P (addRecord (dropRecord ps old) pr) := by
  have hk : old.key = pr.key := key_of_find hf
  have hd := hp.drop h (hk ▸ hf)
  exact ⟨hd, hp.add hd (by rw [find_dropRecord, if_pos hk.symm])⟩

theorem Preserved.loadRecord (pr : Record) : P (loadRecord ps pr) := by
  rw [Psfs.loadRecord]
  cases hf : ps.find pr.key with
  | none =>
    dsimp only
    split
    · exact h
    · exact hp.add h hf
  | some old =>
    dsimp only
    split
    · exact (hp.change h hf).1
    · exact (hp.change h hf).2

theorem Preserved.loadLoop {f : Bytes} {fuel : ℕ} {ps' : Store} (hl : loadLoop f fuel ps = some ps') : P ps' := by
  induction fuel generalizing ps with
  | zero => cases hl
  | succ fuel ih =>
    rw [Psfs.loadLoop] at hl
    rcases hr : recordRead ps.fd.readable f ps.fd.off with ⟨_ | _ | pr, off⟩ <;> rw [hr] at hl <;> dsimp only at hl
    all_goals have hm := hp.moved h { ps.fd with off } ps.next
    · cases hl
      exact hm
    · exact ih hm hl
    · exact ih (hp.loadRecord hm pr) hl

end

theorem Preserved.set (h : P ps) (key : Key) (value : Option Bytes) : P (set ps key value).1 := by
  rcases set_effect ps key value with heq | ⟨-, pr, rfl, -, ⟨hn, -, heq⟩ | ⟨old, hf, -, heq⟩⟩
  · rw [heq]
    exact h
  · rw [heq]
    exact hp.add h hn
  · rw [heq]
    exact (hp.change h hf).2

theorem Preserved.dropped (h : P ps) (hl : Listed ps rs) : P (rs.foldl dropRecord ps) := by
  induction rs generalizing ps with
  | nil => exact h
  | cons pr rs ih => exact ih (hp.drop h (hl.2 pr mem_cons_self)) hl.drop

theorem Preserved.appended (st : Bool × Store × Bytes) (h : P st.2.1) (hl : Listed st.2.1 rs) :
    P (rs.foldl (appendStep env) st).2.1 := by
  induction rs generalizing st with
  | nil => exact h
  | cons pr rs ih =>
    have hs : P (appendStep env st pr).2.1 ∧ Listed (appendStep env st pr).2.1 rs := by
      rw [appendStep]
      split
      · exact ⟨h, hl.tail⟩
      dsimp only
      split
      · exact ⟨h, hl.tail⟩
      · have hs := recordWrite_same st.2.2 pr (env.writes pr.key)
        exact ⟨hp.replace h (hl.2 pr mem_cons_self) hs, hl.replace _ hs.1⟩
    exact ih _ hs.1 hs.2

theorem Preserved.pruned (st : Store × Bytes) (h : P st.1) (hl : Listed st.1 rs) : P (rs.foldl (pruneStep env) st).1 := by
  induction rs generalizing st with
  | nil => exact h
  | cons pr rs ih =>
    have hf := hl.2 pr mem_cons_self
    have hs : P (pruneStep env st pr).1 ∧ Listed (pruneStep env st pr).1 rs := by
      rw [pruneStep]
      split
      · exact ⟨hp.drop h hf, hl.drop⟩
      dsimp only
      split
      · exact ⟨h, hl.tail⟩
      · have hs := recordWrite_same st.2 pr (env.writes pr.key)
        exact ⟨hp.replace h hf hs, hl.replace _ hs.1⟩
    exact ih _ hs.1 hs.2

theorem Preserved.sync {w : World} (h : P w.ps) (cfg : Config) (env : SyncEnv) (forcePrune : Bool) :
    P (sync cfg env forcePrune w).1.ps := by
  have hl := listed_root (hp.unique h)
  obtain ⟨ps', fd, heq, rfl | rfl | rfl⟩ := sync_effect cfg env forcePrune w <;> rw [heq]
  · exact hp.moved h fd _
  · exact hp.moved (hp.appended env w.ps.root (true, w.ps, w.file) h hl) fd _
  · exact hp.moved (hp.pruned env w.ps.root (w.ps, []) h hl) fd _

end

theorem foldl_appendStep_next (st : Bool × Store × Bytes) :
    (rs.foldl (appendStep env) st).2.1.next = st.2.1.next := by
  induction rs generalizing st with
  | nil => rfl
  | cons pr rs ih =>
    refine (ih (appendStep env st pr)).trans ?_
    rw [appendStep]
    split
    · rfl
    dsimp only
    split <;> rfl

theorem foldl_pruneStep_next (st : Store × Bytes)
    (h : ∀ pr ∈ rs, pr.data = [] → st.1.next ≠ some pr.key) : (rs.foldl (pruneStep env) st).1.next = st.1.next := by
  induction rs generalizing st with
  | nil => rfl
  | cons pr rs ih =>
    have hs : (pruneStep env st pr).1.next = st.1.next := by
      rw [pruneStep]
      split
      · rename_i hd
        exact if_neg (h pr mem_cons_self hd)
      dsimp only
      split <;> rfl
    rw [foldl_cons, ih _ fun r hr hd => hs ▸ h r (mem_cons_of_mem _ hr) hd, hs]

end OpenSync.Psfs
