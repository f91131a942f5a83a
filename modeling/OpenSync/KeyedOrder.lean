import OpenSync.Keyed

/-!
# Sorted sequences of keyed elements

Insertion, removal and replacement keep a sequence sorted by its keys. In a sorted sequence the elements behind a key are
those with greater keys, and the first of some elements is the least of them.
-/

namespace OpenSync.Keyed
open List

variable {α κ : Type*} [LinearOrder κ] [DecidableEq κ] (key : α → κ)

def Sorted (l : List α) : Prop := l.Pairwise fun a b => key a < key b

def behind (k : κ) (l : List α) : List α := (l.dropWhile (key · ≠ k)).tail

variable {key} {l : List α} {a : α} {k : κ}

section

variable (h : Sorted key l)
include h

omit [DecidableEq κ] in
theorem Sorted.unique : Unique key l := by
  rw [Unique, Nodup, pairwise_map]
  exact h.imp ne_of_lt

omit [DecidableEq κ] in
theorem Sorted.filter (p : α → Bool) : Sorted key (l.filter p) := h.sublist filter_sublist

theorem Sorted.drop (k : κ) : Sorted key (drop key k l) := h.filter _

theorem Sorted.replace (a : α) : Sorted key (replace key a l) := by
  have hk : (l.map key).Pairwise (· < ·) := pairwise_map.mpr h
  rw [← map_key_replace a] at hk
  exact pairwise_map.mp hk

end

variable {lt : κ → κ → Bool}

theorem Sorted.insert (hlt : ∀ k k', lt k k' = true ↔ k < k') (h : Sorted key l)
    (hn : find key (key a) l = none) : Sorted key (insert key lt a l) := by
  induction l with
  | nil => exact pairwise_singleton _ _
  | cons b l ih =>
    obtain ⟨hb, hl⟩ := pairwise_cons.mp h
    have hne : key b ≠ key a := find_eq_none.mp hn b mem_cons_self
    have hn' : find key (key a) l = none := find_eq_none.mpr (forall_mem_cons.mp (find_eq_none.mp hn)).2
    rw [Keyed.insert]
    split
    · rename_i hba
      exact pairwise_cons.mpr ⟨forall_mem_perm_cons (insert_perm lt a l) ((hlt _ _).mp hba) hb, ih hl hn'⟩
    · rename_i hba
      have hab : key a < key b := lt_of_le_of_ne (not_lt.mp fun hlt' => hba ((hlt _ _).mpr hlt')) hne.symm
      exact pairwise_cons.mpr ⟨forall_mem_cons.mpr ⟨hab, fun c hc => hab.trans (hb c hc)⟩, h⟩

theorem behind_eq_filter (hlt : ∀ k k', lt k k' = true ↔ k < k') (h : Sorted key l)
    (hf : find key k l = some a) : behind key k l = l.filter fun b => lt k (key b) := by
  induction l with
  | nil => cases hf
  | cons b l ih =>
    obtain ⟨hb, hl⟩ := pairwise_cons.mp h
    rw [find_cons] at hf
    by_cases hk : key b = k
    · have ha : ∀ c ∈ l, lt k (key c) = true := fun c hc => (hlt _ _).mpr (hk ▸ hb c hc)
      have hs : ¬ lt k (key b) = true := fun hlt' => absurd ((hlt _ _).mp hlt') (hk ▸ lt_irrefl _)
      rw [behind, dropWhile_cons_of_neg (by simp [hk]), tail_cons, filter_cons, if_neg hs, filter_eq_self.mpr ha]
    · rw [if_neg hk] at hf
      have hbe : key b < k := key_of_find hf ▸ hb a (mem_of_find hf)
      have hs : ¬ lt k (key b) = true := fun hlt' => absurd ((hlt _ _).mp hlt') hbe.not_gt
      rw [behind, dropWhile_cons_of_pos (by simp [hk]), filter_cons, if_neg hs]
      exact ih hl hf

omit [DecidableEq κ] in
theorem Sorted.find?_le (h : Sorted key l) {p : α → Bool} (hf : l.find? p = some a) {b : α} (hb : b ∈ l)
    (hp : p b = true) : key a ≤ key b := by
  induction l with
  | nil => cases hb
  | cons c l ih =>
    obtain ⟨hc, hl⟩ := pairwise_cons.mp h
    rw [find?_cons] at hf
    cases hpc : p c with
    | true =>
      rw [hpc] at hf
      cases hf
      rcases mem_cons.mp hb with rfl | hb
      · exact le_rfl
      · exact (hc b hb).le
    | false =>
      rw [hpc] at hf
      rcases mem_cons.mp hb with rfl | hb
      · rw [hp] at hpc
        cases hpc
      · exact ih hl hf hb

end OpenSync.Keyed
