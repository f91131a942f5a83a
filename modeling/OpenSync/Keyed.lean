import Mathlib

/-!
# Sequences of keyed elements

An ordered container seen as the sequence of its elements: lookup by key, insertion in front of the
first element whose key is not smaller, removal and replacement by key. With distinct keys the
sequence is a finite map, and each operation changes the lookup of one key only.
-/

namespace OpenSync.Keyed
open List

variable {α κ : Type*} [DecidableEq κ] (key : α → κ)

def find (k : κ) (l : List α) : Option α := l.find? (key · = k)

def drop (k : κ) (l : List α) : List α := l.filter (key · ≠ k)

def replace (a : α) (l : List α) : List α := l.map fun b => if key b = key a then a else b

def insert (lt : κ → κ → Bool) (a : α) : List α → List α
  | [] => [a]
  | b :: l => if lt (key b) (key a) then b :: insert lt a l else a :: b :: l

def Unique (l : List α) : Prop := (l.map key).Nodup

variable {key} {l : List α} {a : α} {k : κ}

@[simp] theorem find_nil : find key k [] = none := rfl

theorem find_cons (b : α) : find key k (b :: l) = if key b = k then some b else find key k l := by
  by_cases h : key b = k <;> simp [find, h]

theorem key_of_find (h : find key k l = some a) : key a = k := by
  simpa using find?_some h

theorem mem_of_find (h : find key k l = some a) : a ∈ l := mem_of_find?_eq_some h

theorem find_eq_none : find key k l = none ↔ ∀ b ∈ l, key b ≠ k := by
  simp [find]

theorem find_of_mem (hu : Unique key l) (h : a ∈ l) : find key (key a) l = some a := by
  cases hf : find key (key a) l with
  | none => exact absurd rfl (find_eq_none.mp hf a h)
  | some b => rw [inj_on_of_nodup_map hu (mem_of_find hf) h (key_of_find hf)]

theorem find_drop (k' : κ) : find key k (drop key k' l) = if k = k' then none else find key k l := by
  induction l with
  | nil => simp [drop]
  | cons b l ih =>
    rw [drop] at ih ⊢
    by_cases hb : key b = k'
    · rw [filter_cons_of_neg (by simpa using hb), ih, find_cons]
      split_ifs with h1 h2 <;> first | rfl | exact absurd (h2 ▸ hb) h1
    · rw [filter_cons_of_pos (by simpa using hb), find_cons, find_cons, ih]
      split_ifs with h1 h2 <;> first | rfl | exact absurd (h1.trans h2) hb

theorem find_filter (hu : Unique key l) (p : α → Bool) : find key k (l.filter p) = (find key k l).filter p := by
  induction l with
  | nil => rfl
  | cons b l ih =>
    obtain ⟨hb, hl⟩ := nodup_cons.mp hu
    rw [find_cons]
    by_cases hk : key b = k
    · have hn : find key k l = none := by
        rw [find_eq_none]
        intro c hc hck
        exact hb (mem_map.mpr ⟨c, hc, hck.trans hk.symm⟩)
      rw [if_pos hk]
      cases hp : p b with
      | false => rw [filter_cons_of_neg (by simp [hp]), ih hl, hn, Option.filter_some_neg (by simp [hp]), Option.filter_none]
      | true => rw [filter_cons_of_pos hp, find_cons, if_pos hk, Option.filter_some_pos hp]
    · rw [if_neg hk]
      cases hp : p b with
      | false => rw [filter_cons_of_neg (by simp [hp]), ih hl]
      | true => rw [filter_cons_of_pos hp, find_cons, if_neg hk, ih hl]

theorem find_insert {lt : κ → κ → Bool} (hlt : ∀ k, lt k k = false) :
    find key k (insert key lt a l) = if k = key a then some a else find key k l := by
  induction l with
  | nil => simp [insert, find_cons, eq_comm]
  | cons b l ih =>
    rw [insert]
    split_ifs with hb hk hk
    · have hne : key b ≠ k := by
        rintro rfl
        rw [hk, hlt] at hb
        cases hb
      rw [find_cons, if_neg hne, ih, if_pos hk]
    · rw [find_cons, find_cons, ih, if_neg hk]
    · rw [find_cons, if_pos hk.symm]
    · rw [find_cons, if_neg fun h => hk h.symm]

theorem find_replace : find key k (replace key a l) = if k = key a then (find key k l).map fun _ => a
      else find key k l := by
  induction l with
  | nil => simp [replace]
  | cons b l ih =>
    rw [replace] at ih ⊢
    rw [map_cons, find_cons, find_cons, ih]
    by_cases hk : k = key a
    · subst hk
      by_cases hb : key b = key a <;> simp [hb]
    · by_cases hb : key b = key a
      · have hne : ¬ key a = k := fun h => hk h.symm
        simp [hb, hk, hne]
      · simp [hb, hk]

theorem find_map {f : α → α} (hf : ∀ b, key (f b) = key b) (k : κ) (l : List α) :
    find key k (l.map f) = (find key k l).map f := by
  induction l with
  | nil => rfl
  | cons b l ih =>
    rw [map_cons, find_cons, find_cons, hf, ih]
    split_ifs <;> rfl

theorem forall_mem_perm_cons {p : α → Prop} {a : α} {l l' : List α} (h : l.Perm (a :: l')) (ha : p a)
    (hl : ∀ b ∈ l', p b) : ∀ b ∈ l, p b :=
  fun b hb => forall_mem_cons.mpr ⟨ha, hl⟩ b (h.mem_iff.mp hb)

omit [DecidableEq κ] in
theorem insert_perm (lt : κ → κ → Bool) (a : α) (l : List α) : (insert key lt a l).Perm (a :: l) := by
  induction l with
  | nil => exact Perm.refl _
  | cons b l ih =>
    rw [insert]
    split_ifs
    · exact (ih.cons b).trans (Perm.swap a b l)
    · exact Perm.refl _

theorem Unique.drop (hu : Unique key l) (k : κ) : Unique key (drop key k l) := hu.sublist (filter_sublist.map key)

omit [DecidableEq κ] in
theorem Unique.filter (hu : Unique key l) (p : α → Bool) : Unique key (l.filter p) :=
  hu.sublist (filter_sublist.map key)

open Keyed

variable (hu : Unique key l)
include hu

theorem perm_cons_drop (h : find key k l = some a) : l.Perm (a :: Keyed.drop key k l) := by
  induction l with
  | nil => simp at h
  | cons b l ih =>
    obtain ⟨hb, hl⟩ := nodup_cons.mp hu
    rw [find_cons] at h
    by_cases hk : key b = k
    · rw [if_pos hk, Option.some.injEq] at h
      subst h
      have hs : drop key k (b :: l) = l := by
        rw [drop, filter_cons_of_neg (by simp [hk]), filter_eq_self]
        intro c hc
        have hne : key c ≠ k := fun hck => hb (mem_map.mpr ⟨c, hc, hck.trans hk.symm⟩)
        simp [hne]
      rw [hs]
    · rw [if_neg hk] at h
      have hke : drop key k (b :: l) = b :: drop key k l := by
        rw [drop, filter_cons_of_pos (by simp [hk]), drop]
      rw [hke]
      exact ((ih hl h).cons b).trans (Perm.swap a b _)

theorem length_drop (h : a ∈ l) : (Keyed.drop key (key a) l).length = l.length - 1 := by
  rw [(perm_cons_drop hu (find_of_mem hu h)).length_eq, length_cons, Nat.add_sub_cancel]

theorem Unique.insert (lt : κ → κ → Bool) (h : find key (key a) l = none) :
    Unique key (insert key lt a l) := by
  refine ((insert_perm lt a l).map key).nodup_iff.mpr (nodup_cons.mpr ⟨?_, hu⟩)
  intro hm
  obtain ⟨b, hb, hk⟩ := mem_map.mp hm
  exact find_eq_none.mp h b hb hk

omit hu in
theorem map_key_replace (a : α) (l : List α) : (replace key a l).map key = l.map key := by
  rw [replace, map_map]
  refine map_congr_left fun b _ => ?_
  by_cases hb : key b = key a <;> simp [hb]

omit hu in
theorem mem_replace {b : α} (h : b ∈ replace key a l) : b = a ∨ b ∈ l ∧ key b ≠ key a := by
  obtain ⟨c, hc, rfl⟩ := mem_map.mp h
  split_ifs with hk
  · exact .inl rfl
  · exact .inr ⟨hc, hk⟩

theorem Unique.replace (a : α) : Unique key (replace key a l) := by
  rw [Unique, map_key_replace]
  exact hu

theorem replace_perm {b : α} (h : find key (key a) l = some b) :
    (Keyed.replace key a l).Perm (a :: Keyed.drop key (key a) l) := by
  have hm := (perm_cons_drop hu h).map fun c => if key c = key a then a else c
  rw [map_cons, if_pos (key_of_find h)] at hm
  have hr : (drop key (key a) l).map (fun c => if key c = key a then a else c) = drop key (key a) l := by
    refine (map_congr_left fun c hc => ?_).trans (map_id _)
    have hne : key c ≠ key a := by simpa using (mem_filter.mp hc).2
    exact if_neg hne
  rwa [hr] at hm

end OpenSync.Keyed
