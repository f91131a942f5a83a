import Mathlib.Data.List.Infix

/-!
# Searching for parts of texts

The first occurrence of a pattern, what is left when all occurrences are removed, and patterns that end in a mark of two
characters: such a pattern can only be found where the mark is.
-/

namespace OpenSync.Search
open List Option

variable {α : Type*} {pat s t : List α}

/-! ## Occurrences -/

def OccursAt (pat s : List α) (k : Nat) : Prop := pat <+: s.drop k

variable {k : Nat}

theorem occursAt_iff : OccursAt pat s k ↔ ∀ i < pat.length, s[k + i]? = pat[i]? := by
  rw [OccursAt, prefix_iff_getElem?]
  constructor
  · intro h i hi
    rw [← getElem?_drop, h i hi, getElem?_eq_getElem hi]
  · intro h i hi
    rw [getElem?_drop, h i hi, getElem?_eq_getElem hi]

theorem not_isPrefix_of (h : ¬ OccursAt pat s 0) : ¬ pat <+: s := h

/-! ## Marks -/

variable {x y : α} {p r : List α}

def Unmarked (x y : α) (s : List α) : Prop := ∀ k, ¬ OccursAt [x, y] s k

theorem occursAt_pair : OccursAt [x, y] s k ↔ s[k]? = some x ∧ s[k + 1]? = some y := by
  rw [occursAt_iff]
  constructor
  · exact fun h => ⟨h 0 (by simp), h 1 (by simp)⟩
  · rintro ⟨hx, hy⟩ i hi
    match i, hi with
    | 0, _ => exact hx
    | 1, _ => exact hy

theorem OccursAt.mark (h : OccursAt (p ++ [x, y]) s k) : s[k + p.length]? = some x ∧ s[k + p.length + 1]? = some y := by
  rw [occursAt_iff] at h
  refine ⟨?_, ?_⟩
  · have hx := h p.length (by simp)
    rwa [getElem?_append_right (le_refl _), Nat.sub_self] at hx
  · have hy := h (p.length + 1) (by simp)
    rwa [getElem?_append_right (by omega), Nat.add_sub_cancel_left] at hy

theorem Unmarked.not_within (h : Unmarked x y s) (hxy : x ≠ y) (hk : k < s.length)
    (hx : (s ++ x :: r)[k]? = some x) (hy : (s ++ x :: r)[k + 1]? = some y) : False := by
  rw [getElem?_append_left hk] at hx
  by_cases hn : k + 1 < s.length
  · rw [getElem?_append_left hn] at hy
    exact h k (occursAt_pair.mpr ⟨hx, hy⟩)
  · rw [getElem?_append_right (by omega), show k + 1 - s.length = 0 by omega] at hy
    exact hxy (some.inj hy)

theorem Unmarked.of_append_left (h : Unmarked x y (s ++ t)) : Unmarked x y s := by
  intro k ho
  rw [occursAt_pair] at ho
  have hk : k + 1 < s.length := (List.getElem?_eq_some_iff.mp ho.2).1
  apply h k
  rw [occursAt_pair, getElem?_append_left (by omega), getElem?_append_left hk]
  exact ho

theorem Unmarked.of_append_right (h : Unmarked x y (s ++ t)) : Unmarked x y t := by
  intro k ho
  apply h (s.length + k)
  rw [OccursAt, drop_append, drop_of_length_le (Nat.le_add_right _ _), Nat.add_sub_cancel_left, nil_append]
  exact ho

theorem unmarked_of_notMem (h : x ∉ s) : Unmarked x y s := fun _ ho => h (mem_of_getElem? (occursAt_pair.mp ho).1)

theorem Unmarked.append_left (h : Unmarked x y t) (hs : x ∉ s) : Unmarked x y (s ++ t) := by
  intro k ho
  obtain ⟨hx, hy⟩ := occursAt_pair.mp ho
  rcases Nat.lt_or_ge k s.length with hlt | hge
  · rw [getElem?_append_left hlt] at hx
    exact hs (mem_of_getElem? hx)
  · rw [getElem?_append_right hge] at hx
    rw [getElem?_append_right (by omega), show k + 1 - s.length = (k - s.length) + 1 by omega] at hy
    exact h _ (occursAt_pair.mpr ⟨hx, hy⟩)

theorem Unmarked.append_cons (hs : Unmarked x y s) {c : α} (hc : c ≠ y) (ht : Unmarked x y (c :: t)) :
    Unmarked x y (s ++ c :: t) := by
  intro k ho
  obtain ⟨hx, hy⟩ := occursAt_pair.mp ho
  by_cases hk : k + 1 < s.length
  · rw [getElem?_append_left (by omega)] at hx
    rw [getElem?_append_left hk] at hy
    exact hs k (occursAt_pair.mpr ⟨hx, hy⟩)
  rw [getElem?_append_right (by omega)] at hy
  rcases Nat.lt_or_ge k s.length with hlt | hge
  · rw [show k + 1 - s.length = 0 by omega] at hy
    exact hc (some.inj hy)
  · rw [getElem?_append_right hge] at hx
    rw [show k + 1 - s.length = (k - s.length) + 1 by omega] at hy
    exact ht _ (occursAt_pair.mpr ⟨hx, hy⟩)

/-! ## Search -/

variable [DecidableEq α]

/-- What comes before the first occurrence, and what comes after it. -/
@[grind =] def strstr (pat : List α) : List α → Option (List α × List α)
  | [] => if pat = [] then some ([], []) else none
  | c :: s =>
    if pat <+: c :: s then some ([], (c :: s).drop pat.length)
    else (strstr pat s).map fun r => (c :: r.1, r.2)

/-- What is left without the occurrences; the search goes on behind each of them. The number tells how many characters
still belong to an occurrence. -/
@[grind =] def removeFrom (pat : List α) : Nat → List α → List α
  | _, [] => []
  | k + 1, _ :: s => removeFrom pat k s
  | 0, c :: s => if pat <+: c :: s then removeFrom pat (pat.length - 1) s else c :: removeFrom pat 0 s

def remove (pat s : List α) : List α := removeFrom pat 0 s

variable {a b : List α}

theorem strstr_eq_some_of (hf : ∀ k < b.length, ¬ OccursAt pat (b ++ (pat ++ a)) k) :
    strstr pat (b ++ (pat ++ a)) = some (b, a) := by
  induction b with
  | nil =>
    rw [nil_append]
    cases hs : pat ++ a with
    | nil =>
      obtain ⟨rfl, rfl⟩ := append_eq_nil_iff.mp hs
      rfl
    | cons c s =>
      rw [strstr, ← hs, if_pos (prefix_append _ _), drop_left]
  | cons c b ih =>
    rw [cons_append] at hf ⊢
    rw [strstr, if_neg (not_isPrefix_of (hf 0 (Nat.succ_pos _)))]
    rw [ih fun k hk ho => hf (k + 1) (Nat.succ_lt_succ hk) ho]
    rfl

theorem strstr_eq_none_of (hp : pat ≠ []) (h : ∀ k, ¬ OccursAt pat s k) : strstr pat s = none := by
  induction s with
  | nil => rw [strstr, if_neg hp]
  | cons c s ih =>
    rw [strstr, if_neg (not_isPrefix_of (h 0)), ih fun k => h (k + 1)]
    rfl

theorem strstr_append_of (h : ∀ k < s.length, ¬ OccursAt pat (s ++ t) k) :
    strstr pat (s ++ t) = (strstr pat t).map fun r => (s ++ r.1, r.2) := by
  induction s with
  | nil => simp
  | cons c s ih =>
    rw [cons_append] at h ⊢
    rw [strstr, if_neg (not_isPrefix_of (h 0 (Nat.succ_pos _))), ih fun k hk ho => h (k + 1) (Nat.succ_lt_succ hk) ho,
      Option.map_map]
    rfl

theorem removeFrom_drop (k : Nat) (s : List α) : removeFrom pat k s = removeFrom pat 0 (s.drop k) := by
  induction k generalizing s with
  | zero => rfl
  | succ k ih =>
    cases s with
    | nil => simp [removeFrom]
    | cons c s => exact ih s

theorem remove_eq_self (h : ∀ k, ¬ OccursAt pat s k) : remove pat s = s := by
  induction s with
  | nil => rfl
  | cons c s ih =>
    rw [remove, removeFrom, if_neg (not_isPrefix_of (h 0))]
    exact congrArg (c :: ·) (ih fun k => h (k + 1))

theorem remove_eq_of (hp : pat ≠ []) (hf : ∀ k < b.length, ¬ OccursAt pat (b ++ (pat ++ a)) k)
    (hr : ∀ k, ¬ OccursAt pat a k) : remove pat (b ++ (pat ++ a)) = b ++ a := by
  induction b with
  | nil =>
    obtain ⟨c, p, rfl⟩ := exists_cons_of_ne_nil hp
    rw [nil_append, cons_append, remove, removeFrom, if_pos ⟨a, rfl⟩, removeFrom_drop]
    simp only [length_cons, Nat.add_sub_cancel, drop_left, nil_append]
    exact remove_eq_self hr
  | cons c b ih =>
    rw [cons_append] at hf ⊢
    rw [remove, removeFrom, if_neg (not_isPrefix_of (hf 0 (Nat.succ_pos _)))]
    exact congrArg (c :: ·) (ih fun k hk ho => hf (k + 1) (Nat.succ_lt_succ hk) ho)

theorem strstr_mark {b : List α} (hs : Unmarked x y (b ++ p)) (hxy : x ≠ y) (a : List α) :
    strstr (p ++ [x, y]) (b ++ (p ++ [x, y] ++ a)) = some (b, a) := by
  apply strstr_eq_some_of
  intro k hk ho
  obtain ⟨hx, hy⟩ := ho.mark
  have ht : b ++ (p ++ [x, y] ++ a) = (b ++ p) ++ x :: (y :: a) := by simp
  rw [ht] at hx hy
  exact hs.not_within hxy (by rw [length_append]; omega) hx hy

theorem strstr_skip (hs : Unmarked x y s) (hxy : x ≠ y) (hp : p ≠ []) (hpx : x ∉ p) (hpy : y ∉ p) (hne : ¬ p <:+ s)
    (a : List α) :
    strstr (p ++ [x, y]) (s ++ [x, y] ++ a) = (strstr (p ++ [x, y]) a).map fun r => (s ++ [x, y] ++ r.1, r.2) := by
  have hpo : 0 < p.length := length_pos_of_ne_nil hp
  have ht : s ++ [x, y] ++ a = s ++ x :: (y :: a) := by simp
  apply strstr_append_of
  intro k hk ho
  obtain ⟨hx, hy⟩ := ho.mark
  have ha : ∀ i < p.length, (s ++ x :: (y :: a))[k + i]? = p[i]? := by
    intro i hi
    rw [← ht, occursAt_iff.mp ho i (by simp; omega), getElem?_append_left hi]
  rw [ht] at hx hy
  rw [length_append, length_cons, length_singleton] at hk
  rcases Nat.lt_trichotomy (k + p.length) s.length with hlt | heq | hgt
  · exact hs.not_within hxy hlt hx hy
  · -- the pattern ends at the mark that follows
    apply hne
    refine ⟨s.take k, ?_⟩
    have hd : s.drop k = p := by
      apply ext_getElem?
      intro i
      rw [getElem?_drop]
      by_cases hi : i < p.length
      · rw [← ha i hi, getElem?_append_left (by omega)]
      · rw [getElem?_eq_none (by omega), getElem?_eq_none (by omega)]
    rw [← hd, take_append_drop]
  · -- the pattern would contain a character of the mark
    by_cases hf : k ≤ s.length
    · have hm := ha (s.length - k) (by omega)
      rw [show k + (s.length - k) = s.length by omega, getElem?_append_right (le_refl _), Nat.sub_self] at hm
      exact hpx (mem_of_getElem? hm.symm)
    · have hm := ha 0 hpo
      rw [Nat.add_zero, getElem?_append_right (by omega), show k - s.length = 1 by omega] at hm
      exact hpy (mem_of_getElem? hm.symm)

theorem strstr_unmarked (hs : Unmarked x y s) : strstr (p ++ [x, y]) s = none :=
  strstr_eq_none_of (by simp) fun k ho => hs _ (occursAt_pair.mpr ho.mark)

theorem strstr_eq_some (h : strstr pat s = some (b, a)) : s = b ++ (pat ++ a) ∧ ∀ k < b.length, ¬ OccursAt pat s k := by
  induction s generalizing b with
  | nil =>
    rw [strstr] at h
    split_ifs at h with hp
    obtain ⟨rfl, rfl⟩ : [] = b ∧ [] = a := by simpa using h
    simp [hp]
  | cons c s ih =>
    rw [strstr] at h
    split_ifs at h with hp
    · obtain ⟨rfl, rfl⟩ : [] = b ∧ (c :: s).drop pat.length = a := by simpa using h
      exact ⟨prefix_iff_eq_append.mp hp |>.symm, fun k hk => absurd hk (Nat.not_lt_zero k)⟩
    obtain ⟨⟨b', a'⟩, hf, heq⟩ := map_eq_some_iff.mp h
    obtain ⟨rfl, rfl⟩ : c :: b' = b ∧ a' = a := by simpa using heq
    obtain ⟨hs, hfi⟩ := ih hf
    refine ⟨congrArg (c :: ·) hs, fun k hk => ?_⟩
    cases k with
    | zero => exact hp
    | succ k => exact hfi k (Nat.lt_of_succ_lt_succ hk)

theorem strstr_isSome_of (hp : pat ≠ []) (h : OccursAt pat s k) : (strstr pat s).isSome = true := by
  induction s generalizing k with
  | nil =>
    rw [OccursAt, drop_nil] at h
    exact absurd (prefix_nil.mp h) hp
  | cons c s ih =>
    rw [strstr]
    split_ifs with hh
    · rfl
    · cases k with
      | zero => exact absurd h hh
      | succ k =>
        rw [isSome_map]
        exact ih h

end OpenSync.Search
