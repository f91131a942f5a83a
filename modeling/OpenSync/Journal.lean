import Mathlib

/-!
# Scanning a word-aligned journal

A journal is a string of symbols in which records start at multiples of four. `head` tries to read
one record at the front of a suffix and reports its length. A scan visits suffixes: after a record
it goes on at the next aligned offset, after a failed attempt it skips one word. `scan` collects the
records it reads and `rejects` the suffixes at which an attempt failed.

Appending to a journal extends its scan as soon as no rejected suffix turns into a record
(`scan_append`); bytes that hold no record at any aligned offset are skipped (`scan_skip`).
-/

namespace OpenSync.Journal
open List

variable {β ρ : Type*}

def align (n : ℕ) : ℕ := (n + 3) / 4 * 4

theorem le_align (n : ℕ) : n ≤ align n := by unfold align; omega

variable {n : ℕ}

theorem align_of_mod (h : n % 4 = 0) : align n = n := by unfold align; omega

/-- An attempt that succeeds looks only at the record's own symbols. -/
structure Local (head : List β → Option (ρ × ℕ)) : Prop where
  pos : ∀ {s r n}, head s = some (r, n) → 0 < n
  le : ∀ {s r n}, head s = some (r, n) → n ≤ s.length
  append : ∀ {s r n}, head s = some (r, n) → ∀ w, head (s ++ w) = some (r, n)

section Visits
variable (head : List β → Option (ρ × ℕ))

/-- How far the scan moves from a suffix it visits. -/
def stride (s : List β) : ℕ :=
  match head s with
  | some (_, n) => align n
  | none => 4

def visitsAux : ℕ → List β → List (List β)
  | 0, _ => []
  | fuel + 1, s => if s = [] then [] else s :: visitsAux fuel (s.drop (stride head s))

def visits (s : List β) : List (List β) := visitsAux head s.length s

def scan (s : List β) : List ρ := (visits head s).filterMap fun t => (head t).map Prod.fst

def rejects (s : List β) : List (List β) := (visits head s).filter fun t => (head t).isNone

end Visits

variable {head : List β → Option (ρ × ℕ)} {s : List β} {r : ρ}

theorem stride_some (h : head s = some (r, n)) : stride head s = align n := by simp [stride, h]

theorem stride_none (h : head s = none) : stride head s = 4 := by simp [stride, h]

variable (hl : Local head)
include hl

theorem stride_pos (s : List β) : 0 < stride head s := by
  cases h : head s with
  | none => rw [stride_none h]; omega
  | some p =>
    have hp := hl.pos h
    have ha := le_align p.2
    rw [stride_some h]
    omega

omit hl in
theorem stride_mod (head : List β → Option (ρ × ℕ)) (s : List β) : stride head s % 4 = 0 := by
  unfold stride align
  split <;> omega

theorem visitsAux_eq_of_le {m n : ℕ} (hm : s.length ≤ m)
    (hn : s.length ≤ n) : visitsAux head m s = visitsAux head n s := by
  induction m generalizing n s with
  | zero =>
    have hs : s = [] := eq_nil_of_length_eq_zero (by omega)
    cases n <;> simp [visitsAux, hs]
  | succ m ih =>
    by_cases hs : s = []
    · cases n <;> simp [visitsAux, hs]
    · have hp := length_pos_of_ne_nil hs
      have hst := stride_pos hl s
      obtain ⟨n, rfl⟩ : ∃ n', n = n' + 1 := ⟨n - 1, by omega⟩
      simp only [visitsAux, if_neg hs]
      rw [ih (n := n) (by rw [length_drop]; omega) (by rw [length_drop]; omega)]

omit hl in
@[simp] theorem visits_nil : visits head [] = [] := rfl

theorem visits_cons (hs : s ≠ []) : visits head s = s :: visits head (s.drop (stride head s)) := by
  have hp := length_pos_of_ne_nil hs
  have hst := stride_pos hl s
  obtain ⟨k, hk⟩ : ∃ k, s.length = k + 1 := ⟨s.length - 1, by omega⟩
  unfold visits
  rw [hk, visitsAux, if_neg hs]
  rw [visitsAux_eq_of_le hl (m := k) (by rw [length_drop]; omega) le_rfl]

omit hl in
@[simp] theorem scan_nil : scan head [] = [] := rfl

theorem scan_some (h : head s = some (r, n)) : scan head s = r :: scan head (s.drop (align n)) := by
  have hs : s ≠ [] := by
    rintro rfl
    have := hl.pos h
    have := hl.le h
    simp at this
    omega
  simp [scan, visits_cons hl hs, stride_some h, h]

theorem scan_none (h : head s = none) : scan head s = scan head (s.drop 4) := by
  by_cases hs : s = []
  · simp [hs]
  · simp [scan, visits_cons hl hs, stride_none h, h]

/-- The scan of an extended journal visits the old suffixes, extended, and then the new symbols from
the first aligned offset on, provided no rejected suffix became a record. -/
theorem visits_append (s w : List β) (h : ∀ t ∈ rejects head s, head (t ++ w) = none) :
    visits head (s ++ w) = (visits head s).map (· ++ w) ++ visits head (w.drop (align s.length - s.length)) := by
  induction hn : s.length using Nat.strong_induction_on generalizing s with
  | _ n ih =>
    subst hn
    by_cases hs : s = []
    · simp [hs, align]
    have hpo := length_pos_of_ne_nil hs
    have hst := stride_pos hl s
    have hm := stride_mod head s
    have hsw : s ++ w ≠ [] := by simp [hs]
    -- The old suffix and its extension move by the same stride.
    have hstr : stride head (s ++ w) = stride head s := by
      cases hh : head s with
      | none =>
        rw [stride_none hh, stride_none]
        apply h
        simp [rejects, visits_cons hl hs, hh]
      | some p => rw [stride_some hh, stride_some (hl.append hh w)]
    rw [visits_cons hl hsw, visits_cons hl hs, hstr, map_cons, cons_append]
    congr 1
    by_cases hle : stride head s ≤ s.length
    · rw [drop_append_of_le_length hle]
      have hr := ih (s.drop (stride head s)).length (by rw [length_drop]; omega)
        (s.drop (stride head s)) (by
          intro t ht
          apply h
          rw [rejects, visits_cons hl hs]
          obtain ⟨hv, hno⟩ := mem_filter.mp ht
          exact mem_filter.mpr ⟨mem_cons_of_mem _ hv, hno⟩) rfl
      rw [hr]
      congr 3
      rw [length_drop]
      unfold align
      omega
    · have hal : stride head s = align s.length := by
        cases hh : head s with
        | none => rw [stride_none hh] at hle ⊢; unfold align; omega
        | some p =>
          have hp := hl.le hh
          rw [stride_some hh] at hle ⊢
          unfold align at *
          omega
      rw [drop_of_length_le (by omega : s.length ≤ stride head s), visits_nil, map_nil,
        nil_append, drop_append, drop_of_length_le (by omega), nil_append, hal]

theorem scan_append (s w : List β) (h : ∀ t ∈ rejects head s, head (t ++ w) = none) :
    scan head (s ++ w) = scan head s ++ scan head (w.drop (align s.length - s.length)) := by
  unfold scan
  rw [visits_append hl s w h, filterMap_append, filterMap_map]
  congr 1
  apply filterMap_congr
  intro t ht
  cases hh : head t with
  | none =>
    have hn := h t (mem_filter.mpr ⟨ht, by simp [hh]⟩)
    simp [hn]
  | some p => simp [hl.append hh w]

theorem rejects_append (s w : List β) (h : rejects head s = []) :
    rejects head (s ++ w) = rejects head (w.drop (align s.length - s.length)) := by
  rw [rejects, visits_append hl s w (by simp [h]), filter_append, filter_eq_nil_iff.mpr, nil_append]
  · rfl
  · intro t ht
    obtain ⟨t', ht', rfl⟩ := mem_map.mp ht
    cases hh : head t' with
    | none =>
      have hm : t' ∈ rejects head s := mem_filter.mpr ⟨ht', by simp [hh]⟩
      rw [h] at hm
      cases hm
    | some p => simp [hl.append hh w]

theorem rejects_record {c : List β} (h : head c = some (r, n))
    (hc : c.length ≤ align n) : rejects head c = [] := by
  have hne : c ≠ [] := by
    rintro rfl
    have := hl.pos h
    have := hl.le h
    simp at this
    omega
  rw [rejects, visits_cons hl hne, stride_some h, drop_of_length_le hc]
  simp [h]

theorem scan_skip (t w : List β) (h : ∀ k, 4 * k < t.length → head ((t ++ w).drop (4 * k)) = none) :
    scan head (t ++ w) = scan head (w.drop (align t.length - t.length)) := by
  induction hn : t.length using Nat.strong_induction_on generalizing t with
  | _ n ih =>
    subst hn
    by_cases ht : t = []
    · simp [ht, align]
    have hp := length_pos_of_ne_nil ht
    have h0 : head (t ++ w) = none := by simpa using h 0 (by omega)
    rw [scan_none hl h0]
    by_cases hle : 4 ≤ t.length
    · rw [drop_append_of_le_length hle]
      have hr := ih (t.drop 4).length (by rw [length_drop]; omega) (t.drop 4) (by
        intro k hk
        rw [length_drop] at hk
        have hk' := h (k + 1) (by omega)
        rwa [show 4 * (k + 1) = 4 + 4 * k by omega, ← drop_drop, drop_append_of_le_length hle] at hk') rfl
      rw [hr]
      congr 2
      rw [length_drop]
      unfold align
      omega
    · rw [drop_append, drop_of_length_le (by omega), nil_append]
      congr 2
      unfold align
      omega

end OpenSync.Journal
