import Mathlib

/-!
# Comparators

A comparator returns an integer whose sign orders two elements. On the elements where it is antisymmetric and
transitive it is a total preorder. Comparators are chained: the next one is asked where the first cannot tell two
elements apart.
-/

namespace OpenSync.Comparator
open List

variable {α β : Type*}

structure LawfulOn (s : Set α) (r : α → α → Int) : Prop where
  anti : ∀ a ∈ s, ∀ b ∈ s, (r a b < 0 ↔ 0 < r b a)
  trans : ∀ a ∈ s, ∀ b ∈ s, ∀ c ∈ s, r a b ≤ 0 → r b c ≤ 0 → r a c ≤ 0

def orElse (cmp next : Int) : Int := if cmp ≠ 0 then cmp else next

variable {x y : Int}

theorem orElse_eq_zero : orElse x y = 0 ↔ x = 0 ∧ y = 0 := by
  unfold orElse
  split <;> omega

theorem orElse_neg : orElse x y < 0 ↔ x < 0 ∨ x = 0 ∧ y < 0 := by
  unfold orElse
  split <;> omega

theorem orElse_pos : 0 < orElse x y ↔ 0 < x ∨ x = 0 ∧ 0 < y := by
  unfold orElse
  split <;> omega

theorem orElse_le : orElse x y ≤ 0 ↔ x < 0 ∨ x = 0 ∧ y ≤ 0 := by
  unfold orElse
  split <;> omega

namespace LawfulOn

variable {s : Set α} {r r' : α → α → Int}

variable (h : LawfulOn s r)
include h

theorem eq_zero_comm {a b : α} (ha : a ∈ s) (hb : b ∈ s) : r a b = 0 ↔ r b a = 0 := by
  have hab := h.anti a ha b hb
  have hba := h.anti b hb a ha
  omega

theorem eq_zero_trans {a b c : α} (ha : a ∈ s) (hb : b ∈ s) (hc : c ∈ s) (hab : r a b = 0)
    (hbc : r b c = 0) : r a c = 0 := by
  have hle := h.trans a ha b hb c hc hab.le hbc.le
  have hge := h.trans c hc b hb a ha ((h.eq_zero_comm hb hc).mp hbc).le ((h.eq_zero_comm ha hb).mp hab).le
  have han := h.anti a ha c hc
  omega

theorem comap {t : Set β} {f : β → α} (hf : ∀ b ∈ t, f b ∈ s) : LawfulOn t fun a b => r (f a) (f b) :=
  ⟨fun a ha b hb => h.anti _ (hf a ha) _ (hf b hb), fun a ha b hb c hc => h.trans _ (hf a ha) _ (hf b hb) _ (hf c hc)⟩

omit h in
theorem sub (s : Set α) (f : α → Nat) : LawfulOn s fun a b => (f a : Int) - f b :=
  ⟨fun _ _ _ _ => by omega, fun _ _ _ _ _ _ _ _ => by omega⟩

theorem self {a : α} (ha : a ∈ s) : r a a = 0 := by
  have han := h.anti a ha a ha
  omega

theorem mono {t : Set α} (hts : t ⊆ s) : LawfulOn t r := h.comap fun _ hb => hts hb

/-- The next comparator matters only among elements that the first one cannot tell apart. -/
theorem orElse_of_fibres (h' : ∀ x ∈ s, LawfulOn {y ∈ s | r x y = 0} r') :
    LawfulOn s fun a b => Comparator.orElse (r a b) (r' a b) := by
  constructor
  · intro a ha b hb
    have han := h.anti a ha b hb
    have hz := h.eq_zero_comm ha hb
    rw [orElse_neg, orElse_pos, han, hz]
    refine or_congr_right (and_congr_right fun hba => ?_)
    exact (h' a ha).anti a ⟨ha, h.self ha⟩ b ⟨hb, hz.mpr hba⟩
  · intro a ha b hb c hc
    simp only [orElse_le]
    have ht := h.trans a ha b hb c hc
    rintro (hab | ⟨hab, hab'⟩) (hbc | ⟨hbc, hbc'⟩)
    -- were the ends equal for the first comparator, the middle would lie on both sides of them
    · refine .inl (lt_of_le_of_ne (ht hab.le hbc.le) fun hac => ?_)
      have hca := (h.eq_zero_comm ha hc).mp hac
      have hba := h.trans b hb c hc a ha hbc.le hca.le
      have hp := (h.anti a ha b hb).mp hab
      omega
    · refine .inl (lt_of_le_of_ne (ht hab.le hbc.le) fun hac => ?_)
      have hcb := (h.eq_zero_comm hb hc).mp hbc
      have hz := h.eq_zero_trans ha hc hb hac hcb
      omega
    · refine .inl (lt_of_le_of_ne (ht hab.le hbc.le) fun hac => ?_)
      have hba := (h.eq_zero_comm ha hb).mp hab
      have hz := h.eq_zero_trans hb ha hc hba hac
      omega
    · have hac := h.eq_zero_trans ha hb hc hab hbc
      exact .inr ⟨hac, (h' a ha).trans a ⟨ha, h.self ha⟩ b ⟨hb, hab⟩ c ⟨hc, hac⟩ hab' hbc'⟩

theorem orElse (h' : LawfulOn s r') : LawfulOn s fun a b => Comparator.orElse (r a b) (r' a b) :=
  h.orElse_of_fibres fun _ _ => h'.mono fun _ hy => hy.1

theorem exists_least (hs : s.Finite) (hne : s.Nonempty) : ∃ m ∈ s, ∀ a ∈ s, r m a ≤ 0 := by
  obtain ⟨x, hx⟩ := hne
  refine Set.Finite.induction_on_subset (motive := fun t _ => ∃ m ∈ s, ∀ a ∈ t, r m a ≤ 0) s hs
    ⟨x, hx, fun a ha => nomatch ha⟩ ?_
  rintro a t ha hts - ⟨m, hm, hl⟩
  by_cases hma : r m a ≤ 0
  · exact ⟨m, hm, Set.forall_mem_insert.mpr ⟨hma, hl⟩⟩
  · have ham := (h.anti a ha m hm).mpr (by omega)
    exact ⟨a, ha, Set.forall_mem_insert.mpr ⟨(h.self ha).le, fun b hb => h.trans a ha m hm b (hts hb) ham.le (hl b hb)⟩⟩

end LawfulOn

section orElseIff

variable {κ : Type*} {s : Set α} {k : α → κ} {ρ : κ → κ → Int} {r : α → α → Int}

/-- Where the first comparator tells keys apart, the chain is lawful only if both comparators are. -/
theorem lawfulOn_orElse_iff (hρ : ∀ a ∈ s, ∀ b ∈ s, (ρ (k a) (k b) = 0 ↔ k a = k b)) :
    LawfulOn s (fun a b => orElse (ρ (k a) (k b)) (r a b)) ↔
      LawfulOn s (fun a b => ρ (k a) (k b)) ∧ ∀ x ∈ s, LawfulOn {y ∈ s | k x = k y} r := by
  constructor
  · intro h
    have hs : ∀ x ∈ s, ∀ a ∈ {y ∈ s | k x = k y}, ∀ b ∈ {y ∈ s | k x = k y},
        orElse (ρ (k a) (k b)) (r a b) = r a b := fun x _ a ha b hb => by
      rw [(hρ a ha.1 b hb.1).mpr (ha.2.symm.trans hb.2), orElse, if_neg (not_not.mpr rfl)]
    refine ⟨⟨fun a ha b hb => ?_, fun a ha b hb c hc hab hbc => ?_⟩, fun x hx => ⟨fun a ha b hb => ?_,
      fun a ha b hb c hc => ?_⟩⟩
    · have han := h.anti a ha b hb
      have hz : ρ (k a) (k b) = 0 ↔ ρ (k b) (k a) = 0 := by rw [hρ a ha b hb, hρ b hb a ha, eq_comm]
      rw [orElse_neg, orElse_pos] at han
      omega
    · rcases hab.lt_or_eq with hlt | heq
      · rcases hbc.lt_or_eq with hlt' | heq'
        · have ht := h.trans a ha b hb c hc (orElse_neg.mpr (.inl hlt)).le (orElse_neg.mpr (.inl hlt')).le
          rw [orElse_le] at ht
          omega
        · rwa [← (hρ b hb c hc).mp heq']
      · rwa [(hρ a ha b hb).mp heq]
    · rw [← hs x hx a ha b hb, ← hs x hx b hb a ha]
      exact h.anti a ha.1 b hb.1
    · rw [← hs x hx a ha b hb, ← hs x hx b hb c hc, ← hs x hx a ha c hc]
      exact h.trans a ha.1 b hb.1 c hc.1
  · rintro ⟨h, h'⟩
    exact h.orElse_of_fibres fun x hx => (h' x hx).mono fun y hy => ⟨hy.1, (hρ x hx y hy.1).mp hy.2⟩

end orElseIff

/-! ## Machine subtraction -/

theorem toInt_sub_eq_zero {x y : Int32} : (x - y).toInt = 0 ↔ x = y := by
  rw [← Int32.toInt_zero, Int32.toInt_inj]
  grind

/-- On the circle of the machine's integers, all elements are less than half a turn after some number. -/
def InHalfTurn (s : Set α) (f : α → Int32) : Prop := ∃ t, ∀ a ∈ s, 0 ≤ (f a - t).toInt

theorem lawfulOn_sub_iff {s : Set α} {f : α → Int32} : LawfulOn s (fun a b => (f a - f b).toInt) ↔ InHalfTurn s f := by
  constructor
  · intro h
    have him : LawfulOn (f '' s) fun x y : Int32 => (x - y).toInt := by
      constructor
      · rintro _ ⟨a, ha, rfl⟩ _ ⟨b, hb, rfl⟩
        exact h.anti a ha b hb
      · rintro _ ⟨a, ha, rfl⟩ _ ⟨b, hb, rfl⟩ _ ⟨c, hc, rfl⟩
        exact h.trans a ha b hb c hc
    rcases s.eq_empty_or_nonempty with rfl | hne
    · exact ⟨0, fun a ha => nomatch ha⟩
    obtain ⟨t, ht, hl⟩ := him.exists_least (Set.toFinite _) (hne.image f)
    refine ⟨t, fun a ha => ?_⟩
    have hm := Set.mem_image_of_mem f ha
    have hle := hl _ hm
    have han := him.anti _ ht _ hm
    have hz := him.eq_zero_comm ht hm
    omega
  · rintro ⟨t, ht⟩
    have hs : ∀ a ∈ s, ∀ b ∈ s, (f a - f b).toInt = (f a - t).toInt - (f b - t).toInt := by
      intro a ha b hb
      have hca : f a - f b = (f a - t) - (f b - t) := by grind
      have hlt := (f a - t).toInt_lt
      have hlt' := (f b - t).toInt_lt
      have hle := ht a ha
      have hle' := ht b hb
      rw [hca, Int32.toInt_sub, Int.bmod_eq_of_le (by omega) (by omega)]
    refine ⟨fun a ha b hb => ?_, fun a ha b hb c hc => ?_⟩
    · rw [hs a ha b hb, hs b hb a ha]
      omega
    · rw [hs a ha b hb, hs b hb c hc, hs a ha c hc]
      omega

/-! ## Bytes -/

/-- `memcmp` of the first bytes, its sign taken from the first two that differ. -/
@[grind =] def memcmp : Nat → List UInt8 → List UInt8 → Int
  | n + 1, x :: a, y :: b => if x = y then memcmp n a b else x.toNat - y.toNat
  | _, _, _ => 0

theorem memcmp_cons (n : Nat) (x y : UInt8) (a b : List UInt8) :
    memcmp (n + 1) (x :: a) (y :: b) = orElse (x.toNat - y.toNat) (memcmp n a b) := by
  rw [memcmp, orElse]
  by_cases h : x = y
  · rw [if_pos h, if_neg (by simp [h])]
  · have hne : x.toNat ≠ y.toNat := fun heq => h (UInt8.toNat_inj.mp heq)
    rw [if_neg h, if_pos (by omega)]

theorem memcmp_eq_zero {n : Nat} {a b : List UInt8} (ha : n ≤ a.length) (hb : n ≤ b.length) :
    memcmp n a b = 0 ↔ a.take n = b.take n := by
  induction n generalizing a b with
  | zero => simp [memcmp]
  | succ n ih =>
    obtain ⟨x, a, rfl⟩ := exists_cons_of_length_pos (by omega : 0 < a.length)
    obtain ⟨y, b, rfl⟩ := exists_cons_of_length_pos (by omega : 0 < b.length)
    rw [length_cons] at ha hb
    have hby : (x.toNat : Int) - y.toNat = 0 ↔ x = y := by
      rw [← UInt8.toNat_inj]
      omega
    rw [memcmp_cons, orElse_eq_zero, hby, ih (by omega) (by omega), take_succ_cons, take_succ_cons, cons.injEq]

theorem memcmp_lawfulOn (n : Nat) : LawfulOn {a : List UInt8 | n ≤ a.length} (memcmp n) := by
  induction n with
  | zero => exact ⟨fun _ _ _ _ => by simp [memcmp], fun _ _ _ _ _ _ _ _ => by simp [memcmp]⟩
  | succ n ih =>
    have hby : LawfulOn {a : List UInt8 | n + 1 ≤ a.length} fun a b => ((a.headD 0).toNat : Int) - (b.headD 0).toNat :=
      .sub _ fun a : List UInt8 => (a.headD 0).toNat
    have hr : LawfulOn {a : List UInt8 | n + 1 ≤ a.length} fun a b => memcmp n a.tail b.tail :=
      ih.comap fun a (ha : n + 1 ≤ a.length) => by
        rw [Set.mem_setOf_eq, length_tail]
        omega
    have hch : ∀ a ∈ {a : List UInt8 | n + 1 ≤ a.length}, ∀ b ∈ {a : List UInt8 | n + 1 ≤ a.length},
        memcmp (n + 1) a b =
          Comparator.orElse (((a.headD 0).toNat : Int) - (b.headD 0).toNat) (memcmp n a.tail b.tail) := by
      intro a ha b hb
      rw [Set.mem_setOf_eq] at ha hb
      obtain ⟨x, a, rfl⟩ := exists_cons_of_length_pos (by omega : 0 < a.length)
      obtain ⟨y, b, rfl⟩ := exists_cons_of_length_pos (by omega : 0 < b.length)
      exact memcmp_cons n x y a b
    have h := hby.orElse hr
    refine ⟨fun a ha b hb => ?_, fun a ha b hb c hc => ?_⟩
    · rw [hch a ha b hb, hch b hb a ha]
      exact h.anti a ha b hb
    · rw [hch a ha b hb, hch b hb c hc, hch a ha c hc]
      exact h.trans a ha b hb c hc

end OpenSync.Comparator
