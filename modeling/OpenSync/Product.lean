import Mathlib.Data.List.Forall2
import Mathlib.Data.Multiset.Bind
import Mathlib.Logic.Function.Basic

/-!
# Loops over all choices

Nested loops, one for each index, run their body on every way to choose one item for each index. A loop
ends with the first body that fails, and then all loops around it end too, so the nest is one loop over
the product. The product is linear in the items of each index.
-/

namespace OpenSync.Product
open List Function

variable {ι α β σ : Type*}

@[grind =] def tryAll (body : σ → α → Bool × σ) : List α → σ → Bool × σ
  | [], s => (true, s)
  | a :: as, s =>
    match body s a with
    | (true, s') => tryAll body as s'
    | (false, s') => (false, s')

/-- All ways to choose an item for each index; the last index varies fastest. -/
def choose (f : ι → List α) : List ι → List (List α)
  | [] => [[]]
  | i :: is => (f i).flatMap fun a => (choose f is).map (a :: ·)

/-! ## Loops -/

section Loops

variable (body : σ → α → Bool × σ)

theorem tryAll_singleton (a : α) (s : σ) : tryAll body [a] s = body s a := by
  rw [tryAll]
  cases h : body s a with
  | mk ok s' =>
    cases ok <;> rfl

theorem tryAll_cons (a : α) (as : List α) (s : σ) :
    tryAll body (a :: as) s = if (body s a).1 then tryAll body as (body s a).2 else body s a := by
  rw [tryAll]
  rcases body s a with ⟨_ | _, s'⟩ <;> rfl

theorem tryAll_append (as bs : List α) (s : σ) : tryAll body (as ++ bs) s =
      if (tryAll body as s).1 then tryAll body bs (tryAll body as s).2 else tryAll body as s := by
  induction as generalizing s with
  | nil => simp [tryAll]
  | cons a as ih =>
    rw [cons_append, tryAll_cons, tryAll_cons, ih]
    split_ifs <;> rfl

theorem tryAll_map (g : β → α) (bs : List β) (s : σ) :
    tryAll body (bs.map g) s = tryAll (fun s b => body s (g b)) bs s := by
  induction bs generalizing s with
  | nil => rfl
  | cons b bs ih =>
    rw [map_cons, tryAll_cons, tryAll_cons, ih]

theorem tryAll_flatMap (g : β → List α) (bs : List β) (s : σ) :
    tryAll body (bs.flatMap g) s = tryAll (fun s b => tryAll body (g b) s) bs s := by
  induction bs generalizing s with
  | nil => rfl
  | cons b bs ih =>
    rw [flatMap_cons, tryAll_append, tryAll_cons, ih]

variable {body} {as : List α}

theorem tryAll_congr {body' : σ → α → Bool × σ} (h : ∀ s, ∀ a ∈ as, body s a = body' s a)
    (s : σ) : tryAll body as s = tryAll body' as s := by
  induction as generalizing s with
  | nil => rfl
  | cons a as ih =>
    rw [tryAll_cons, tryAll_cons, h s a mem_cons_self, ih fun s a ha => h s a (mem_cons_of_mem _ ha)]

theorem tryAll_foldl {act : σ → α → σ} (h : ∀ s, ∀ a ∈ as, body s a = (true, act s a))
    (s : σ) : tryAll body as s = (true, as.foldl act s) := by
  induction as generalizing s with
  | nil => rfl
  | cons a as ih =>
    rw [tryAll, h s a mem_cons_self]
    exact ih (fun s a ha => h s a (mem_cons_of_mem _ ha)) _

theorem tryAll_spec {R : σ → List α → Prop} {Q : σ → Prop}
    (h : ∀ s a as, R s (a :: as) → ((body s a).1 = true → R (body s a).2 as) ∧ ((body s a).1 = false → Q (body s a).2))
    {s : σ} (hs : R s as) :
    ((tryAll body as s).1 = true → R (tryAll body as s).2 []) ∧
      ((tryAll body as s).1 = false → Q (tryAll body as s).2) := by
  induction as generalizing s with
  | nil => exact ⟨fun _ => hs, nofun⟩
  | cons a as ih =>
    obtain ⟨hg, hb⟩ := h s a as hs
    rw [tryAll_cons]
    split_ifs with ha
    · exact ih (hg ha)
    · exact ⟨fun h => absurd h ha, hb⟩

end Loops

/-! ## Failures that are noted -/

section Notes

variable {P : σ → Prop}

/-- What the state notes stays noted. -/
def Keeps (P : σ → Prop) (call : σ → Bool × σ) : Prop := ∀ s, P s → P (call s).2

/-- A call whose failure is noted in the state. -/
structure Noted (P : σ → Prop) (call : σ → Bool × σ) : Prop where
  keeps : Keeps P call
  failed : ∀ s, (call s).1 = false → P (call s).2

theorem noted_true : Noted P (fun s => (true, s)) := ⟨fun _ h => h, fun _ h => Bool.noConfusion h⟩

variable {body : σ → α → Bool × σ}

theorem tryAll_kept {as : List α} (h : ∀ a ∈ as, Keeps P (body · a)) : Keeps P (tryAll body as) := by
  induction as with
  | nil => exact fun _ hs => hs
  | cons a as ih =>
    intro s hs
    have hst := h a mem_cons_self s hs
    rw [tryAll_cons]
    split_ifs
    · exact ih (forall_mem_cons.mp h).2 _ hst
    · exact hst

theorem tryAll_same {as : List α} {s : σ} (h : ∀ a ∈ as, (body s a).2 = s) : (tryAll body as s).2 = s :=
  tryAll_kept (P := (· = s)) (fun a ha _ hs => hs ▸ h a ha) s rfl

theorem tryAll_noted {as : List α} (h : ∀ a ∈ as, Noted P (body · a)) : Noted P (tryAll body as) := by
  refine ⟨tryAll_kept fun a ha => (h a ha).keeps, ?_⟩
  induction as with
  | nil => exact fun _ hb => Bool.noConfusion hb
  | cons a as ih =>
    intro s
    rw [tryAll_cons]
    split_ifs
    · exact ih (forall_mem_cons.mp h).2 _
    · exact (h a mem_cons_self).failed s

end Notes

/-! ## Products -/

section Choices

variable {f g : ι → List α} {is : List ι} {as : List α}

theorem mem_choose : as ∈ choose f is ↔ List.Forall₂ (fun i a => a ∈ f i) is as := by
  induction is generalizing as with
  | nil => simp [choose]
  | cons i is ih =>
    rw [choose, mem_flatMap]
    constructor
    · rintro ⟨a, ha, hm⟩
      obtain ⟨as', has', rfl⟩ := mem_map.mp hm
      exact Forall₂.cons ha (ih.mp has')
    · intro h
      cases h with
      | cons ha has => exact ⟨_, ha, mem_map.mpr ⟨_, ih.mpr has, rfl⟩⟩

theorem choose_congr (h : ∀ i ∈ is, f i = g i) : choose f is = choose g is := by
  induction is with
  | nil => rfl
  | cons i is ih =>
    rw [choose, choose, h i mem_cons_self, ih (forall_mem_cons.mp h).2]

theorem choose_eq_nil {i : ι} (hi : i ∈ is) (h : f i = []) : choose f is = [] := by
  apply eq_nil_iff_forall_not_mem.mpr
  intro as has
  obtain ⟨a, ha⟩ : ∃ a, a ∈ f i := by
    have hal := mem_choose.mp has
    clear h has
    induction hal with
    | nil => simp at hi
    | @cons j a js as ha _ ih =>
      rcases mem_cons.mp hi with rfl | hi
      · exact ⟨a, ha⟩
      · exact ih hi
  simp [h] at ha

theorem exists_eq_nil (h : choose f is = []) : ∃ i ∈ is, f i = [] := by
  induction is with
  | nil => cases h
  | cons i is ih =>
    by_cases hi : f i = []
    · exact ⟨i, mem_cons_self, hi⟩
    · obtain ⟨a, ha⟩ := exists_mem_of_ne_nil _ hi
      obtain ⟨j, hj, hn⟩ := ih (map_eq_nil_iff.mp (flatMap_eq_nil_iff.mp h a ha))
      exact ⟨j, mem_cons_of_mem _ hj, hn⟩

variable [DecidableEq ι]

def at? (is : List ι) (as : List α) (i : ι) : Option α := as[is.idxOf i]?

theorem at?_cons_self (i : ι) (a : α) (as : List α) : at? (i :: is) (a :: as) i = some a := by
  simp [at?]

theorem at?_cons_ne {i j : ι} (h : j ≠ i) (a : α) (as : List α) : at? (j :: is) (a :: as) i = at? is as i := by
  rw [at?, idxOf_cons_ne _ h, getElem?_cons_succ, at?]

theorem mem_choose_iff (hnd : is.Nodup) :
    as ∈ choose f is ↔ as.length = is.length ∧ ∀ i ∈ is, ∃ a ∈ f i, at? is as i = some a := by
  rw [mem_choose]
  induction is generalizing as with
  | nil => simp [length_eq_zero_iff, eq_comm]
  | cons j is ih =>
    obtain ⟨hj, hnd⟩ := nodup_cons.mp hnd
    cases as with
    | nil => simp
    | cons b as =>
      have hr : (∀ i ∈ is, ∃ a ∈ f i, at? (j :: is) (b :: as) i = some a) ↔
          ∀ i ∈ is, ∃ a ∈ f i, at? is as i = some a := by
        apply forall₂_congr
        intro i hi
        rw [at?_cons_ne (ne_of_mem_of_not_mem hi hj).symm]
      rw [forall₂_cons, ih hnd, forall_mem_cons, hr, at?_cons_self]
      simp
      tauto

/-- The items of a choice are right for all indices but one. -/
def Others (f : ι → List α) (is : List ι) (i : ι) (as : List α) : Prop :=
  as.length = is.length ∧ ∀ j ∈ is, j ≠ i → ∃ a ∈ f j, at? is as j = some a

theorem mem_choose_update {i : ι} {l as : List α} (hi : i ∈ is) (hnd : is.Nodup) :
    as ∈ choose (Function.update f i l) is ↔ Others f is i as ∧ ∃ a ∈ l, at? is as i = some a := by
  rw [mem_choose_iff hnd, Others, and_assoc]
  apply and_congr_right
  intro _
  constructor
  · intro h
    refine ⟨fun j hj hne => ?_, ?_⟩
    · obtain ⟨a, ha, hat⟩ := h j hj
      rw [update_of_ne hne] at ha
      exact ⟨a, ha, hat⟩
    · obtain ⟨a, ha, hat⟩ := h i hi
      rw [update_self] at ha
      exact ⟨a, ha, hat⟩
  · rintro ⟨ho, hs⟩ j hj
    by_cases hne : j = i
    · rw [hne, update_self]
      exact hs
    · rw [update_of_ne hne]
      exact ho j hj hne

theorem others_congr {i : ι} (h : ∀ j ∈ is, j ≠ i → f j = g j) : Others f is i as ↔ Others g is i as := by
  apply and_congr_right
  intro _
  apply forall₂_congr
  intro j hj
  apply forall_congr'
  intro hne
  rw [h j hj hne]

end Choices

end OpenSync.Product
