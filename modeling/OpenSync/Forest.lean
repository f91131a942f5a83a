import Mathlib.Data.List.Infix
import Mathlib.Data.List.Nodup

/-!
# Forests with positions

A forest is a list of trees, each a node with the forest of its dependents. A node is identified by its
position: its index among its siblings, followed by the position of its parent. The nodes below a node are
those whose positions it is a proper suffix of.
-/

namespace OpenSync

inductive Forest (α : Type*)
  | nil
  | cons (a : α) (deps rest : Forest α)
  deriving DecidableEq, Repr

namespace Forest

variable {α β : Type*}

abbrev Position := List Nat

/-- The nodes with their positions, where the forest stands below `up` and its first tree has index `i`. -/
@[grind =] def located (up : Position) : Nat → Forest α → List (Position × α)
  | _, nil => []
  | i, cons a deps rest => (i :: up, a) :: (located (i :: up) 0 deps ++ located up (i + 1) rest)

def positions (up : Position) (i : Nat) (f : Forest α) : List Position := (f.located up i).map Prod.fst

def nodes (f : Forest α) : List (Position × α) := f.located [] 0

section Positions

variable {up : Position} {i : Nat} {a : α} {deps rest : Forest α}

@[simp] theorem mem_located_cons {x : Position × α} : x ∈ located up i (cons a deps rest) ↔
      x = (i :: up, a) ∨ x ∈ located (i :: up) 0 deps ∨ x ∈ located up (i + 1) rest := by
  simp [located]

theorem positions_cons : positions up i (cons a deps rest) =
    (i :: up) :: (positions (i :: up) 0 deps ++ positions up (i + 1) rest) := by
  simp [positions, located]

variable {p : Position}

@[simp] theorem mem_positions_cons : p ∈ positions up i (cons a deps rest) ↔
      p = i :: up ∨ p ∈ positions (i :: up) 0 deps ∨ p ∈ positions up (i + 1) rest := by
  simp [positions, located]

variable {f : Forest α}

theorem mem_positions : p ∈ positions up i f ↔ ∃ b, (p, b) ∈ located up i f := by
  simp [positions]

theorem index_unique {j k : Nat} (hj : (j :: up) <:+ p) (hk : (k :: up) <:+ p) : j = k := by
  have hs : (j :: up) <:+ (k :: up) := List.suffix_of_suffix_length_le hj hk (by simp)
  have heq := hs.eq_of_length (by simp)
  exact (List.cons.inj heq).1

theorem positions_under (h : p ∈ positions up i f) : ∃ j, i ≤ j ∧ (j :: up) <:+ p := by
  induction f generalizing up i with
  | nil => simp [positions, located] at h
  | cons a deps rest ihd ihr =>
    rcases mem_positions_cons.mp h with rfl | hd | hr
    · exact ⟨i, le_rfl, List.suffix_rfl⟩
    · obtain ⟨j, -, hj⟩ := ihd hd
      exact ⟨i, le_rfl, (List.suffix_cons j (i :: up)).trans hj⟩
    · obtain ⟨j, hij, hj⟩ := ihr hr
      exact ⟨j, by omega, hj⟩

theorem deps_under (h : p ∈ positions (i :: up) 0 deps) : (i :: up) <:+ p ∧ p ≠ i :: up := by
  obtain ⟨j, -, hj⟩ := positions_under h
  refine ⟨(List.suffix_cons j (i :: up)).trans hj, ?_⟩
  rintro rfl
  have := hj.length_le
  simp only [List.length_cons] at this
  omega

theorem rest_not_under (h : p ∈ positions up (i + 1) rest) : ¬ (i :: up) <:+ p := by
  intro hs
  obtain ⟨j, hij, hj⟩ := positions_under h
  have := index_unique hs hj
  omega

theorem positions_nodup (up : Position) (i : Nat) (f : Forest α) : (positions up i f).Nodup := by
  induction f generalizing up i with
  | nil => simp [positions, located]
  | cons a deps rest ihd ihr =>
    rw [positions_cons, List.nodup_cons, List.mem_append, List.nodup_append]
    refine ⟨?_, ihd _ _, ihr _ _, ?_⟩
    · rintro (hd | hr)
      · exact (deps_under hd).2 rfl
      · exact rest_not_under hr List.suffix_rfl
    · intro p hd q hr hpq
      subst hpq
      exact rest_not_under hr (deps_under hd).1

theorem located_unique {b c : α} (hb : (p, b) ∈ located up i f) (hc : (p, c) ∈ located up i f) : b = c := by
  have hnd := List.inj_on_of_nodup_map (positions_nodup up i f) hb hc rfl
  exact (Prod.mk.inj hnd).2

end Positions

/-! ## Forests of one shape -/

/-- The forests have one shape, and `R` relates the nodes of each position. -/
inductive Rel (R : α → β → Prop) : Forest α → Forest β → Prop
  | nil : Rel R nil nil
  | cons {a b deps deps' rest rest'} (h : R a b) (hd : Rel R deps deps') (hr : Rel R rest rest') :
      Rel R (cons a deps rest) (cons b deps' rest')

theorem Rel.refl {R : α → α → Prop} (h : ∀ a, R a a) (f : Forest α) : Rel R f f := by
  induction f with
  | nil => exact Rel.nil
  | cons a deps rest ihd ihr => exact Rel.cons (h a) ihd ihr

variable {R : α → β → Prop}

theorem Rel.positions_eq {f : Forest α} {g : Forest β} (h : Rel R f g) (up : Position)
    (i : Nat) : positions up i f = positions up i g := by
  induction h generalizing up i with
  | nil => rfl
  | cons hab hd hr ihd ihr =>
    rw [positions_cons, positions_cons, ihd, ihr]

theorem Rel.of_mem {f : Forest α} {g : Forest β} (h : Rel R f g) {up : Position} {i : Nat}
    {p : Position} {b : β} (hb : (p, b) ∈ located up i g) : ∃ a, (p, a) ∈ located up i f ∧ R a b := by
  induction h generalizing up i with
  | nil => simp [located] at hb
  | cons hab hd hr ihd ihr =>
    rcases mem_located_cons.mp hb with heq | hm | hm
    · obtain ⟨rfl, rfl⟩ := Prod.mk.inj heq
      exact ⟨_, mem_located_cons.mpr (.inl rfl), hab⟩
    · obtain ⟨a, ha, hR⟩ := ihd hm
      exact ⟨a, mem_located_cons.mpr (.inr (.inl ha)), hR⟩
    · obtain ⟨a, ha, hR⟩ := ihr hm
      exact ⟨a, mem_located_cons.mpr (.inr (.inr ha)), hR⟩

/-! ## Changes below one position -/

def map (g : α → β) : Forest α → Forest β
  | nil => nil
  | cons a deps rest => cons (g a) (map g deps) (map g rest)

theorem Rel.map {g : α → β} (h : ∀ a, R a (g a)) (f : Forest α) : Rel R f (f.map g) := by
  induction f with
  | nil => exact Rel.nil
  | cons a deps rest ihd ihr => exact Rel.cons (h a) ihd ihr

/-- Change the node at a position together with the forest of its dependents. -/
def modifyAt (p : Position) (g : α → Forest α → α × Forest α) (up : Position) : Nat → Forest α → Forest α
  | _, nil => nil
  | i, cons a deps rest =>
    if i :: up = p then cons (g a deps).1 (g a deps).2 (modifyAt p g up (i + 1) rest)
    else cons a (modifyAt p g (i :: up) 0 deps) (modifyAt p g up (i + 1) rest)

theorem Rel.modifyAt {R : α → α → Prop} {g : α → Forest α → α × Forest α} (hr : ∀ a, R a a)
    (hn : ∀ a deps, R a (g a deps).1) (hd : ∀ a deps, Rel R deps (g a deps).2) (p up : Position) (i : Nat)
    (f : Forest α) : Rel R f (f.modifyAt p g up i) := by
  induction f generalizing up i with
  | nil => exact Rel.nil
  | cons a deps rest ihd ihr =>
    rw [Forest.modifyAt]
    split
    · exact Rel.cons (hn a deps) (hd a deps) (ihr _ _)
    · exact Rel.cons (hr a) (ihd _ _) (ihr _ _)

end Forest

end OpenSync
