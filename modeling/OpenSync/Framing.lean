import Mathlib

/-!
# Streams of frames

A receiver that cuts frames off the front of what it has received so far gets the same frames however the stream is
split, provided that more input never changes the frame it has recognised.
-/

namespace OpenSync.Framing
open List

variable {α β : Type*}

/-- What recognises the first frame of a stream, along with its length. -/
structure Format (α β : Type*) where
  next : List α → Option (β × Nat)
  pos : ∀ {xs b n}, next xs = some (b, n) → 0 < n
  fits : ∀ {xs b n}, next xs = some (b, n) → n ≤ xs.length
  extend : ∀ {xs b n} (ys), next xs = some (b, n) → next (xs ++ ys) = some (b, n)

variable (F : Format α β)

theorem Format.drop_lt {xs : List α} {b : β} {n : Nat} (h : F.next xs = some (b, n)) :
    (xs.drop n).length < xs.length := by
  have hp := F.pos h
  have hf := F.fits h
  rw [length_drop]
  omega

def Format.drain (xs : List α) : List β × List α :=
  match h : F.next xs with
  | none => ([], xs)
  | some (b, n) => (b :: (Format.drain (xs.drop n)).1, (Format.drain (xs.drop n)).2)
termination_by xs.length
decreasing_by all_goals exact F.drop_lt h

variable {F} {xs : List α} {b : β} {n : Nat}

open Format

theorem Format.drain_none (h : F.next xs = none) : F.drain xs = ([], xs) := by
  rw [drain]
  split
  · rfl
  · rename_i hs
    simp [h] at hs

theorem Format.drain_some (h : F.next xs = some (b, n)) :
    F.drain xs = (b :: (F.drain (xs.drop n)).1, (F.drain (xs.drop n)).2) := by
  rw [drain]
  split
  · rename_i hn
    simp [h] at hn
  · rename_i b' n' hs
    obtain ⟨rfl, rfl⟩ := Prod.mk.inj (Option.some.inj (h.symm.trans hs))
    rfl

theorem Format.drain_induction {P : List α → Prop} (hn : ∀ xs, F.next xs = none → P xs)
    (hs : ∀ xs b n, F.next xs = some (b, n) → P (xs.drop n) → P xs) (xs : List α) : P xs := by
  cases hne : F.next xs with
  | none => exact hn xs hne
  | some p => exact hs xs p.1 p.2 hne (drain_induction hn hs (xs.drop p.2))
termination_by xs.length
decreasing_by exact F.drop_lt hne

theorem Format.drain_rest (xs : List α) : F.next (F.drain xs).2 = none := by
  induction xs using drain_induction (F := F) with
  | hn xs h => rwa [drain_none h]
  | hs xs b n h ih => rwa [drain_some h]

theorem Format.drain_append (xs ys : List α) : F.drain (xs ++ ys) =
      ((F.drain xs).1 ++ (F.drain ((F.drain xs).2 ++ ys)).1, (F.drain ((F.drain xs).2 ++ ys)).2) := by
  induction xs using drain_induction (F := F) with
  | hn xs h => rw [drain_none h, nil_append]
  | hs xs b n h ih =>
    rw [drain_some (F.extend ys h), drain_some h, drop_append_of_le_length (F.fits h), ih]
    rfl

/-- Where frames begin. -/
inductive Format.Reaches (F : Format α β) : List α → List α → Prop
  | refl (xs : List α) : Reaches F xs xs
  | step {xs ys : List α} {b : β} {n : Nat} (h : F.next xs = some (b, n)) (hreach : Reaches F (xs.drop n) ys) :
      Reaches F xs ys

variable {F : Format α β}

theorem Format.Reaches.trans {xs ys zs : List α} (h : F.Reaches xs ys) (h' : F.Reaches ys zs) : F.Reaches xs zs := by
  induction h with
  | refl => exact h'
  | step hn _ ih => exact .step hn (ih h')

theorem Format.Reaches.append {xs zs : List α} (h : F.Reaches xs zs) (ys : List α) :
    F.Reaches (xs ++ ys) (zs ++ ys) := by
  induction h with
  | refl xs => exact .refl _
  | step hn _ ih =>
    refine .step (F.extend ys hn) ?_
    rwa [drop_append_of_le_length (F.fits hn)]

theorem Format.Reaches.drain (xs ys : List α) : F.Reaches (xs ++ ys) ((F.drain xs).2 ++ ys) := by
  induction xs using drain_induction (F := F) with
  | hn xs h =>
    rw [drain_none h]
    exact .refl _
  | hs xs b n h ih =>
    rw [drain_some h]
    refine .step (F.extend ys h) ?_
    rwa [drop_append_of_le_length (F.fits h)]

end OpenSync.Framing
