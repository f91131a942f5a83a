import Mathlib.Tactic

/-!
# Buffers of a fixed size

A buffer is written at positions that may lie outside of it, which it then tells. Writing a list of items at a position
is what a copy and a formatted print do.
-/

namespace OpenSync
open List

structure Buffer (α : Type*) where
  cells : List α
  overrun : Bool

namespace Buffer

variable {α : Type*}

def size (b : Buffer α) : ℕ := b.cells.length

def ofCells (cells : List α) : Buffer α := ⟨cells, false⟩

def write (b : Buffer α) (i : ℕ) (v : α) : Buffer α :=
  if i < b.size then { b with cells := b.cells.set i v } else { b with overrun := true }

@[grind =] def put (b : Buffer α) (i : ℕ) : List α → Buffer α
  | [] => b
  | v :: vs => (b.write i v).put (i + 1) vs

variable (b : Buffer α) (i : ℕ) (v : α) (vs : List α)

@[simp] theorem size_write : (b.write i v).size = b.size := by
  unfold write
  split_ifs
  · exact length_set
  · rfl

theorem overrun_write : (b.write i v).overrun = (b.overrun || decide (b.size ≤ i)) := by
  unfold write
  split_ifs with h
  · simp [not_le.2 h]
  · simp [not_lt.1 h]

theorem cells_write {b : Buffer α} {i : ℕ} (h : i < b.size) (v : α) : (b.write i v).cells = b.cells.set i v := by
  rw [write, if_pos h]

@[simp] theorem size_put : (b.put i vs).size = b.size := by
  induction vs generalizing b i with
  | nil => rfl
  | cons v vs ih => rw [put, ih, size_write]

theorem overrun_put : (b.put i vs).overrun = (b.overrun || decide (vs ≠ [] ∧ b.size < i + vs.length)) := by
  induction vs generalizing b i with
  | nil => simp [put]
  | cons v vs ih =>
    rw [put, ih, overrun_write, size_write, Bool.or_assoc]
    congr 1
    rw [Bool.eq_iff_iff]
    simp only [Bool.or_eq_true, decide_eq_true_eq, ne_eq, reduceCtorEq, not_false_eq_true, true_and, length_cons]
    cases vs with
    | nil => simp
    | cons w ws =>
      simp only [length_cons, reduceCtorEq, not_false_eq_true, true_and]
      omega

variable {b i}

theorem cells_put (h : i + vs.length ≤ b.size) :
    (b.put i vs).cells = b.cells.take i ++ vs ++ b.cells.drop (i + vs.length) := by
  induction vs generalizing b i with
  | nil => simp [put]
  | cons v vs ih =>
    have hlt : i < b.cells.length := by
      simp only [length_cons, size] at h
      omega
    have ht : (b.cells.set i v).take (i + 1) = b.cells.take i ++ [v] := by
      rw [take_add_one, take_set_of_le le_rfl, getElem?_set_self hlt]
      rfl
    have hd : (b.cells.set i v).drop (i + 1 + vs.length) = b.cells.drop (i + 1 + vs.length) := drop_set_of_lt (by omega)
    rw [put, ih (by rw [size_write]; simp only [length_cons] at h; omega), cells_write hlt, ht, hd]
    simp [Nat.add_assoc, Nat.add_comm 1]

theorem overrun_put_of_le (hf : b.overrun = false) (h : i + vs.length ≤ b.size) : (b.put i vs).overrun = false := by
  rw [overrun_put, hf]
  simp [not_lt.2 h]

theorem mem_cells_put {w : α} (hw : w ∈ vs) (h : i + vs.length ≤ b.size) : w ∈ (b.put i vs).cells := by
  rw [cells_put vs h]
  exact mem_append_left _ (mem_append_right _ hw)

end Buffer

end OpenSync
