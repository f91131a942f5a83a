import Mathlib

/-!
# Red-black trees and their contexts

Trees with a focus: a `Path` is the context of a subtree, innermost frame first, and `plug` puts the
subtree back. Sides are booleans, so that mirror images are one case (`branch`). `Bal` is the
red-black invariant of a subtree without the condition on its root, and `Ctx` what it asks of a
context.
-/

namespace OpenSync.RbTree
open List

inductive Color where
  | red
  | black
  deriving DecidableEq

def Color.weight : Color → ℕ
  | .red => 0
  | .black => 1

variable {c : Color}

theorem Color.eq_black (h : c ≠ .red) : c = .black := by
  cases c with
  | red => exact absurd rfl h
  | black => rfl

inductive Shape (α : Type*) where
  | nil
  | node (c : Color) (l : Shape α) (a : α) (r : Shape α)

variable {α : Type*}

namespace Shape

/-- The node `a` with `x` on side `d` and `y` on the other one; `true` is the right side. -/
def branch (d : Bool) (c : Color) (x : Shape α) (a : α) (y : Shape α) : Shape α :=
  match d with
  | false => node c x a y
  | true => node c y a x

@[grind =] def toList : Shape α → List α
  | nil => []
  | node _ l a r => l.toList ++ a :: r.toList

/-- A missing node counts as black. -/
def color : Shape α → Color
  | nil => .black
  | node c _ _ _ => c

def paint (c : Color) : Shape α → Shape α
  | nil => nil
  | node _ l a r => node c l a r

variable (d : Bool)

@[simp] theorem color_branch (c : Color) (x : Shape α) (a : α) (y : Shape α) : (branch d c x a y).color = c := by
  cases d <;> rfl

@[simp] theorem paint_branch (c c' : Color) (x : Shape α) (a : α) (y : Shape α) :
    (branch d c x a y).paint c' = branch d c' x a y := by
  cases d <;> rfl

@[simp] theorem mem_toList_branch {b : α} (c : Color) (x : Shape α) (a : α) (y : Shape α) :
    b ∈ (branch d c x a y).toList ↔ b = a ∨ b ∈ x.toList ∨ b ∈ y.toList := by
  cases d <;> simp [branch, toList] <;> tauto

theorem toList_branch_perm (c : Color) (x : Shape α) (a : α) (y : Shape α) :
    (branch d c x a y).toList.Perm (a :: (x.toList ++ y.toList)) := by
  cases d with
  | false => exact perm_middle
  | true => exact perm_middle.trans ((perm_append_comm).cons a)

theorem node_eq_branch (c : Color) (l : Shape α) (a : α) (r : Shape α) : ∃ x y, node c l a r = branch d c x a y := by
  cases d with
  | false => exact ⟨l, r, rfl⟩
  | true => exact ⟨r, l, rfl⟩

theorem branch_swap (c : Color) (x : Shape α) (a : α) (y : Shape α) : branch d c x a y = branch (!d) c y a x := by
  cases d <;> rfl

/-- No red node has a red child and every path down has `n` black nodes. -/
def Bal : Shape α → ℕ → Prop
  | nil, n => n = 0
  | node c l _ r, n => (c = .red → l.color = .black ∧ r.color = .black) ∧ ∃ m, n = m + c.weight ∧ l.Bal m ∧ r.Bal m

theorem bal_branch {d : Bool} {c : Color} {x : Shape α} {a : α} {y : Shape α} {n : ℕ} :
    (branch d c x a y).Bal n ↔ (c = .red → x.color = .black ∧ y.color = .black) ∧
      ∃ m, n = m + c.weight ∧ x.Bal m ∧ y.Bal m := by
  cases d with
  | false => exact Iff.rfl
  | true =>
    refine and_congr (imp_congr Iff.rfl and_comm) (exists_congr fun m => ?_)
    exact and_congr Iff.rfl and_comm

theorem bal_paint_red {t : Shape α} {n : ℕ} (h : t.Bal n) (hre : t.color = .red) : (t.paint .black).Bal (n + 1) := by
  cases t with
  | nil => cases hre
  | node c l a r =>
    obtain ⟨-, m, rfl, hl, hr⟩ := h
    cases (hre : c = .red)
    exact ⟨nofun, m, rfl, hl, hr⟩

theorem bal_paint_black {t : Shape α} {n : ℕ} (h : t.Bal n) : ∃ m, (t.paint .black).Bal m := by
  cases t with
  | nil => exact ⟨n, h⟩
  | node c l a r =>
    obtain ⟨-, m, -, hl, hr⟩ := h
    exact ⟨m + 1, nofun, m, rfl, hl, hr⟩

end Shape

open Shape

/-- One step up: the parent of the hole, which side the hole is on, and the other subtree. -/
structure Frame (α : Type*) where
  dir : Bool
  color : Color
  a : α
  sib : Shape α

abbrev Path (α : Type*) := List (Frame α)

def Frame.plug (f : Frame α) (t : Shape α) : Shape α := branch f.dir f.color t f.a f.sib

def plug : Path α → Shape α → Shape α
  | [], t => t
  | f :: p, t => plug p (f.plug t)

@[grind =] def before : Path α → List α
  | [] => []
  | f :: p => before p ++ if f.dir then f.sib.toList ++ [f.a] else []

@[grind =] def after : Path α → List α
  | [] => []
  | f :: p => (if f.dir then [] else f.a :: f.sib.toList) ++ after p

theorem toList_plug (p : Path α) (t : Shape α) : (plug p t).toList = before p ++ t.toList ++ after p := by
  induction p generalizing t with
  | nil => simp [plug, before, after]
  | cons f p ih =>
    obtain ⟨dir, c, a, sib⟩ := f
    cases dir <;> simp [plug, Frame.plug, ih, before, after, branch, toList]

theorem plug_append (p q : Path α) (t : Shape α) : plug (p ++ q) t = plug q (plug p t) := by
  induction p generalizing t with
  | nil => rfl
  | cons f p ih => exact ih _

/-! ## Both reading directions -/

def Shape.seq (d : Bool) (t : Shape α) : List α := if d then t.toList else t.toList.reverse

def ahead (d : Bool) (p : Path α) : List α := if d then after p else (before p).reverse

theorem seq_nil (d : Bool) : (nil : Shape α).seq d = [] := by
  cases d <;> rfl

theorem seq_branch (d : Bool) (c : Color) (x : Shape α) (a : α) (y : Shape α) :
    (branch (!d) c x a y).seq d = x.seq d ++ a :: y.seq d := by
  cases d with
  | false => simp [seq, branch, toList]
  | true => rfl

theorem ahead_nil (d : Bool) : ahead d ([] : Path α) = [] := by
  cases d <;> rfl

variable {d : Bool}

theorem ahead_cons_self {f : Frame α} (h : f.dir = d) (p : Path α) : ahead d (f :: p) = ahead d p := by
  cases d <;> simp [ahead, before, after, h]

theorem ahead_cons_not {f : Frame α} (h : f.dir = !d) (p : Path α) :
    ahead d (f :: p) = f.a :: f.sib.seq d ++ ahead d p := by
  cases d <;> simp [ahead, before, after, seq, h]

variable {p : Path α}

theorem ahead_eq_nil (h : ∀ f ∈ p, f.dir = d) : ahead d p = [] := by
  induction p with
  | nil => exact ahead_nil d
  | cons f p ih =>
    rw [ahead_cons_self (h f mem_cons_self)]
    exact ih (forall_mem_cons.mp h).2

theorem seq_plug (d : Bool) (p : Path α) (t : Shape α) :
    (plug p t).seq d = (ahead (!d) p).reverse ++ t.seq d ++ ahead d p := by
  cases d <;> simp [seq, ahead, toList_plug]

/-- What a context asks of the subtree in its hole: its colour and its black height. The colour of
the whole tree's root is free. -/
def Ctx : Path α → Color → ℕ → Prop
  | [], _, _ => True
  | f :: p, c, n => (f.color = .red → c = .black ∧ f.sib.color = .black) ∧ f.sib.Bal n ∧
      Ctx p f.color (n + f.color.weight)

theorem Ctx.black {n : ℕ} (h : Ctx p c n) : Ctx p .black n := by
  cases p with
  | nil => trivial
  | cons f p => exact ⟨fun hc => ⟨rfl, (h.1 hc).2⟩, h.2⟩

theorem Ctx.relabel {q p : Path α} {a : α} {s : Shape α} {k : Color} {n : ℕ}
    (h : Ctx (q ++ ⟨d, c, a, s⟩ :: p) k n) (b : α) : Ctx (q ++ ⟨d, c, b, s⟩ :: p) k n := by
  induction q generalizing k n with
  | nil => exact h
  | cons f q ih => exact ⟨h.1, h.2.1, ih h.2.2⟩

variable {t : Shape α}

theorem bal_plug {n : ℕ} (ht : t.Bal n) (hp : Ctx p t.color n) : ∃ m, (plug p t).Bal m := by
  induction p generalizing t n with
  | nil => exact ⟨n, ht⟩
  | cons f p ih =>
    obtain ⟨hc, hs, hp⟩ := hp
    refine ih (t := f.plug t) (n := n + f.color.weight) ?_ (by rwa [Frame.plug, color_branch])
    exact bal_branch.mpr ⟨hc, n, rfl, ht, hs⟩

theorem bal_of_plug {m : ℕ} (h : (plug p t).Bal m) : ∃ n, t.Bal n ∧ Ctx p t.color n := by
  induction p generalizing t with
  | nil => exact ⟨m, h, trivial⟩
  | cons f p ih =>
    obtain ⟨n, hb, hp⟩ := ih h
    obtain ⟨hc, k, rfl, ht, hs⟩ := bal_branch.mp hb
    rw [Frame.plug, color_branch] at hp
    exact ⟨k, ht, hc, hs, hp⟩

theorem exists_plug {a : α} (h : a ∈ t.toList) : ∃ p c l r, t = plug p (node c l a r) := by
  induction t with
  | nil => simp [toList] at h
  | node c l b r ihl ihr =>
    rw [toList, mem_append, mem_cons] at h
    rcases h with hl | rfl | hr
    · obtain ⟨p, c', l', r', rfl⟩ := ihl hl
      exact ⟨p ++ [⟨false, c, b, r⟩], c', l', r', by rw [plug_append]; rfl⟩
    · exact ⟨[], c, l, r, rfl⟩
    · obtain ⟨p, c', l', r', rfl⟩ := ihr hr
      exact ⟨p ++ [⟨true, c, b, l⟩], c', l', r', by rw [plug_append]; rfl⟩

end OpenSync.RbTree
