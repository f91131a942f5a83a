import OpenSync.DsTreeRotate

/-!
# Rebalancing after a removal

The hole that `ds_tree_remove_rebalance` works on holds a subtree that is one black node short: its
context asks for a black subtree of height `n + 1` and its height is `n`. A round either ends with a
balanced tree or hands the same situation on to the parent. The sibling is never missing, because its
height is `n + 1`.
-/

namespace OpenSync.DsTree
open Option RbTree RbTree.Shape

variable {A K : Type} [DecidableEq A] {t : Ds A K} {p : Path A} {x : Shape A} {d : Bool} {c : Color} {a : A}

theorem repaint_spec {y : Shape A} (h : Rep t (plug p (branch d c x a y))) (hx : x ≠ nil) (hy : y ≠ nil) (k : Color) :
    ∃ t', repaint t a k = some t' ∧ Reshapes t t' (plug p (branch d c x a y))
      (plug p (branch d k (x.paint .black) a (y.paint .black))) := by
  have h₁ := setProp_spec h k
  obtain ⟨b₀, b₁, hb₀, hb₁, h₂⟩ := paintChildren_spec h₁.rep hx hy
  refine ⟨_, ?_, h₁.trans h₂⟩
  rw [repaint]
  simp [hb₀, hb₁]

omit [DecidableEq A] in
theorem plug_nephews (p : Path A) (d : Bool) (c k : Color) (x : Shape A) (a : A) (u : Shape A) (s : A)
    (w : Shape A) : plug (⟨!d, c, a, x⟩ :: p) (branch (!d) k u s w) =
      plug p (branch d c x a (branch (!d) k u s w)) := by
  rw [plug, Frame.plug, branch_swap d]

variable {u w : Shape A} {s : A}

omit [DecidableEq A] in
theorem isRed_nephews {c k : Color} (h : Rep t (plug p (branch d c x a (branch (!d) k u s w)))) :
    (t.mem a).child (!d) = some s ∧ t.isRed ((t.mem s).child (!d)) = decide (u.color = .red) ∧
      t.isRed ((t.mem s).child d) = decide (w.color = .red) := by
  obtain ⟨-, -, hsi⟩ := h.branch
  obtain ⟨hs, -, -, hu, hw⟩ := repr_branch.mp hsi
  rw [Bool.not_not] at hw
  exact ⟨hs, hu.isRed_eq, hw.isRed_eq⟩

/-- What a round leaves: a balanced tree, or a black subtree in the parent's place that is short. -/
def Outcome (f : Frame A) (p : Path A) (x : Shape A) (n : ℕ) (T : Shape A) : Bool → Prop
  | false => ∃ m, T.Bal m
  | true => f.color = .black ∧ ∃ y, T = plug p (branch f.dir .black x f.a y) ∧ (branch f.dir .black x f.a y).Bal (n + 1)

def Repairs (t : Ds A K) (f : Frame A) (p : Path A) (x : Shape A) (n : ℕ) (r : Option (Ds A K × Bool)) : Prop :=
  ∃ t' more T', r = some (t', more) ∧ Reshapes t t' (plug (f :: p) x) T' ∧ Outcome f p x n T' more

variable {n : ℕ}

section Sibling

variable (h : Rep t (plug p (branch d c x a (branch (!d) .black u s w)))) (hx : x.Bal n) (hu : u.Bal n) (hw : w.Bal n)
  (hp : Ctx p c (n + 1 + c.weight))

include h hx hu hw hp

theorem repairSibling_recolor (hub : u.color = .black) (hwb : w.color = .black) :
    Repairs t ⟨d, c, a, branch (!d) .black u s w⟩ p x n (repairSibling t a d) := by
  obtain ⟨hs, hru, hrw⟩ := isRed_nephews h
  have hc : (!t.isRed ((t.mem s).child false) && !t.isRed ((t.mem s).child true)) = true := by
    cases d <;> simp_all
  have h₁ := setProp_spec (plug_nephews p d c .black x a u s w ▸ h) .red
  rw [plug_nephews, plug_nephews] at h₁
  have hr : (branch (!d) .red u s w).Bal n := bal_branch.mpr ⟨fun _ => ⟨hub, hwb⟩, n, rfl, hu, hw⟩
  have hn : (t.setProp s .red).isRed (some a) = decide (c = .red) := by
    change decide (((t.setProp s .red).mem a).prop = .red) = _
    rw [h₁.rep.branch.1]
  have hst : repairSibling t a d = if (t.setProp s .red).isRed (some a) then
      some ((t.setProp s .red).setProp a .black, false) else some (t.setProp s .red, true) := by
    rw [repairSibling, hs]
    simp [hc]
  have hb : (branch d .black x a (branch (!d) .red u s w)).Bal (n + 1) := bal_branch.mpr ⟨nofun, n, rfl, hx, hr⟩
  rw [hst, hn]
  cases c with
  | red =>
    have h₂ := setProp_spec h₁.rep .black
    obtain ⟨m, hm⟩ := bal_plug (p := p) hb (by rw [color_branch]; exact hp.black)
    exact ⟨_, false, _, if_pos (by simp), h₁.trans h₂, m, hm⟩
  | black => exact ⟨_, true, _, if_neg (by simp), h₁, rfl, _, rfl, hb⟩

theorem repairSibling_single (hur : u.color = .red) :
    Repairs t ⟨d, c, a, branch (!d) .black u s w⟩ p x n (repairSibling t a d) := by
  obtain ⟨hs, hru, -⟩ := isRed_nephews h
  have hpr := h.branch.1
  have hc : ¬ (!t.isRed ((t.mem s).child false) && !t.isRed ((t.mem s).child true)) = true := by
    cases d <;> simp_all
  have hr := h
  rw [branch_swap d] at hr
  obtain ⟨t₁, hro, h₁⟩ := rbtRotate_spec hr
  obtain ⟨t₂, hpa, h₂⟩ := repaint_spec h₁.rep (by rintro rfl; cases hur) (by cases d <;> exact nofun) c
  rw [paint_branch] at h₂
  have ho : (u.paint .black).Bal (n + 1) := bal_paint_red hu hur
  have hin : (branch (!d) .black w a x).Bal (n + 1) := bal_branch.mpr ⟨nofun, n, rfl, hw, hx⟩
  have ht : (branch (!d) c (u.paint .black) s (branch (!d) .black w a x)).Bal (n + 1 + c.weight) :=
    bal_branch.mpr ⟨fun _ => ⟨by cases u <;> rfl, color_branch ..⟩, _, rfl, ho, hin⟩
  refine ⟨t₂, false, _, ?_, ?_, bal_plug (p := p) ht (by rw [color_branch]; exact hp)⟩
  · rw [repairSibling, hs]
    simp [hc, hru, hur, hro, hpr, hpa]
  · rw [plug, Frame.plug, branch_swap d]
    exact h₁.trans h₂

theorem repairSibling_double (hub : u.color = .black) (hwr : w.color = .red) :
    Repairs t ⟨d, c, a, branch (!d) .black u s w⟩ p x n (repairSibling t a d) := by
  obtain ⟨hs, hru, hrw⟩ := isRed_nephews h
  have hpr := h.branch.1
  have hc : ¬ (!t.isRed ((t.mem s).child false) && !t.isRed ((t.mem s).child true)) = true := by
    cases d <;> simp_all
  obtain ⟨y, e, z, rfl⟩ : ∃ y e z, w = branch d .red y e z := by
    cases w with
    | nil => cases hwr
    | node k l e r =>
      cases (hwr : k = .red)
      obtain ⟨y, z, hyz⟩ := node_eq_branch d .red l e r
      exact ⟨y, e, z, hyz⟩
  obtain ⟨-, m, hm, hy, hz⟩ := bal_branch.mp hw
  obtain rfl : m = n := hm.symm
  have hsh : branch d c x a (branch (!d) .black u s (branch d .red y e z)) =
      branch (!d) c (branch (!!d) .black (branch (!!d) .red y e z) s u) a x := by
    rw [branch_swap d, branch_swap (!d) .black, Bool.not_not]
  have hr := h
  rw [hsh] at hr
  obtain ⟨t₁, hro, h₁⟩ := rbtRotateDouble_spec hr
  obtain ⟨t₂, hpa, h₂⟩ := repaint_spec h₁.rep (by cases d <;> exact nofun) (by cases d <;> exact nofun) c
  rw [paint_branch, paint_branch] at h₂
  have ho : (branch (!!d) .black z s u).Bal (m + 1) := bal_branch.mpr ⟨nofun, m, rfl, hz, hu⟩
  have hin : (branch (!d) .black y a x).Bal (m + 1) := bal_branch.mpr ⟨nofun, m, rfl, hy, hx⟩
  have ht : (branch (!d) c (branch (!!d) .black z s u) e (branch (!d) .black y a x)).Bal (m + 1 + c.weight) :=
    bal_branch.mpr ⟨fun _ => ⟨color_branch .., color_branch ..⟩, _, rfl, ho, hin⟩
  refine ⟨t₂, false, _, ?_, ?_, bal_plug (p := p) ht (by rw [color_branch]; exact hp)⟩
  · rw [hub] at hru
    rw [repairSibling, hs]
    simp [hc, hru, hro, hpr, hpa]
  · rw [plug, Frame.plug, hsh]
    exact h₁.trans h₂

end Sibling

omit [DecidableEq A] in
theorem exists_sibling {y : Shape A} (h : y.Bal (n + 1)) (d : Bool) : ∃ c u s w, y = branch d c u s w := by
  cases y with
  | nil => cases h
  | node c l s r =>
    obtain ⟨u, w, huw⟩ := node_eq_branch d c l s r
    exact ⟨c, u, s, w, huw⟩

theorem repairSibling_spec {f : Frame A} (h : Rep t (plug (f :: p) x)) (hx : x.Bal n)
    (hp : Ctx (f :: p) .black (n + 1)) (hs : f.sib.color = .black) :
    Repairs t f p x n (repairSibling t f.a f.dir) := by
  obtain ⟨d, c, a, y⟩ := f
  obtain ⟨-, hy, hp⟩ := hp
  obtain ⟨k, u, s, w, rfl⟩ := exists_sibling hy (!d)
  obtain rfl : k = .black := (color_branch ..).symm.trans hs
  obtain ⟨-, m, hm, hu, hw⟩ := bal_branch.mp hy
  obtain rfl : n = m := Nat.succ.inj hm
  by_cases hur : u.color = .red
  · exact repairSibling_single h hx hu hw hp hur
  · by_cases hwr : w.color = .red
    · exact repairSibling_double h hx hu hw hp (Color.eq_black hur) hwr
    · exact repairSibling_recolor h hx hu hw hp (Color.eq_black hur) (Color.eq_black hwr)

theorem removeRebalance_spec {f : Frame A} (h : Rep t (plug (f :: p) x)) (hx : x.Bal n)
    (hp : Ctx (f :: p) .black (n + 1)) : Repairs t f p x n (removeRebalance t f.a f.dir) := by
  obtain ⟨-, -, hsi⟩ := Rep.branch (p := p) (d := f.dir) h
  have hr := hsi.isRed_eq
  by_cases hs : f.sib.color = .red
  · -- after the rotation the parent is red, and the new sibling is black
    obtain ⟨d, c, a, y⟩ := f
    obtain ⟨hc, hy, hp⟩ := hp
    obtain ⟨k, u, s, w, rfl⟩ := exists_sibling hy (!d)
    obtain rfl : k = .red := (color_branch ..).symm.trans hs
    obtain rfl : c = .black := Color.eq_black fun hcr => by
      have := (hc hcr).2
      rw [hs] at this
      cases this
    obtain ⟨hub, m, hm, hu, hw⟩ := bal_branch.mp hy
    obtain rfl : n + 1 = m := hm
    have hrep : Rep t (plug p (branch (!d) .black (branch (!d) .red u s w) a x)) := by
      rw [← branch_swap d]
      exact h
    obtain ⟨t₁, hro, h₁⟩ := rbtRotate_spec hrep
    have hf : plug p (branch (!d) .black u s (branch (!d) .red w a x)) =
        plug (⟨d, .red, a, w⟩ :: ⟨d, .black, s, u⟩ :: p) x := by
      rw [plug, plug, Frame.plug, Frame.plug, branch_swap d .black, branch_swap d .red]
    rw [hf] at h₁
    obtain ⟨t₂, more, T', heq, h₂, ho⟩ := repairSibling_spec h₁.rep hx
      ⟨fun _ => ⟨rfl, (hub rfl).2⟩, hw, fun h => (by cases h), hu, hp⟩ (hub rfl).2
    cases more with
    | true => cases ho.1
    | false =>
      refine ⟨t₂, false, T', ?_, ?_, ho⟩
      · rw [removeRebalance, hr]
        simp [hs, hro, heq]
      · rw [← branch_swap d] at h₁
        exact h₁.trans h₂
  · obtain ⟨t', more, T', heq, hre, ho⟩ := repairSibling_spec h hx hp (Color.eq_black hs)
    refine ⟨t', more, T', ?_, hre, ho⟩
    rw [removeRebalance, hr]
    simp [hs, heq]

/-! ## The loop -/

def base (p : Path A) : Option A := p.head?.map Frame.a

theorem removeLoop_none (fuel : ℕ) (t : Ds A K) (dir : Bool) : removeLoop fuel t none dir = some t := by
  cases fuel <;> rfl

theorem removeLoop_spec {dir : Bool} {fuel : ℕ} (h : Rep t (plug p x)) (hx : x.Bal n) (hp : Ctx p .black (n + 1))
    (hd : ∀ f p', p = f :: p' → dir = f.dir) (hf : p.length ≤ fuel) :
    ∃ t' T' m, removeLoop fuel t (base p) dir = some t' ∧ T'.Bal m ∧ Reshapes t t' (plug p x) T' := by
  induction p generalizing t x n dir fuel with
  | nil => exact ⟨t, x, n, removeLoop_none fuel t dir, hx, Reshapes.refl h⟩
  | cons f p ih =>
    obtain ⟨fuel, rfl⟩ : ∃ k, fuel = k + 1 := ⟨fuel - 1, by simp at hf; omega⟩
    obtain rfl : dir = f.dir := hd f p rfl
    change ∃ t' T' m, removeLoop (fuel + 1) t (some f.a) f.dir = some t' ∧ _
    obtain ⟨t₁, more, T₁, heq, h₁, ho⟩ := removeRebalance_spec h hx hp
    rw [removeLoop, heq]
    simp only [bind_eq_bind, bind_some]
    cases more with
    | false =>
      obtain ⟨m, hm⟩ := ho
      exact ⟨t₁, T₁, m, rfl, hm, h₁⟩
    | true =>
      obtain ⟨hc, y, rfl, hy⟩ := ho
      have hp' := hp.2.2
      rw [hc] at hp'
      obtain ⟨q, par, hct, hr, hn⟩ := h₁.rep.elim
      obtain ⟨rfl, hpa, -, -, -⟩ := repr_branch.mp hr
      rw [if_pos rfl, hpa]
      cases p with
      | nil =>
        obtain rfl : par = none := hct.2
        exact ⟨t₁, _, n + 1, rfl, hy, h₁⟩
      | cons g p =>
        obtain rfl : par = some g.a := hct.1
        have hs : t₁.side g.a f.a = g.dir := hct.side_eq fun hme =>
          (List.nodup_append.mp hn).2.2 f.a hme f.a (by simp) rfl
        obtain ⟨t', T', m, hl, hm, h₂⟩ : ∃ t' T' m, removeLoop fuel t₁ (base (g :: p))
            (t₁.side g.a f.a) = some t' ∧ T'.Bal m ∧ Reshapes t₁ t' _ T' :=
          ih h₁.rep hy hp' (fun e p' he => by cases he; exact hs) (by simpa using hf)
        exact ⟨t', T', m, hl, hm, h₁.trans h₂⟩

end OpenSync.DsTree
