import OpenSync.DsTreeRotate

/-!
# Insertion

The loop of `ds_tree_node_insert` walks down, flips colours and rotates on its way. `Inv` is what
holds at its head: the tree is balanced, a red node has a sibling that is not red, and a node that is
about to be flipped under a red parent has a grandparent whose other child is not red. The last two
are what the rotations need, and the reason that the grandparent is never missing.
-/

namespace OpenSync.DsTree
open List RbTree RbTree.Shape

variable {A K : Type} [DecidableEq A]

/-! ## Flipping colours -/

variable {p : Path A} {t : Ds A K} {d : Bool} {x : Shape A} {c : Color} {a : A} {y : Shape A}

section

variable (h : Rep t (plug p (branch d c x a y)))
include h

omit [DecidableEq A] in
theorem isRed_children :
    (t.isRed ((t.mem a).child false) && t.isRed ((t.mem a).child true)) = true ↔ x.color = .red ∧ y.color = .red := by
  obtain ⟨-, hx, hy⟩ := h.branch
  cases d with
  | false =>
    rw [hx.isRed_eq, hy.isRed_eq (p := (t.mem a).child true)]
    simp
  | true =>
    rw [hx.isRed_eq, hy.isRed_eq (p := (t.mem a).child false)]
    simp [and_comm]

theorem flipColors_eq_self
    (hc : ¬ (x.color = .red ∧ y.color = .red)) : flipColors t a = some t := by
  rw [flipColors, if_neg fun hr => hc ((isRed_children h).mp hr)]

theorem flipColors_flip (hx : x.color = .red) (hy : y.color = .red) :
    ∃ t', flipColors t a = some t' ∧ Reshapes t t' (plug p (branch d c x a y))
      (plug p (branch d .red (x.paint .black) a (y.paint .black))) := by
  have hr := (isRed_children h).mpr ⟨hx, hy⟩
  have h₁ := setProp_spec h .red
  obtain ⟨b₀, b₁, hb₀, hb₁, h₂⟩ := paintChildren_spec h₁.rep (by rintro rfl; cases hx) (by rintro rfl; cases hy)
  refine ⟨_, ?_, h₁.trans h₂⟩
  rw [flipColors, if_pos hr]
  simp [hb₀, hb₁]

end

/-! ## Fixing a red violation -/

theorem insertRebalance_eq_self (h : Rep t (plug p (branch d c x a y)))
    (hc : ∀ f p', p = f :: p' → c = .red → f.color = .black) : insertRebalance t a = some t := by
  obtain ⟨q, par, hct, hr, -⟩ := h.elim
  have hre := hr.isRed_eq
  obtain ⟨rfl, hp, -, -, -⟩ := repr_branch.mp hr
  rw [insertRebalance, if_neg]
  rw [Bool.and_eq_true, not_and, hre, hp, color_branch, decide_eq_true_iff, Bool.not_eq_true]
  intro hco
  cases p with
  | nil =>
    rw [hct.2]
    rfl
  | cons f p =>
    obtain ⟨rfl, -, hf, -, -⟩ := hct
    simp [Ds.isRed, hf, hc f p rfl hco]

variable {f g : Frame A}

theorem insertRebalance_red (h : Rep t (plug (f :: g :: p) (branch d .red x a y))) (hf : f.color = .red) :
    insertRebalance t a = if g.dir = f.dir then (rbtRotate t g.a g.dir).map Prod.fst
      else (rbtRotateDouble t g.a g.dir).map Prod.fst := by
  obtain ⟨q, par, hct, hr, hn⟩ := h.elim
  obtain ⟨-, -, hd⟩ := nodup_append.mp hn
  have hre := hr.isRed_eq
  obtain ⟨rfl, hp, -, -, -⟩ := repr_branch.mp hr
  have ha : a ∉ nodes (f :: g :: p) := fun hm => hd a hm a (by simp) rfl
  have hs := hct.side_eq ha
  obtain ⟨rfl, -, hfc, -, hc'⟩ := hct
  have hfa : f.a ∉ nodes (g :: p) := by
    have hnp := (nodup_append.mp hn).1
    rw [nodes_cons, cons_append, nodup_cons] at hnp
    exact fun hm => hnp.1 (mem_append_right _ hm)
  have hs' := hc'.side_eq hfa
  obtain ⟨hp', -⟩ := hc'
  have hc : (t.isRed (some a) && t.isRed (t.mem a).parent) = true := by
    rw [hre, hp]
    simp [Ds.isRed, hfc, hf]
  rw [insertRebalance, if_pos hc, hp]
  simp [hp', hs, hs']

theorem insertRebalance_straight (h : Rep t (plug (f :: g :: p) (branch d .red x a y)))
    (hf : f.color = .red) (hd : f.dir = g.dir) :
    ∃ t', insertRebalance t a = some t' ∧ Reshapes t t' (plug (f :: g :: p) (branch d .red x a y))
        (plug (⟨g.dir, .black, f.a, branch g.dir .red f.sib g.a g.sib⟩ :: p) (branch d .red x a y)) := by
  have heq : plug (f :: g :: p) (branch d .red x a y) =
      plug p (branch g.dir g.color (branch g.dir f.color (branch d .red x a y) f.a f.sib) g.a
        g.sib) := by
    rw [plug, plug, Frame.plug, Frame.plug, hd]
  obtain ⟨t', hr, hre⟩ := rbtRotate_spec (heq ▸ h)
  refine ⟨t', ?_, heq ▸ hre⟩
  rw [insertRebalance_red h hf, if_pos hd.symm, hr]
  rfl

theorem insertRebalance_twisted (h : Rep t (plug (f :: g :: p) (branch g.dir .red x a y))) (hf : f.color = .red)
    (hd : f.dir = !g.dir) :
    ∃ t', insertRebalance t a = some t' ∧ Reshapes t t' (plug (f :: g :: p) (branch g.dir .red x a y))
        (plug p (branch g.dir .black (branch f.dir .red x f.a f.sib) a
          (branch g.dir .red y g.a g.sib))) := by
  have heq : plug (f :: g :: p) (branch g.dir .red x a y) =
      plug p (branch g.dir g.color (branch (!g.dir) f.color (branch (!g.dir) .red y a x) f.a f.sib)
        g.a g.sib) := by
    rw [plug, plug, Frame.plug, Frame.plug, hd, branch_swap g.dir .red]
  obtain ⟨t', hr, hre⟩ := rbtRotateDouble_spec (heq ▸ h)
  refine ⟨t', ?_, by rw [heq, hd]; exact hre⟩
  rw [insertRebalance_red h hf, if_neg (by simp [hd]), hr]
  rfl

/-! ## The loop -/

variable (cmp : K → K → ℤ)

/-- The path goes the way the key does at each of its nodes. -/
def Descends (t : Ds A K) (key : K) (p : Path A) : Prop := ∀ f ∈ p, f.dir = dirOf cmp t f.a key

def SibBlack : Path A → Prop
  | [] => False
  | f :: _ => f.sib.color = .black

/-- What holds at the head of the loop for the subtree `T` at `base`. -/
structure Inv (p : Path A) (T : Shape A) (n : ℕ) : Prop where
  bal : T.Bal n
  ctx : Ctx p T.color n
  red : T.color = .red → SibBlack p
  flip : ∀ d c x a y, T = branch d c x a y → x.color = .red → y.color = .red →
    ∀ f p', p = f :: p' → f.color = .red → SibBlack p'

/-- A red parent `f` with its black parent `g`, on a level with black height `n`, where neither the
sibling nor the uncle is red. -/
structure RedParent (f g : Frame A) (p : Path A) (n : ℕ) : Prop where
  sib : f.sib.Bal n
  sibBlack : f.sib.color = .black
  uncle : g.sib.Bal n
  uncleBlack : g.sib.color = .black
  ctx : Ctx p .black (n + 1)

variable {n : ℕ}

omit [DecidableEq A] in
theorem exists_redParent (h : Ctx (f :: p) c n)
    (hf : f.color = .red) (hs : SibBlack p) : ∃ g p', p = g :: p' ∧ RedParent f g p' n := by
  cases p with
  | nil => exact hs.elim
  | cons g p =>
    obtain ⟨hfc, hsi, hc⟩ := h
    rw [hf] at hc
    obtain ⟨hgc, hu, hc⟩ := hc
    have hg : g.color = .black := Color.eq_black fun hr => nomatch (hgc hr).1
    rw [hg] at hc
    exact ⟨g, p, rfl, hsi, (hfc hf).2, hu, hs, hc⟩

omit [DecidableEq A] in
theorem RedParent.lowered (h : RedParent f g p n) (d : Bool) : (branch d .red f.sib g.a g.sib).Bal n :=
  bal_branch.mpr ⟨fun _ => ⟨h.sibBlack, h.uncleBlack⟩, n, rfl, h.sib, h.uncle⟩

omit [DecidableEq A] in
theorem RedParent.straight (h : RedParent f g p n) (c : Color) :
    Ctx (⟨g.dir, .black, f.a, branch g.dir .red f.sib g.a g.sib⟩ :: p) c n :=
  ⟨nofun, h.lowered g.dir, h.ctx⟩

omit [DecidableEq A] in
theorem Ctx.red (h : Ctx p c n) (hp : ∀ f p', p = f :: p' → f.color = .black) : Ctx p .red n := by
  cases p with
  | nil => trivial
  | cons f p =>
    refine ⟨fun hf => ?_, h.2⟩
    rw [hp f p rfl] at hf
    cases hf

omit [DecidableEq A] in
theorem Inv.child (h : Inv p (branch d c x a y) n) (hc : ¬ (x.color = .red ∧ y.color = .red)) :
    ∃ m, Inv (⟨d, c, a, y⟩ :: p) x m := by
  obtain ⟨hco, m, rfl, hx, hy⟩ := bal_branch.mp h.bal
  have hct := h.ctx
  rw [color_branch] at hct
  refine ⟨m, hx, ⟨hco, hy, hct⟩, fun hr => Color.eq_black fun hyr => hc ⟨hr, hyr⟩, ?_⟩
  rintro d' c' x' a' y' - - - f p' hp hf
  cases hp
  exact h.red (by rw [color_branch]; exact hf)

omit [DecidableEq A] in
theorem inv_paint {q : Path A} {m : ℕ} (hx : x.Bal m) (hre : x.color = .red)
    (hq : Ctx q .black (m + 1)) : Inv q (x.paint .black) (m + 1) := by
  cases x with
  | nil => cases hre
  | node c l b r =>
    obtain ⟨hc, k, rfl, hl, hr⟩ := hx
    obtain ⟨hlb, hrb⟩ := hc hre
    cases (hre : c = .red)
    refine ⟨⟨nofun, k, rfl, hl, hr⟩, hq, nofun, ?_⟩
    intro d' c' x' a' y' heq hx'
    cases d' with
    | false =>
      cases heq
      rw [hlb] at hx'
      cases hx'
    | true =>
      cases heq
      rw [hrb] at hx'
      cases hx'

variable {cmp}

omit [DecidableEq A] in
theorem dirOf_congr (cmp : K → K → ℤ) {t t' : Ds A K} (h : ∀ b, (t'.mem b).key = (t.mem b).key) (a : A) (key : K) :
    dirOf cmp t' a key = dirOf cmp t a key := by
  rw [dirOf, dirOf, h]

variable {key : K}

omit [DecidableEq A] in
theorem Descends.congr {t t' : Ds A K} (hd : Descends cmp t key p)
    (h : ∀ b, (t'.mem b).key = (t.mem b).key) : Descends cmp t' key p :=
  fun f hf => (hd f hf).trans (dirOf_congr cmp h f.a key).symm

/-- What one round of the loop at `a` does, towards its child `b`: the next node is `b`, or it is the
one that a double rotation has put between `a` and `b`. -/
structure Round (cmp : K → K → ℤ) (t t' : Ds A K) (key : K) (T : Shape A) (a : A) (d : Bool)
    (lx : Shape A) (b : A) (rx : Shape A) (q : Path A) (c : Color) (m : ℕ) : Prop where
  reshapes : Reshapes t t' T (plug q (node c lx b rx))
  inv : Inv q (node c lx b rx) m
  descends : Descends cmp t' key q
  next : (t'.mem a).child d = some b ∨ ∃ f g q', q = f :: g :: q' ∧ c = .black ∧
    g.color = .black ∧ (t'.mem a).child d = some f.a

omit [DecidableEq A] in
theorem Round.of_rep {t t' : Ds A K} {T : Shape A} {lx : Shape A} {b : A} {rx : Shape A} {q : Path A} {m : ℕ}
    (hre : Reshapes t t' T (plug (f :: g :: q) (node .black lx b rx))) (hin : Inv (f :: g :: q) (node .black lx b rx) m)
    (hde : Descends cmp t key (f :: g :: q)) (hg : g.color = .black) (ha : g.a = a)
    (hd : g.dir = d) : Round cmp t t' key T a d lx b rx (f :: g :: q) .black m := by
  refine ⟨hre, hin, hde.congr hre.key, .inr ⟨f, g, q, rfl, rfl, hg, ?_⟩⟩
  obtain ⟨-, hc, -⟩ := Rep.branch (p := q) (d := g.dir) (x := f.plug (node .black lx b rx)) hre.rep
  rw [ha, hd] at hc
  exact (repr_branch.mp hc).1

variable {lx rx : Shape A}

theorem insertRound_twisted {a b : A}
    (h : Rep t (plug (f :: g :: p) (branch (dirOf cmp t a key) .red (node .black lx b rx) a y)))
    (hx : ∀ q : Path A, Ctx q .black n → Inv q (node .black lx b rx) n)
    (hy : y.Bal n) (hyb : y.color = .black) (hf : f.color = .red) (hr : RedParent f g p n)
    (hde : Descends cmp t key (f :: g :: p)) (hdi : f.dir = !g.dir) :
    ∃ t' q m, insertRebalance t a = some t' ∧
      Round cmp t t' key (plug (f :: g :: p) (branch (dirOf cmp t a key) .red (node .black lx b rx) a
        y)) a (dirOf cmp t a key) lx b rx q .black m := by
  obtain ⟨hfd, hgd, hpd⟩ := forall_mem_cons.mp hde |>.imp_right forall_mem_cons.mp
  have hred {s : Shape A} (d : Bool) (e : A) {z : Shape A} (hs : s.Bal n) (hsb : s.color = .black)
      (hz : z.Bal n) (hzb : z.color = .black) : (branch d .red s e z).Bal n :=
    bal_branch.mpr ⟨fun _ => ⟨hsb, hzb⟩, n, rfl, hs, hz⟩
  rcases Bool.eq_or_eq_not (dirOf cmp t a key) g.dir with hd | hd
  · rw [hd] at h ⊢
    obtain ⟨t', heq, hre⟩ := insertRebalance_twisted h hf hdi
    refine ⟨t', ⟨f.dir, .red, f.a, f.sib⟩ :: ⟨g.dir, .black, a, branch g.dir .red y g.a g.sib⟩ :: p, n,
      heq, Round.of_rep hre (hx _ ?_) ?_ rfl rfl rfl⟩
    · exact ⟨fun _ => ⟨rfl, hr.sibBlack⟩, hr.sib, nofun, hred _ _ hy hyb hr.uncle hr.uncleBlack, hr.ctx⟩
    · exact forall_mem_cons.mpr ⟨hfd, forall_mem_cons.mpr ⟨hd.symm, hpd⟩⟩
  · rw [hd, ← branch_swap] at h ⊢
    obtain ⟨t', heq, hre⟩ := insertRebalance_twisted h hf hdi
    rw [branch_swap g.dir .black] at hre
    refine ⟨t', ⟨g.dir, .red, g.a, g.sib⟩ :: ⟨!g.dir, .black, a, branch f.dir .red y f.a f.sib⟩ :: p,
      n, heq, Round.of_rep hre (hx _ ?_) ?_ rfl rfl rfl⟩
    · exact ⟨fun _ => ⟨rfl, hr.uncleBlack⟩, hr.uncle, nofun, hred _ _ hy hyb hr.sib hr.sibBlack, hr.ctx⟩
    · exact forall_mem_cons.mpr ⟨hgd, forall_mem_cons.mpr ⟨hd.symm, hpd⟩⟩

theorem insertRound_flip {a b : A} (h : Rep t (plug p (branch (dirOf cmp t a key) .red (node .black lx b rx) a y)))
    (hx : ∀ q : Path A, Ctx q .black n → Inv q (node .black lx b rx) n)
    (hy : y.Bal n) (hyb : y.color = .black) (hp : Ctx p .black n)
    (hs : ∀ f p', p = f :: p' → f.color = .red → SibBlack p') (hde : Descends cmp t key p) :
    ∃ t' q m, insertRebalance t a = some t' ∧
      Round cmp t t' key (plug p (branch (dirOf cmp t a key) .red (node .black lx b rx) a y)) a
        (dirOf cmp t a key) lx b rx q .black m := by
  have hd' {q : Path A} {d : Bool} {c : Color} {z : Shape A} (hd : d = dirOf cmp t a key)
      (hq : Descends cmp t key q) : Descends cmp t key (⟨d, c, a, z⟩ :: q) :=
    forall_mem_cons.mpr ⟨hd, hq⟩
  by_cases hh : ∀ f p', p = f :: p' → f.color = .black
  · refine ⟨t, ⟨dirOf cmp t a key, .red, a, y⟩ :: p, n, insertRebalance_eq_self h
      fun f p' hpf _ => hh f p' hpf, Reshapes.refl h, hx _ ?_, hd' rfl hde,
      .inl h.branch.2.1.1⟩
    exact ⟨fun _ => ⟨rfl, hyb⟩, hy, Ctx.red hp hh⟩
  · push Not at hh
    obtain ⟨f, p', rfl, hf⟩ := hh
    have hfr : f.color = .red := by
      by_contra hc
      exact hf (Color.eq_black hc)
    obtain ⟨g, p, rfl, hr⟩ := exists_redParent hp hfr (hs f p' rfl hfr)
    rcases Bool.eq_or_eq_not f.dir g.dir with hd | hd
    · obtain ⟨t', heq, hre⟩ := insertRebalance_straight h hfr hd
      refine ⟨t', ⟨dirOf cmp t a key, .red, a, y⟩ ::
        ⟨g.dir, .black, f.a, branch g.dir .red f.sib g.a g.sib⟩ :: p, n, heq, hre,
        hx _ ⟨fun _ => ⟨rfl, hyb⟩, hy, hr.straight .red⟩, ?_, .inl hre.rep.branch.2.1.1⟩
      refine Descends.congr (hd' rfl (forall_mem_cons.mpr ⟨?_, ?_⟩)) hre.key
      · exact hd ▸ hde f mem_cons_self
      · exact fun e he => hde e (mem_cons_of_mem _ (mem_cons_of_mem _ he))
    · exact insertRound_twisted h hx hy hyb hfr hr hde hd

theorem insertRound {c cx : Color} {a b : A} (h : Rep t (plug p (branch (dirOf cmp t a key) c (node cx lx b rx) a y)))
    (hin : Inv p (branch (dirOf cmp t a key) c (node cx lx b rx) a y) n) (hde : Descends cmp t key p) :
    ∃ t₁ t' q c' m, flipColors t a = some t₁ ∧ insertRebalance t₁ a = some t' ∧
      Round cmp t t' key (plug p (branch (dirOf cmp t a key) c (node cx lx b rx) a y)) a
        (dirOf cmp t a key) lx b rx q c' m := by
  by_cases hf : (node cx lx b rx).color = .red ∧ y.color = .red
  · obtain ⟨hxr, hyr⟩ := hf
    obtain ⟨hco, k, rfl, hx, hy⟩ := bal_branch.mp hin.bal
    have hc : c = .black := Color.eq_black fun hre => by simp [(hco hre).1] at hxr
    have hct := hin.ctx
    rw [color_branch, hc] at hct
    obtain ⟨t₁, hf₁, hre₁⟩ := flipColors_flip h hxr hyr
    have hd := dirOf_congr cmp hre₁.key a key
    have hrep := hre₁.rep
    rw [← hd] at hrep
    obtain ⟨t', q, m, hreb, hr⟩ := insertRound_flip hrep (fun q hq => inv_paint hx hxr hq)
      (bal_paint_red hy hyr) (by cases y <;> rfl) hct
      (hin.flip _ _ _ _ _ rfl hxr hyr) (hde.congr hre₁.key)
    rw [hd] at hr
    exact ⟨t₁, t', q, .black, m, hf₁, hreb, hre₁.trans hr.reshapes, hr.inv, hr.descends, hr.next⟩
  · obtain ⟨m, hch⟩ := hin.child hf
    have hs : insertRebalance t a = some t := by
      refine insertRebalance_eq_self h fun f p' hpf hre => Color.eq_black fun hfr => ?_
      have hct := hin.ctx
      rw [color_branch, hpf, hre] at hct
      exact nomatch (hct.1 hfr).1
    exact ⟨t, t, ⟨dirOf cmp t a key, c, a, y⟩ :: p, cx, m, flipColors_eq_self h hf, hs,
      Reshapes.refl h, hch, forall_mem_cons.mpr ⟨rfl, hde⟩, .inl h.branch.2.1.1⟩

/-- Where the loop stops: at a node without a child in the direction of the key. -/
structure Landed (cmp : K → K → ℤ) (t t' : Ds A K) (key : K) (T : Shape A) (base : A) (dir : Bool)
    (p : Path A) (c : Color) (y : Shape A) (n : ℕ) : Prop where
  reshapes : Reshapes t t' T (plug p (branch dir c nil base y))
  inv : Inv p (branch dir c nil base y) n
  descends : Descends cmp t' key p
  dir : dir = dirOf cmp t' base key

omit [DecidableEq A] in
theorem length_branch (d : Bool) (c : Color) (x : Shape A) (a : A) (y : Shape A) :
    (branch d c x a y).toList.length = x.toList.length + y.toList.length + 1 := by
  rw [(toList_branch_perm d c x a y).length_eq, length_cons, length_append]

theorem insertLoop_spec (key : K) (fuel : ℕ) (h : Rep t (plug p (branch (dirOf cmp t a key) c x a y)))
    (hin : Inv p (branch (dirOf cmp t a key) c x a y) n) (hd : Descends cmp t key p)
    (hfu : 2 * x.toList.length < fuel) :
    ∃ t' base dir q c' y' m, insertLoop cmp key fuel t a (dirOf cmp t a key) = some (t', base, dir) ∧
      Landed cmp t t' key (plug p (branch (dirOf cmp t a key) c x a y)) base dir q c' y' m := by
  induction fuel using Nat.strong_induction_on generalizing t p c x a y n with
  | _ fuel ih =>
  obtain ⟨fuel, rfl⟩ : ∃ k, fuel = k + 1 := ⟨fuel - 1, by omega⟩
  cases x with
  | nil =>
    have hc : (t.mem a).child (dirOf cmp t a key) = none := h.branch.2.1
    refine ⟨t, a, _, p, c, y, n, ?_, Reshapes.refl h, hin, hd, rfl⟩
    rw [insertLoop, hc]
  | node cx lx b rx =>
    have hc : (t.mem a).child (dirOf cmp t a key) = some b := h.branch.2.1.1
    obtain ⟨t₁, t', q, c', m, hf, hreb, hr⟩ := insertRound h hin hd
    -- from the focus on `b` the loop goes on by induction
    obtain ⟨x', y', hb⟩ := node_eq_branch (dirOf cmp t' b key) c' lx b rx
    have hle : x'.toList.length < (node cx lx b rx).toList.length := by
      have hl := length_branch (dirOf cmp t' b key) c' x' b y'
      rw [← hb] at hl
      simp only [toList] at hl ⊢
      omega
    have hgo (k : ℕ) (hk : k < fuel + 1) (hk' : 2 * x'.toList.length < k) :
        ∃ t'' base dir q' c'' y'' m', insertLoop cmp key k t' b (dirOf cmp t' b key) = some (t'', base, dir) ∧
          Landed cmp t t'' key (plug p (branch (dirOf cmp t a key) c (node cx lx b rx) a y)) base dir
            q' c'' y'' m' := by
      obtain ⟨t'', base, dir, q', c'', y'', m', hlo, hla⟩ :=
        ih k hk (hb ▸ hr.reshapes.rep) (hb ▸ hr.inv) hr.descends hk'
      rw [← hb] at hla
      exact ⟨t'', base, dir, q', c'', y'', m', hlo, hr.reshapes.trans hla.reshapes, hla.inv, hla.descends, hla.dir⟩
    have hs : insertLoop cmp key (fuel + 1) t a (dirOf cmp t a key) =
        ((t'.mem a).child (dirOf cmp t a key)).bind fun base =>
          insertLoop cmp key fuel t' base (dirOf cmp t' base key) := by
      rw [insertLoop, hc]
      simp [hf, hreb]
    rw [hs]
    rcases hr.next with hn | ⟨f, g, q', rfl, rfl, hg, hn⟩
    · rw [hn]
      exact hgo fuel (by omega) (by omega)
    -- one more round, at the node that came in between, changes nothing
    obtain ⟨fuel, rfl⟩ : ∃ k, fuel = k + 1 := ⟨fuel - 1, by omega⟩
    have hfa : f.dir = dirOf cmp t' f.a key := hr.descends f mem_cons_self
    have hre : Rep t' (plug (g :: q') (branch (dirOf cmp t' f.a key) f.color (node .black lx b rx)
        f.a f.sib)) := hfa ▸ hr.reshapes.rep
    have hb' : (t'.mem f.a).child (dirOf cmp t' f.a key) = some b := hre.branch.2.1.1
    have hfl : flipColors t' f.a = some t' := flipColors_eq_self hre (by simp [color])
    have hse : insertRebalance t' f.a = some t' := insertRebalance_eq_self hre fun e p' he _ => by cases he; exact hg
    rw [hn, Option.bind_some, insertLoop, hb']
    simp only [Option.bind_eq_bind, hfl, hse, Option.bind_some, hb']
    exact hgo fuel (by omega) (by omega)

end OpenSync.DsTree
