import OpenSync.DsTree

/-!
# Pointer structures that represent a tree

`Rep t T` says that the pointers of `t` spell out the tree `T` of node addresses: colours, children,
parent pointers and no sharing. A subtree in a context is represented by a context with a hole
(`ReprCtx`) and a representation of the subtree, so that an operation on a subtree is verified once
and used in every context.
-/

namespace OpenSync.DsTree
open List Function RbTree RbTree.Shape

variable {A K : Type} [DecidableEq A]

section Fields

variable (n : Node A K) (c : Color) (q : Option A) (d : Bool)

omit [DecidableEq A]

@[simp] theorem key_setProp : (n.setProp c).key = n.key := rfl
@[simp] theorem prop_setProp : (n.setProp c).prop = c := rfl
@[simp] theorem parent_setProp : (n.setProp c).parent = n.parent := rfl
@[simp] theorem child_setProp : (n.setProp c).child = n.child := rfl
@[simp] theorem key_setParent : (n.setParent q).key = n.key := rfl
@[simp] theorem prop_setParent : (n.setParent q).prop = n.prop := rfl
@[simp] theorem parent_setParent : (n.setParent q).parent = q := rfl
@[simp] theorem child_setParent : (n.setParent q).child = n.child := rfl
@[simp] theorem key_setChild : (n.setChild d q).key = n.key := rfl
@[simp] theorem prop_setChild : (n.setChild d q).prop = n.prop := rfl
@[simp] theorem parent_setChild : (n.setChild d q).parent = n.parent := rfl
@[simp] theorem child_setChild : (n.setChild d q).child d = q := update_self ..

@[simp] theorem child_setChild_not : (n.setChild d q).child (!d) = n.child (!d) := update_of_ne (by simp) ..

@[simp] theorem child_not_setChild : (n.setChild (!d) q).child d = n.child d := update_of_ne (by simp) ..

end Fields

section Memory

variable (t : Ds A K) (a b : A)

@[simp] theorem setNode_mem (n : Node A K) : (t.setNode a n).mem b = if b = a then n else t.mem b := update_apply ..

theorem setProp_mem (c : Color) : (t.setProp a c).mem b = if b = a then (t.mem b).setProp c else t.mem b := by
  rw [Ds.setProp, setNode_mem]
  split_ifs with h
  · rw [h]
  · rfl

theorem setParent_mem (p : Option A) : (t.setParent a p).mem b = if b = a then (t.mem b).setParent p else t.mem b := by
  rw [Ds.setParent, setNode_mem]
  split_ifs with h
  · rw [h]
  · rfl

theorem setChild_mem (d : Bool) (p : Option A) :
    (t.setChild a d p).mem b = if b = a then (t.mem b).setChild d p else t.mem b := by
  rw [Ds.setChild, setNode_mem]
  split_ifs with h
  · rw [h]
  · rfl

theorem setParentOpt_mem (p par : Option A) :
    (t.setParentOpt p par).mem b = if p = some b then (t.mem b).setParent par else t.mem b := by
  cases p with
  | none => rw [if_neg nofun]; rfl
  | some a =>
    rw [Ds.setParentOpt, setParent_mem]
    exact if_congr ⟨fun h => h ▸ rfl, fun h => (Option.some.inj h).symm⟩ rfl rfl

@[simp] theorem setNode_root (n : Node A K) : (t.setNode a n).root = t.root := rfl
@[simp] theorem setProp_root (c : Color) : (t.setProp a c).root = t.root := rfl
@[simp] theorem setParent_root (p : Option A) : (t.setParent a p).root = t.root := rfl
@[simp] theorem setChild_root (d : Bool) (p : Option A) : (t.setChild a d p).root = t.root := rfl

@[simp] theorem setParentOpt_root (p par : Option A) : (t.setParentOpt p par).root = t.root := by
  cases p <;> rfl

end Memory

/-- The pointer `p` is the root of `T`, and the parent pointer there is `par`. -/
def Repr (m : A → Node A K) : Shape A → Option A → Option A → Prop
  | .nil, p, _ => p = none
  | .node c l a r, p, par => p = some a ∧ (m a).parent = par ∧ (m a).prop = c ∧
      Repr m l ((m a).child false) (some a) ∧ Repr m r ((m a).child true) (some a)

def Rep (t : Ds A K) (T : Shape A) : Prop := Repr t.mem T t.root none ∧ T.toList.Nodup

variable {m : A → Node A K} {x y : Shape A}

omit [DecidableEq A] in
theorem repr_branch {d : Bool} {c : Color} {a : A} {p par : Option A} :
    Repr m (branch d c x a y) p par ↔ p = some a ∧ (m a).parent = par ∧ (m a).prop = c ∧
      Repr m x ((m a).child d) (some a) ∧ Repr m y ((m a).child (!d)) (some a) := by
  cases d with
  | false => exact Iff.rfl
  | true =>
    refine and_congr Iff.rfl (and_congr Iff.rfl (and_congr Iff.rfl ?_))
    exact and_comm

variable {T : Shape A}

omit [DecidableEq A] in
theorem Repr.congr {m m' : A → Node A K} {p par : Option A} (h : Repr m T p par)
    (hm : ∀ b ∈ T.toList, m' b = m b) : Repr m' T p par := by
  induction T generalizing p par with
  | nil => exact h
  | node c l a r ihl ihr =>
    obtain ⟨hp, hpa, hc, hl, hr⟩ := h
    have ha := hm a (by simp [toList])
    refine ⟨hp, by rw [ha, hpa], by rw [ha, hc], ?_, ?_⟩
    · rw [ha]
      exact ihl hl fun b hb => hm b (by simp [toList, hb])
    · rw [ha]
      exact ihr hr fun b hb => hm b (by simp [toList, hb])

variable {par : Option A}

omit [DecidableEq A] in
theorem Repr.mem_root {a : A} (h : Repr m T (some a) par) : a ∈ T.toList := by
  cases T with
  | nil => cases h
  | node c l b r =>
    cases h.1
    simp [toList]

variable {t : Ds A K}

omit [DecidableEq A] in
theorem Repr.isRed_eq {p par : Option A} (h : Repr t.mem T p par) : t.isRed p = decide (T.color = .red) := by
  cases T with
  | nil => rw [show p = none from h]; rfl
  | node c l b r =>
    obtain ⟨rfl, -, hc, -, -⟩ := h
    change decide ((t.mem b).prop = .red) = decide (c = .red)
    rw [hc]

theorem Repr.reparent {m m' : A → Node A K} {p par par' : Option A} (h : Repr m T p par) (hn : T.toList.Nodup)
    (hm : ∀ b ∈ T.toList, m' b = if p = some b then (m b).setParent par' else m b) : Repr m' T p par' := by
  cases T with
  | nil => exact h
  | node c l a r =>
    obtain ⟨rfl, -, hc, hl, hr⟩ := h
    have ha := hm a (by simp [toList])
    rw [if_pos rfl] at ha
    rw [toList, nodup_append, nodup_cons] at hn
    have ho (b : A) (hb : b ∈ l.toList ∨ b ∈ r.toList) : m' b = m b := by
      have hne : a ≠ b := by
        rintro rfl
        rcases hb with hb | hb
        · exact hn.2.2 a hb a mem_cons_self rfl
        · exact hn.2.1.1 hb
      rw [hm b (by simp [toList]; tauto), if_neg fun he => hne (Option.some.inj he)]
    refine ⟨rfl, by rw [ha, parent_setParent], by rw [ha, prop_setParent, hc], ?_, ?_⟩
    · rw [ha, child_setParent]
      exact hl.congr fun b hb => ho b (.inl hb)
    · rw [ha, child_setParent]
      exact hr.congr fun b hb => ho b (.inr hb)

/-! ## Contexts -/

def nodes (p : Path A) : List A := p.flatMap fun f => f.a :: f.sib.toList

omit [DecidableEq A] in
@[simp] theorem nodes_cons (f : Frame A) (p : Path A) : nodes (f :: p) = f.a :: f.sib.toList ++ nodes p := rfl

omit [DecidableEq A] in
theorem toList_plug_perm (p : Path A) (T : Shape A) : (plug p T).toList.Perm (nodes p ++ T.toList) := by
  induction p generalizing T with
  | nil => exact Perm.refl _
  | cons f p ih =>
    refine (ih (f.plug T)).trans ?_
    have hb : (f.plug T).toList.Perm (f.a :: (f.sib.toList ++ T.toList)) :=
      (toList_branch_perm ..).trans (perm_append_comm.cons f.a)
    refine (hb.append_left (nodes p)).trans ?_
    simpa using perm_append_comm_assoc (nodes p) (f.a :: f.sib.toList) T.toList

variable {p : Path A}

omit [DecidableEq A] in
theorem not_mem_plug {d : Bool} {c : Color} {a : A} {b : A} :
    b ∉ (plug p (branch d c x a y)).toList ↔ b ∉ nodes p ∧ b ≠ a ∧ b ∉ x.toList ∧ b ∉ y.toList := by
  rw [(toList_plug_perm ..).mem_iff, mem_append, mem_toList_branch, not_or, not_or, not_or]

/-- The pointers of a context whose hole holds the pointer `q`, with parent pointer `par`. -/
def ReprCtx (m : A → Node A K) (root : Option A) : Path A → Option A → Option A → Prop
  | [], q, par => q = root ∧ par = none
  | f :: p, q, par => par = some f.a ∧ (m f.a).child f.dir = q ∧ (m f.a).prop = f.color ∧
      Repr m f.sib ((m f.a).child (!f.dir)) (some f.a) ∧
      ReprCtx m root p (some f.a) (m f.a).parent

omit [DecidableEq A] in
theorem repr_plug {root : Option A} :
    Repr m (plug p T) root none ↔ ∃ q par, ReprCtx m root p q par ∧ Repr m T q par := by
  induction p generalizing T with
  | nil =>
    constructor
    · intro h
      exact ⟨root, none, ⟨rfl, rfl⟩, h⟩
    · rintro ⟨q, par, ⟨rfl, rfl⟩, h⟩
      exact h
  | cons f p ih =>
    rw [plug, ih]
    constructor
    · rintro ⟨q, par, hct, hr⟩
      obtain ⟨rfl, rfl, hc, hT, hs⟩ := repr_branch.mp hr
      exact ⟨_, _, ⟨rfl, rfl, hc, hs, hct⟩, hT⟩
    · rintro ⟨q, par, ⟨rfl, rfl, hc, hs, hct⟩, hT⟩
      exact ⟨_, _, hct, repr_branch.mpr ⟨rfl, rfl, hc, hT, hs⟩⟩

omit [DecidableEq A] in
theorem ReprCtx.congr {m m' : A → Node A K} {root : Option A} {q par : Option A}
    (h : ReprCtx m root p q par) (hm : ∀ b ∈ nodes p, m' b = m b) : ReprCtx m' root p q par := by
  induction p generalizing q par with
  | nil => exact h
  | cons f p ih =>
    obtain ⟨hp, hq, hc, hs, hct⟩ := h
    have hf := hm f.a (by simp)
    refine ⟨hp, by rw [hf, hq], by rw [hf, hc], ?_, ?_⟩
    · rw [hf]
      exact hs.congr fun b hb => hm b (by simp [hb])
    · rw [hf]
      exact ih hct fun b hb => hm b (by simp [hb])

omit [DecidableEq A] in
theorem Rep.elim (h : Rep t (plug p T)) :
    ∃ q par, ReprCtx t.mem t.root p q par ∧ Repr t.mem T q par ∧ (nodes p ++ T.toList).Nodup := by
  obtain ⟨q, par, hc, hr⟩ := repr_plug.mp h.1
  exact ⟨q, par, hc, hr, (toList_plug_perm p T).nodup_iff.mp h.2⟩

omit [DecidableEq A] in
theorem Rep.branch {d : Bool} {c : Color} {a : A} (h : Rep t (plug p (branch d c x a y))) :
    (t.mem a).prop = c ∧ Repr t.mem x ((t.mem a).child d) (some a) ∧ Repr t.mem y ((t.mem a).child (!d)) (some a) := by
  obtain ⟨q, par, -, hr, -⟩ := h.elim
  exact (repr_branch.mp hr).2.2

omit [DecidableEq A] in
theorem rep_plug {q r : Option A} (hc : ReprCtx t.mem t.root p q r) (hr : Repr t.mem T q r)
    (hn : (nodes p ++ T.toList).Nodup) : Rep t (plug p T) :=
  ⟨repr_plug.mpr ⟨q, r, hc, hr⟩, (toList_plug_perm p T).nodup_iff.mpr hn⟩

theorem ReprCtx.side_eq {f : Frame A} {a : A}
    (h : ReprCtx t.mem t.root (f :: p) (some a) par) (ha : a ∉ nodes (f :: p)) : t.side f.a a = f.dir := by
  obtain ⟨-, hq, -, hs, -⟩ := h
  rw [nodes_cons, cons_append, mem_cons, mem_append, not_or, not_or] at ha
  rw [Ds.side]
  cases hd : f.dir with
  | true =>
    rw [hd] at hq
    simp [hq]
  | false =>
    rw [hd, Bool.not_false] at hs
    refine decide_eq_false fun he => ha.2.1 ?_
    rw [he] at hs
    exact hs.mem_root

theorem ReprCtx.relink {old : A}
    (h : ReprCtx t.mem t.root p (some old) par) (ho : old ∉ nodes p) (hn : (nodes p).Nodup) (new : Option A) :
    ReprCtx (t.relink par old new).mem (t.relink par old new).root p new par ∧
      (∀ b ∉ nodes p, (t.relink par old new).mem b = t.mem b) ∧
      ∀ b, ((t.relink par old new).mem b).key = (t.mem b).key := by
  cases p with
  | nil =>
    obtain ⟨-, rfl⟩ := h
    exact ⟨⟨rfl, rfl⟩, fun _ _ => rfl, fun _ => rfl⟩
  | cons f p =>
    obtain ⟨rfl, hq, hc, hsib, hct⟩ := h
    rw [nodes_cons, cons_append, nodup_cons, mem_append, not_or] at hn
    have hsi := ReprCtx.side_eq ⟨rfl, hq, hc, hsib, hct⟩ (by simpa using ho)
    have hm (b : A) : (t.relink (some f.a) old new).mem b = if b = f.a then
        (t.mem b).setChild f.dir new else t.mem b := by
      rw [Ds.relink, hsi, setChild_mem]
    have hsa (b : A) (hb : b ∈ f.sib.toList ∨ b ∈ nodes p) :
        (t.relink (some f.a) old new).mem b = t.mem b := by
      rw [hm, if_neg]
      rintro rfl
      tauto
    have hs := hm f.a
    rw [if_pos rfl] at hs
    refine ⟨⟨rfl, ?_, ?_, ?_, ?_⟩, fun b hb => ?_, fun b => ?_⟩
    · rw [hs, child_setChild]
    · rw [hs, prop_setChild, hc]
    · rw [hs, child_setChild_not]
      exact hsib.congr fun b hb => hsa b (.inl hb)
    · rw [hs, parent_setChild]
      exact hct.congr fun b hb => hsa b (.inr hb)
    · rw [hm, if_neg]
      rintro rfl
      simp at hb
    · rw [hm]
      split_ifs <;> rfl

end OpenSync.DsTree
