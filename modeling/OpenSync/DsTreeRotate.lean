import OpenSync.DsTreeRepr

/-!
# Painting and rotating

The operations on pointers that keep the sequence of nodes: painting a node, the rotation and the
double rotation. Each is given by the subtree it turns into another one, in any context.
-/

namespace OpenSync.DsTree
open RbTree RbTree.Shape

variable {A K : Type} [DecidableEq A]

/-- The pointers are changed from `T` to another shape of the same sequence, and nothing outside of
it and no key is touched. -/
structure Reshapes (t t' : Ds A K) (T T' : Shape A) : Prop where
  rep : Rep t' T'
  list : T'.toList = T.toList
  key : ∀ b, (t'.mem b).key = (t.mem b).key
  frame : ∀ b ∉ T.toList, t'.mem b = t.mem b

variable {t : Ds A K}

omit [DecidableEq A] in
theorem Reshapes.refl {T : Shape A} (h : Rep t T) : Reshapes t t T T := ⟨h, rfl, fun _ => rfl, fun _ _ => rfl⟩

omit [DecidableEq A] in
theorem Reshapes.trans {t t' t'' : Ds A K} {T T' T'' : Shape A} (h : Reshapes t t' T T')
    (h' : Reshapes t' t'' T' T'') : Reshapes t t'' T T'' where
  rep := h'.rep
  list := h'.list.trans h.list
  key b := (h'.key b).trans (h.key b)
  frame b hb := (h'.frame b (h.list ▸ hb)).trans (h.frame b hb)

variable {d : Bool} {x y : Shape A} {a : A} {c : Color}

omit [DecidableEq A] in
theorem nodup_branch : (branch d c x a y).toList.Nodup ↔ a ∉ x.toList ∧ a ∉ y.toList ∧ x.toList.Nodup ∧
      y.toList.Nodup ∧ ∀ b ∈ x.toList, b ∉ y.toList := by
  rw [(toList_branch_perm d c x a y).nodup_iff, List.nodup_cons, List.nodup_append, List.mem_append, not_or, and_assoc]
  refine and_congr Iff.rfl (and_congr Iff.rfl (and_congr Iff.rfl (and_congr Iff.rfl ?_)))
  exact ⟨fun h b hx hy => h b hx b hy rfl, fun h b hx b' hy he => h b hx (he ▸ hy)⟩

omit [DecidableEq A] in
theorem toList_rotate (d : Bool) (c c' k k' : Color) (x : Shape A) (s : A) (y : Shape A) (a : A) (z : Shape A) :
    (branch d k x s (branch d k' y a z)).toList = (branch d c (branch d c' x s y) a z).toList := by
  cases d <;> simp [branch, toList]

variable {p : Path A}

theorem setProp_spec (h : Rep t (plug p (branch d c x a y))) (c' : Color) :
    Reshapes t (t.setProp a c') (plug p (branch d c x a y)) (plug p (branch d c' x a y)) := by
  obtain ⟨q, par, hc, hr, hn⟩ := h.elim
  have hl : (branch d c' x a y).toList = (branch d c x a y).toList := by
    cases d <;> rfl
  obtain ⟨rfl, hp, -, hx, hy⟩ := repr_branch.mp hr
  obtain ⟨hnp, hnT, hd⟩ := List.nodup_append.mp hn
  obtain ⟨hax, hay, -, -, -⟩ := nodup_branch.mp hnT
  have hs : (t.setProp a c').mem a = (t.mem a).setProp c' := by rw [setProp_mem, if_pos rfl]
  have ho (b : A) (hb : b ≠ a) : (t.setProp a c').mem b = t.mem b := by
    rw [setProp_mem, if_neg hb]
  have ha : a ∈ (branch d c x a y).toList := by simp
  refine ⟨rep_plug (hc.congr fun b hb => ho b (hd b hb a ha)) ?_ (by rwa [hl]), ?_, fun b => ?_, fun b hb => ho b ?_⟩
  · refine repr_branch.mpr ⟨rfl, ?_, ?_, ?_, ?_⟩
    · rw [hs, parent_setProp, hp]
    · rw [hs, prop_setProp]
    · rw [hs, child_setProp]
      exact hx.congr fun b hb => ho b (by rintro rfl; exact hax hb)
    · rw [hs, child_setProp]
      exact hy.congr fun b hb => ho b (by rintro rfl; exact hay hb)
  · rw [toList_plug, toList_plug, hl]
  · rw [setProp_mem]
    split_ifs <;> rfl
  · rintro rfl
    exact hb (by rw [toList_plug]; simp)

theorem paintChildren_spec (h : Rep t (plug p (branch d c x a y))) (hx : x ≠ nil) (hy : y ≠ nil) :
    ∃ b₀ b₁, (t.mem a).child false = some b₀ ∧ ((t.setProp b₀ .black).mem a).child true = some b₁ ∧
      Reshapes t ((t.setProp b₀ .black).setProp b₁ .black) (plug p (branch d c x a y))
        (plug p (branch d c (x.paint .black) a (y.paint .black))) := by
  obtain ⟨l, r, hlr, hre, hl, hr⟩ : ∃ l r, branch d c x a y = node c l a r ∧
      branch d c (x.paint .black) a (y.paint .black) = node c (l.paint .black) a (r.paint .black) ∧
      l ≠ nil ∧ r ≠ nil := by
    cases d with
    | false => exact ⟨x, y, rfl, rfl, hx, hy⟩
    | true => exact ⟨y, x, rfl, rfl, hy, hx⟩
  rw [hlr] at h ⊢
  rw [hre]
  cases l with
  | nil => exact absurd rfl hl
  | node cl ll b lr =>
  cases r with
  | nil => exact absurd rfl hr
  | node cr rl b' rr =>
  have h₁ := setProp_spec (p := ⟨false, c, a, node cr rl b' rr⟩ :: p) (d := false) h .black
  have h₂ := setProp_spec (p := ⟨true, c, a, node .black ll b lr⟩ :: p) (d := false) h₁.rep .black
  obtain ⟨-, hl₁, -⟩ := Rep.branch (d := false) h
  obtain ⟨-, -, hr₂⟩ := Rep.branch (p := p) (d := false) (x := node .black ll b lr) h₁.rep
  exact ⟨b, b', hl₁.1, hr₂.1, h₁.trans h₂⟩

theorem bstRotate_mem {a s : A} {r par : Option A}
    (hs : (t.mem a).child d = some s) (hr : (t.mem s).child (!d) = r) (hp : (t.mem a).parent = par)
    (has : a ≠ s) (hra : r ≠ some a) (hrs : r ≠ some s) :
    ∃ t' : Ds A K, bstRotate t a d = some (t'.relink par a (some s), s) ∧ t'.root = t.root ∧
      t'.mem a = ((t.mem a).setChild d r).setParent (some s) ∧
      t'.mem s = ((t.mem s).setParent par).setChild (!d) (some a) ∧
      ∀ b, b ≠ a → b ≠ s → t'.mem b = if r = some b then (t.mem b).setParent (some a) else t.mem b := by
  have h1 (b : A) := setParent_mem t s b par
  set t1 := t.setParent s par with ht1
  have h1s : (t1.mem s).child (!d) = r := by rw [h1, if_pos rfl, child_setParent, hr]
  have h2 (b : A) := setChild_mem t1 a b d r
  set t2 := t1.setChild a d r with ht2
  have h2a : (t2.mem a).child d = r := by rw [h2, if_pos rfl, child_setChild]
  have h3 (b : A) := setParentOpt_mem t2 b r (some a)
  set t3 := t2.setParentOpt r (some a) with ht3
  have h4 (b : A) := setChild_mem t3 s b (!d) (some a)
  set t4 := t3.setChild s (!d) (some a) with ht4
  have h5 (b : A) := setParent_mem t4 a b (some s)
  set t5 := t4.setParent a (some s) with ht5
  have h5s : (t5.mem s).parent = par := by
    rw [h5, if_neg has.symm, h4, if_pos rfl, parent_setChild, h3, if_neg hrs, h2, if_neg has.symm, h1,
      if_pos rfl, parent_setParent]
  refine ⟨t5, ?_, ?_, ?_, ?_, fun b hba hbs => ?_⟩
  · rw [bstRotate, hs]
    simp [hp, ← ht1, h1s, ← ht2, h2a, ← ht3, ← ht4, ← ht5, h5s]
  · rw [ht5, ht4, ht3, ht2, ht1]
    simp
  · rw [h5, if_pos rfl, h4, if_neg has, h3, if_neg hra, h2, if_pos rfl, h1, if_neg has]
  · rw [h5, if_neg has.symm, h4, if_pos rfl, h3, if_neg hrs, h2, if_neg has.symm, h1, if_pos rfl]
  · rw [h5, if_neg hba, h4, if_neg hbs, h3, h2, if_neg hba, h1, if_neg hbs]

variable {z : Shape A}

theorem bstRotate_spec {c c' : Color} {s : A} (h : Rep t (plug p (branch d c (branch d c' x s y) a z))) :
    ∃ t', bstRotate t a d = some (t', s) ∧
      Reshapes t t' (plug p (branch d c (branch d c' x s y) a z)) (plug p (branch d c' x s (branch d c y a z))) := by
  obtain ⟨q, par, hct, hre, hn⟩ := h.elim
  obtain ⟨rfl, hpa, hc, hr', hz⟩ := repr_branch.mp hre
  obtain ⟨hs, -, hc', hx, hy⟩ := repr_branch.mp hr'
  obtain ⟨hnp, hnT, hd⟩ := List.nodup_append.mp hn
  obtain ⟨hax, haz, hnx, hnz, hxz⟩ := nodup_branch.mp hnT
  obtain ⟨hsx, hsy, hnx', hny, hxy⟩ := nodup_branch.mp hnx
  simp only [mem_toList_branch] at hax hxz hd
  have has : a ≠ s := fun he => hax (.inl he)
  have hyr (b : A) (hb : (t.mem s).child (!d) = some b) : b ∈ y.toList := by
    rw [hb] at hy
    exact hy.mem_root
  obtain ⟨t₁, hro, hr, hma, hms, hmb⟩ := bstRotate_mem hs rfl hpa has
    (fun he => hax (.inr (.inr (hyr a he)))) (fun he => hsy (hyr s he))
  have hsa (b : A) (hba : b ≠ a) (hbs : b ≠ s) (hby : b ∉ y.toList) : t₁.mem b = t.mem b := by
    rw [hmb b hba hbs, if_neg fun he => hby (hyr b he)]
  have hctx₁ : ReprCtx t₁.mem t₁.root p (some a) par := by
    rw [hr]
    exact hct.congr fun b hb => hsa b (fun he => hd b hb a (by simp) he)
      (fun he => hd b hb s (by simp) he) fun hy => hd b hb b (by simp [hy]) rfl
  obtain ⟨hctx₂, hf, hk⟩ := hctx₁.relink (fun ha => hd a ha a (by simp) rfl) hnp (some s)
  set t₂ := t₁.relink par a (some s)
  have hl := toList_rotate d c c' c' c x s y a z
  have hin (b : A) (hb : b = a ∨ b = s ∨ b ∈ x.toList ∨ b ∈ y.toList ∨ b ∈ z.toList) :
      t₂.mem b = t₁.mem b := by
    refine hf b fun hp => hd b hp b ?_ rfl
    tauto
  refine ⟨t₂, hro, rep_plug hctx₂ ?_ (by rwa [hl]), by rw [toList_plug, toList_plug, hl], fun b => ?_, fun b hb => ?_⟩
  · refine repr_branch.mpr ⟨rfl, ?_, ?_, ?_, repr_branch.mpr ⟨?_, ?_, ?_, ?_, ?_⟩⟩
    · rw [hin s (by simp), hms, parent_setChild, parent_setParent]
    · rw [hin s (by simp), hms, prop_setChild, prop_setParent, hc']
    · rw [hin s (by simp), hms, child_not_setChild, child_setParent]
      exact hx.congr fun b hb => (hin b (by simp [hb])).trans (hsa b
        (by rintro rfl; simp [hb] at hax) (by rintro rfl; exact hsx hb) (hxy b hb))
    · rw [hin s (by simp), hms, child_setChild]
    · rw [hin a (by simp), hma, parent_setParent]
    · rw [hin a (by simp), hma, prop_setParent, prop_setChild, hc]
    · rw [hin a (by simp), hma, child_setParent, child_setChild]
      refine hy.reparent hny fun b hb => ?_
      rw [hin b (by simp [hb]), hmb b (by rintro rfl; simp [hb] at hax) (by rintro rfl; exact hsy hb)]
    · rw [hin a (by simp), hma, child_setParent, child_setChild_not]
      exact hz.congr fun b hb => (hin b (by simp [hb])).trans (hsa b
        (by rintro rfl; exact haz hb) (by rintro rfl; exact hxz b (by simp) hb)
        fun hy => hxz b (by simp [hy]) hb)
  · rw [hk]
    by_cases hba : b = a
    · rw [hba, hma]
      rfl
    · by_cases hbs : b = s
      · rw [hbs, hms]
        rfl
      · rw [hmb b hba hbs]
        split_ifs <;> rfl
  · obtain ⟨hbp, hba, hbx, -⟩ := not_mem_plug.mp hb
    simp only [mem_toList_branch, not_or] at hbx
    obtain ⟨hbs, -, hby⟩ := hbx
    exact (hf b hbp).trans (hsa b hba hbs hby)

theorem rbtRotate_spec {c c' : Color} {s : A} (h : Rep t (plug p (branch d c (branch d c' x s y) a z))) :
    ∃ t', rbtRotate t a d = some (t', s) ∧ Reshapes t t' (plug p (branch d c (branch d c' x s y) a z))
        (plug p (branch d .black x s (branch d .red y a z))) := by
  obtain ⟨t₁, hro, h₁⟩ := bstRotate_spec h
  -- the old root is now in the context of the new one
  have hf (k k' : Color) : plug p (branch d k x s (branch d k' y a z)) =
      plug (⟨!d, k, s, x⟩ :: p) (branch d k' y a z) := by
    rw [plug, Frame.plug, branch_swap d]
  have hr := h₁.rep
  rw [hf] at hr
  have h₂ := setProp_spec hr .red
  rw [← hf, ← hf] at h₂
  have h₃ := setProp_spec h₂.rep .black
  refine ⟨(t₁.setProp a .red).setProp s .black, ?_, h₁.trans (h₂.trans h₃)⟩
  rw [rbtRotate, hro]
  rfl

theorem rbtRotateDouble_spec {c c' c'' : Color} {s : A} {b : A} {v : Shape A}
    (h : Rep t (plug p (branch d c (branch (!d) c' (branch (!d) c'' y s x) b v) a z))) :
    ∃ t', rbtRotateDouble t a d = some (t', s) ∧
      Reshapes t t' (plug p (branch d c (branch (!d) c' (branch (!d) c'' y s x) b v) a z))
        (plug p (branch d .black (branch (!d) .red x b v) s (branch d .red y a z))) := by
  obtain ⟨t₁, hrot₁, h₁⟩ := rbtRotate_spec (p := ⟨d, c, a, z⟩ :: p) h
  have hm : plug (⟨d, c, a, z⟩ :: p) (branch (!d) .black y s (branch (!d) .red x b v)) =
      plug p (branch d c (branch d .black (branch (!d) .red x b v) s y) a z) := by
    rw [plug, Frame.plug, branch_swap d .black]
  rw [hm] at h₁
  obtain ⟨t₂, hrot₂, h₂⟩ := rbtRotate_spec h₁.rep
  refine ⟨t₂, ?_, h₁.trans h₂⟩
  obtain ⟨q, par, -, hr, -⟩ := h.elim
  obtain ⟨-, -, -, hb, -⟩ := repr_branch.mp hr
  obtain ⟨hc, -⟩ := repr_branch.mp hb
  rw [rbtRotateDouble, hc]
  simp [hrot₁, hrot₂]

end OpenSync.DsTree
