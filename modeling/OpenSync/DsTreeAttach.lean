import OpenSync.DsTreeInsert

/-!
# The new node

After its descent `ds_tree_node_insert` hangs the new red node under the node where the loop stopped,
repairs a red parent with one rotation and paints the root black.
-/

namespace OpenSync.DsTree
open List RbTree RbTree.Shape

variable {A K : Type} [DecidableEq A]

/-- The pointers of `t` represent a red-black tree with a black root. -/
structure RbRep (t : Ds A K) (T : Shape A) : Prop where
  rep : Rep t T
  bal : ∃ n, T.Bal n
  black : T.color = .black

variable {t : Ds A K} {p : Path A}

theorem rep_attach {d : Bool} {c : Color} {base : A} {y : Shape A} {a : A}
    (h : Rep t (plug p (branch d c nil base y))) (ha : a ∉ (plug p (branch d c nil base y)).toList)
    (hp : (t.mem a).prop = .red) (hch : ∀ b, (t.mem a).child b = none) :
    Rep ((t.setChild base d (some a)).setParent a (some base)) (plug (⟨d, c, base, y⟩ :: p) (node .red nil a nil)) := by
  obtain ⟨q, par, hct, hr, hn⟩ := h.elim
  obtain ⟨rfl, hpa, hc, -, hy⟩ := repr_branch.mp hr
  obtain ⟨hnp, hnT, hd⟩ := nodup_append.mp hn
  obtain ⟨-, hby, -, -, -⟩ := nodup_branch.mp hnT
  obtain ⟨hap, hab, -, hay⟩ := not_mem_plug.mp ha
  have hm (b : A) (hb : b ≠ a) (hb' : b ≠ base) :
      ((t.setChild base d (some a)).setParent a (some base)).mem b = t.mem b := by
    rw [setParent_mem, if_neg hb, setChild_mem, if_neg hb']
  have hma : ((t.setChild base d (some a)).setParent a (some base)).mem a = (t.mem a).setParent (some base) := by
    rw [setParent_mem, if_pos rfl, setChild_mem, if_neg hab]
  have hmb : ((t.setChild base d (some a)).setParent a (some base)).mem base = (t.mem base).setChild d (some a) := by
    rw [setParent_mem, if_neg (Ne.symm hab), setChild_mem, if_pos rfl]
  refine rep_plug (q := some a) (r := some base) ⟨rfl, ?_, ?_, ?_, ?_⟩ ⟨rfl, ?_, ?_, ?_, ?_⟩ ?_
  · rw [hmb, child_setChild]
  · rw [hmb, prop_setChild, hc]
  · rw [hmb, child_setChild_not]
    exact hy.congr fun b hb => hm b (by rintro rfl; exact hay hb) (by rintro rfl; exact hby hb)
  · rw [hmb, parent_setChild, hpa]
    exact hct.congr fun b hb => hm b (by rintro rfl; exact hap hb) fun he => hd b hb base (by simp) he
  · rw [hma, parent_setParent]
  · rw [hma, prop_setParent, hp]
  · rw [hma, child_setParent, hch]
    rfl
  · rw [hma, child_setParent, hch]
    rfl
  · have hne : (nodes p ++ (branch d c (node .red nil a nil) base y).toList).Nodup := by
      refine nodup_append.mpr ⟨hnp, nodup_branch.mpr ⟨?_, hby, ?_, ?_, ?_⟩, fun b hb b' hb' => ?_⟩
      · simpa [toList] using Ne.symm hab
      · simp [toList]
      · exact (nodup_branch.mp hnT).2.2.2.1
      · simpa [toList] using hay
      · rw [mem_toList_branch] at hb'
        rcases hb' with rfl | hb' | hb'
        · exact hd b hb _ (by simp)
        · rintro rfl
          have : b = a := by simpa [toList] using hb'
          exact hap (this ▸ hb)
        · exact hd b hb b' (by simp [hb'])
    exact (toList_plug_perm (⟨d, c, base, y⟩ :: p) _).nodup_iff.mp ((toList_plug_perm p _).nodup_iff.mpr hne)

omit [DecidableEq A] in
theorem nodes_subset (T : Shape A) {b : A} (hb : b ∈ nodes p) : b ∈ (plug p T).toList :=
  (toList_plug_perm p T).mem_iff.mpr (mem_append_left _ hb)

theorem insertRebalance_new {d : Bool} {c : Color} {base a : A} {y : Shape A}
    {n : ℕ} (h : Rep t (plug (⟨d, c, base, y⟩ :: p) (node .red nil a nil))) (hin : Inv p (branch d c nil base y) n) :
    ∃ t' T' m, insertRebalance t a = some t' ∧ T'.Bal m ∧
      Reshapes t t' (plug (⟨d, c, base, y⟩ :: p) (node .red nil a nil)) T' := by
  obtain ⟨hco, m, rfl, hm, hy⟩ := bal_branch.mp hin.bal
  obtain rfl : m = 0 := hm
  have hc := hin.ctx
  rw [color_branch] at hc
  have hn : (node .red nil a nil).Bal 0 := ⟨fun _ => ⟨rfl, rfl⟩, 0, rfl, rfl, rfl⟩
  cases c with
  | black =>
    obtain ⟨k, hk⟩ := bal_plug (p := ⟨d, .black, base, y⟩ :: p) hn ⟨nofun, hy, hc⟩
    refine ⟨t, _, k, ?_, hk, Reshapes.refl h⟩
    exact insertRebalance_eq_self (d := false) h fun f p' hp _ => by cases hp; rfl
  | red =>
    have hs : SibBlack p := hin.red (by rw [color_branch])
    obtain ⟨g, p, rfl, hr⟩ := exists_redParent (f := ⟨d, .red, base, y⟩) (c := .black) (n := 0)
      ⟨fun _ => ⟨rfl, (hco rfl).2⟩, hy, hc⟩ rfl hs
    rcases Bool.eq_or_eq_not d g.dir with hd | hd
    · obtain ⟨t', heq, hre⟩ := insertRebalance_straight (d := false) h rfl hd
      obtain ⟨k, hk⟩ := bal_plug hn (hr.straight .red)
      exact ⟨t', _, k, heq, hk, hre⟩
    have hl : node .red nil a nil = branch g.dir .red nil a nil := by cases g.dir <;> rfl
    rw [hl] at h ⊢
    obtain ⟨t', heq, hre⟩ := insertRebalance_twisted h rfl hd
    have hsi : (branch d .red nil base y).Bal 0 := bal_branch.mpr ⟨hco, 0, rfl, rfl, hy⟩
    have ho : (branch g.dir .red nil g.a g.sib).Bal 0 :=
      bal_branch.mpr ⟨fun _ => ⟨rfl, hr.uncleBlack⟩, 0, rfl, rfl, hr.uncle⟩
    obtain ⟨k, hk⟩ := bal_plug (p := p)
      (t := branch g.dir .black (branch d .red nil base y) a (branch g.dir .red nil g.a g.sib))
      (bal_branch.mpr ⟨nofun, 0, rfl, hsi, ho⟩) (by rw [color_branch]; exact hr.ctx)
    exact ⟨t', _, k, heq, hk, hre⟩

theorem paintRoot_spec {T : Shape A} {n : ℕ} {r : A} (h : Rep t T) (hb : T.Bal n) (hr : t.root = some r) :
    ∃ T', RbRep (t.setProp r .black) T' ∧ Reshapes t (t.setProp r .black) T T' := by
  cases T with
  | nil =>
    rw [show t.root = none from h.1] at hr
    cases hr
  | node c l a rt =>
    obtain rfl : a = r := Option.some.inj (h.1.1.symm.trans hr)
    have hre := setProp_spec (p := []) (d := false) h .black
    exact ⟨node .black l a rt, ⟨hre.rep, bal_paint_black hb, rfl⟩, hre⟩

/-- The new node stands where the path of its key leads, and the rest is as before. -/
structure Inserted (cmp : K → K → ℤ) (t t' : Ds A K) (T T' : Shape A) (a : A) (key : K) (q : Path A) :
    Prop where
  rb : RbRep t' T'
  old : T.toList = before q ++ after q
  new : T'.toList = before q ++ a :: after q
  descends : Descends cmp t key q
  key : (t'.mem a).key = key
  keys : ∀ b, b ≠ a → (t'.mem b).key = (t.mem b).key

variable (cmp : K → K → ℤ)

theorem nodeInsert_nil (h : Rep t nil) (fuel : ℕ) (a : A) (key : K) :
    ∃ t', nodeInsert cmp fuel t a key = some t' ∧ Inserted cmp t t' nil (node .black nil a nil) a key [] := by
  have hr : t.root = none := h.1
  refine ⟨_, by rw [nodeInsert, setNode_root, hr], ?_⟩
  refine ⟨⟨⟨⟨rfl, ?_⟩, by simp [toList]⟩, ⟨1, nofun, 0, rfl, rfl, rfl⟩, rfl⟩, rfl, rfl, nofun, ?_, fun b hb => ?_⟩
  · rw [setProp_mem, if_pos rfl, setNode_mem, if_pos rfl]
    exact ⟨rfl, rfl, rfl, rfl⟩
  · rw [setProp_mem, if_pos rfl, setNode_mem, if_pos rfl]
    rfl
  · rw [setProp_mem, if_neg hb, setNode_mem, if_neg hb]

theorem nodeInsert_spec {T : Shape A} (h : RbRep t T) {a : A} (ha : a ∉ T.toList)
    (key : K) {fuel : ℕ} (hfu : 2 * T.toList.length < fuel) :
    ∃ t' T' q, nodeInsert cmp fuel t a key = some t' ∧ Inserted cmp t t' T T' a key q := by
  obtain ⟨hr, ⟨n, hbal⟩, hbl⟩ := h
  cases T with
  | nil =>
    obtain ⟨t', heq, hins⟩ := nodeInsert_nil cmp hr fuel a key
    exact ⟨t', _, _, heq, hins⟩
  | node c l b r =>
    have hb : t.root = some b := hr.1.1
    set t₀ := t.setNode a { key, prop := .red, parent := none, child := fun _ => none } with ht₀
    have hne (e : A) (he : e ∈ (node c l b r).toList) : t₀.mem e = t.mem e := by
      rw [ht₀, setNode_mem, if_neg]
      rintro rfl
      exact ha he
    have hrep₀ : Rep t₀ (node c l b r) := ⟨hr.1.congr hne, hr.2⟩
    obtain ⟨x, y, hxy⟩ := node_eq_branch (dirOf cmp t₀ b key) c l b r
    have hin : Inv [] (node c l b r) n := ⟨hbal, trivial, fun hre => absurd (hbl.symm.trans hre) nofun, nofun⟩
    have hle : (node c l b r).toList.length = x.toList.length + y.toList.length + 1 := by
      rw [hxy, length_branch]
    rw [hxy] at hrep₀ hin
    obtain ⟨t₁, base, dir, q, c', y', m, hlo, hla⟩ := insertLoop_spec (p := []) key fuel hrep₀ hin nofun (by omega)
    rw [plug, ← hxy] at hla
    have hli := hla.reshapes.list
    have ha₁ : t₁.mem a = { key, prop := .red, parent := none, child := fun _ => none } := by
      rw [hla.reshapes.frame a ha, ht₀, setNode_mem, if_pos rfl]
    have hba : base ≠ a := by
      rintro rfl
      refine ha (hli ▸ ?_)
      rw [(toList_plug_perm ..).mem_iff]
      simp
    have hrep₂ := rep_attach (a := a) hla.reshapes.rep (by rwa [hli]) (by rw [ha₁]) (fun d => by rw [ha₁])
    set t₂ := (t₁.setChild base dir (some a)).setParent a (some base) with ht₂
    have hc : (t₂.mem base).child dir = some a := by
      rw [ht₂, setParent_mem, if_neg hba, setChild_mem, if_pos rfl, child_setChild]
    have hkey₂ (e : A) : (t₂.mem e).key = (t₁.mem e).key := by
      rw [ht₂, setParent_mem, setChild_mem]
      split_ifs <;> rfl
    obtain ⟨t₃, T₃, k, hreb, hbal₃, hre₃⟩ := insertRebalance_new hrep₂ hla.inv
    obtain ⟨r₃, hr₃⟩ : ∃ r₃, t₃.root = some r₃ := by
      cases T₃ with
      | nil =>
        have hl := hre₃.list
        rw [toList_plug] at hl
        simp [toList] at hl
      | node => exact ⟨_, hre₃.rep.1.1⟩
    obtain ⟨T', hrb, hre₄⟩ := paintRoot_spec hre₃.rep hbal₃ hr₃
    have hd : Descends cmp t₁ key (⟨dir, c', base, y'⟩ :: q) := forall_mem_cons.mpr ⟨hla.dir, hla.descends⟩
    have hk (e : A) (he : e ≠ a) : (t₁.mem e).key = (t.mem e).key := by
      rw [hla.reshapes.key, ht₀, setNode_mem, if_neg he]
    refine ⟨_, T', ⟨dir, c', base, y'⟩ :: q, ?_, hrb, ?_, ?_, ?_, ?_, fun e he => ?_⟩
    · rw [nodeInsert]
      simp [← ht₀, show t₀.root = some b from hb, hlo, ← ht₂, hc, hreb, hr₃]
    · rw [← hli]
      change (plug (⟨dir, c', base, y'⟩ :: q) nil).toList = _
      rw [toList_plug, toList, append_nil]
    · rw [hre₄.list, hre₃.list, toList_plug]
      simp [toList]
    · intro f hf
      have hfa : f.a ≠ a := by
        rintro rfl
        refine ha (hli ▸ nodes_subset (p := ⟨dir, c', base, y'⟩ :: q) nil ?_)
        exact mem_flatMap.mpr ⟨f, hf, mem_cons_self⟩
      rw [hd f hf, dirOf, dirOf, hk f.a hfa]
    · rw [hre₄.key, hre₃.key, hkey₂, ha₁]
    · rw [hre₄.key, hre₃.key, hkey₂, hk e he]

end OpenSync.DsTree
