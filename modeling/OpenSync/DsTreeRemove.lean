import OpenSync.DsTreeAttach
import OpenSync.DsTreeRebalance

/-!
# Removal

A node with at most one child is unlinked; a node with two children gives its place to its
predecessor, which is unlinked first. Unlinking a black node without a red child leaves the hole one
black node short, which is where the rebalancing loop starts.
-/

namespace OpenSync.DsTree
open List hiding nil
open RbTree RbTree.Shape

variable {A K : Type} [DecidableEq A]

/-! ## Unlinking -/

/-- Memory that represents `T`, reached from `t` by writes to the nodes of `T` that keep all keys. -/
structure Becomes (t t' : Ds A K) (T : Shape A) : Prop where
  rep : Rep t' T
  key : ∀ b, (t'.mem b).key = (t.mem b).key
  frame : ∀ b ∉ T.toList, t'.mem b = t.mem b

variable {t : Ds A K} {p : Path A} {a : A} {c : Color} {x : Shape A} {d : Bool}

theorem unlink_spec {q par : Option A} (h : Rep t (plug p (branch d c nil a x))) (hq : (t.mem a).child (!d) = q)
    (hp : (t.mem a).parent = par) :
    Becomes t ((t.relink par a q).setParentOpt q ((t.relink par a q).mem a).parent) (plug p x) := by
  obtain ⟨q', par', hct, hre, hn⟩ := h.elim
  obtain ⟨rfl, hp', hc, -, hx⟩ := repr_branch.mp hre
  obtain rfl : par' = par := hp'.symm.trans hp
  rw [hq] at hx
  obtain ⟨hnp, hnT, hd⟩ := nodup_append.mp hn
  obtain ⟨-, hax, -, hnx, -⟩ := nodup_branch.mp hnT
  have hap : a ∉ nodes p := fun ha => hd a ha a (by simp) rfl
  obtain ⟨hctx₁, hf, hk⟩ := hct.relink hap hnp q
  rw [hf a hap, hp]
  set t₁ := t.relink par' a q
  have hr (b : A) (hb : q = some b) : b ∈ x.toList := by
    rw [hb] at hx
    exact hx.mem_root
  have hpx (b : A) (hb : b ∈ nodes p) : b ∉ x.toList := fun hbx => hd b hb b (by simp [hbx]) rfl
  have hm (b : A) := setParentOpt_mem t₁ b q par'
  refine ⟨rep_plug (q := q) (r := par') ?_ ?_ ?_, fun b => ?_, fun b hb => ?_⟩
  · rw [setParentOpt_root]
    refine hctx₁.congr fun b hb => ?_
    rw [hm, if_neg fun he => hpx b hb (hr b he)]
  · refine hx.reparent hnx fun b hb => ?_
    rw [hm, hf b fun hbp => hpx b hbp hb]
  · exact nodup_append.mpr ⟨hnp, hnx, fun b hb b' hb' he => hpx b hb (he ▸ hb')⟩
  · rw [hm]
    split_ifs
    · rw [key_setParent, hk]
    · rw [hk]
  · rw [(toList_plug_perm ..).mem_iff, mem_append, not_or] at hb
    rw [hm, if_neg fun he => hb.2 (hr b he), hf b hb.1]

/-- How the hole of a context is left: balanced, or one black node short below `b`. -/
def Rest (p : Path A) (x : Shape A) (b : Option A) : Prop :=
  (b = none ∧ ∃ n, x.Bal n ∧ Ctx p x.color n) ∨ (b = base p ∧ ∃ n, x.Bal n ∧ Ctx p .black (n + 1))

omit [DecidableEq A] in
theorem ReprCtx.base_eq {m : A → Node A K} {root : Option A} {q par : Option A}
    (h : ReprCtx m root p q par) : par = base p := by
  cases p with
  | nil => exact h.2
  | cons f p => exact h.1

theorem removeLeaf_spec {n : ℕ} (h : Rep t (plug p (branch d c nil a x))) (hba : (plug p (branch d c nil a x)).Bal n) :
    ∃ t' b x', removeLeaf t a = (t', b) ∧ x'.toList = x.toList ∧ Becomes t t' (plug p x') ∧ Rest p x' b := by
  obtain ⟨k, hk, hp⟩ := bal_of_plug hba
  obtain ⟨hco, m, rfl, hm, hx⟩ := bal_branch.mp hk
  obtain rfl : m = 0 := hm
  rw [color_branch] at hp
  obtain ⟨q, par, hct, hre, hn⟩ := h.elim
  have hr := hre.isRed_eq
  rw [color_branch] at hr
  obtain ⟨rfl, hpa, -, hni, hxr⟩ := repr_branch.mp hre
  have hxre := hxr.isRed_eq
  have hch : (t.mem a).child (decide ((t.mem a).child false = none)) = (t.mem a).child (!d) := by
    cases d with
    | false => simp [show (t.mem a).child false = none from hni]
    | true =>
      by_cases hf : (t.mem a).child false = none
      · rw [hf, decide_eq_true rfl, Bool.not_true, hf]
        exact hni
      · rw [decide_eq_false hf]
        rfl
  by_cases hc : c = .red
  · -- a red node goes away without a trace
    subst hc
    refine ⟨_, none, x, ?_, rfl, unlink_spec h rfl rfl, .inl ⟨rfl, 0, hx, ?_⟩⟩
    · rw [removeLeaf, hch, hr]
      rfl
    · rw [(hco rfl).2]
      exact hp.black
  · obtain rfl : c = .black := Color.eq_black hc
    by_cases hxc : x.color = .red
    · -- the only child takes the black node's place
      cases x with
      | nil => cases hxc
      | node k l b r =>
        have hb : (t.mem a).child (!d) = some b := hxr.1
        have hfo (y : Shape A) : plug (⟨!d, .black, a, nil⟩ :: p) y = plug p (branch d .black nil a y) := by
          rw [plug, Frame.plug, branch_swap d]
        have h₁ := setProp_spec (d := false) ((hfo _).symm ▸ h) .black
        rw [hfo, hfo] at h₁
        have hne : a ≠ b := by
          rintro rfl
          exact (nodup_branch.mp (nodup_append.mp hn).2.1).2.1 (by simp [toList])
        have ha : (t.setProp b .black).mem a = t.mem a := by rw [setProp_mem, if_neg hne]
        have h₂ := unlink_spec h₁.rep (by rw [ha, hb]) (by rw [ha, hpa])
        refine ⟨_, none, node .black l b r, ?_, rfl, ⟨h₂.rep, fun e => ?_, fun e he => ?_⟩,
          .inl ⟨rfl, 1, bal_paint_red hx hxc, hp⟩⟩
        · rw [removeLeaf, hch, hr, hxre, hb, hxc]
          simp [ha, hpa]
        · rw [h₂.key, h₁.key]
        · rw [h₂.frame e he, setProp_mem, if_neg]
          rintro rfl
          exact he (by rw [toList_plug]; simp [toList])
    · refine ⟨_, base p, x, ?_, rfl, unlink_spec h rfl rfl, .inr ⟨rfl, 0, hx, hp⟩⟩
      rw [removeLeaf, hch, hr, hxre, ← hct.base_eq, ← hpa]
      cases (t.mem a).child (!d) <;> simp [hxc]

/-! ## Replacing -/

theorem nodeReplace_mem {a m : A} {l r par : Option A}
    (hl : (t.mem a).child false = l) (hr : (t.mem a).child true = r) (hp : (t.mem a).parent = par)
    (ham : a ≠ m) (hla : l ≠ some a) (hra : r ≠ some a) (hlm : l ≠ some m) (hrm : r ≠ some m) :
    ∃ t' : Ds A K, nodeReplace t a m = t'.relink par a (some m) ∧ t'.root = t.root ∧
      t'.mem m = ((((t.mem m).setProp (t.mem a).prop).setParent par).setChild false l).setChild true r ∧
      ∀ b, b ≠ m → t'.mem b = if l = some b ∨ r = some b then (t.mem b).setParent (some m) else t.mem b := by
  have h1 (b : A) := setProp_mem t m b (t.mem a).prop
  set t1 := t.setProp m (t.mem a).prop with ht1
  have h1a : t1.mem a = t.mem a := by rw [h1, if_neg ham]
  have h2 (b : A) := setParent_mem t1 m b par
  set t2 := t1.setParent m par with ht2
  have h2a : t2.mem a = t.mem a := by rw [h2, if_neg ham, h1a]
  have h3 (b : A) := setChild_mem t2 m b false l
  set t3 := t2.setChild m false l with ht3
  have h3a : t3.mem a = t.mem a := by rw [h3, if_neg ham, h2a]
  have h4 (b : A) := setChild_mem t3 m b true r
  set t4 := t3.setChild m true r with ht4
  have h4a : t4.mem a = t.mem a := by rw [h4, if_neg ham, h3a]
  have h5 (b : A) := setParentOpt_mem t4 b l (some m)
  set t5 := t4.setParentOpt l (some m) with ht5
  have h5a : t5.mem a = t.mem a := by rw [h5, if_neg hla, h4a]
  have h6 (b : A) := setParentOpt_mem t5 b r (some m)
  set t6 := t5.setParentOpt r (some m) with ht6
  have h6a : t6.mem a = t.mem a := by rw [h6, if_neg hra, h5a]
  refine ⟨t6, ?_, ?_, ?_, fun b hb => ?_⟩
  · rw [nodeReplace]
    simp [← ht1, h1a, hp, ← ht2, h2a, hl, ← ht3, h3a, hr, ← ht4, h4a, ← ht5, h5a, ← ht6, h6a]
  · rw [ht6, ht5, ht4, ht3, ht2, ht1]
    simp
  · rw [h6, if_neg hrm, h5, if_neg hlm, h4, if_pos rfl, h3, if_pos rfl, h2, if_pos rfl, h1, if_pos rfl]
  · rw [h6, h5, h4, if_neg hb, h3, if_neg hb, h2, if_neg hb, h1, if_neg hb]
    by_cases h₁ : l = some b <;> by_cases h₂ : r = some b <;> simp [h₁, h₂, Node.setParent]

theorem nodeReplace_spec {l : Shape A} {r : Shape A}
    {m : A} (h : Rep t (plug p (node c l a r))) (hm : m ∉ (plug p (node c l a r)).toList) :
    Becomes t (nodeReplace t a m) (plug p (node c l m r)) := by
  obtain ⟨q, par, hct, hre, hn⟩ := h.elim
  obtain ⟨rfl, hpa, hc, hl, hr⟩ := hre
  obtain ⟨hnp, hnT, hdi⟩ := nodup_append.mp hn
  obtain ⟨hal, har, hnl, hnr, hlr⟩ := nodup_branch (d := false).mp hnT
  obtain ⟨hmp, hma, hml, hmr⟩ := (not_mem_plug (d := false)).mp hm
  have hlro (b : A) (hb : (t.mem a).child false = some b) : b ∈ l.toList := by
    rw [hb] at hl
    exact hl.mem_root
  have hrr (b : A) (hb : (t.mem a).child true = some b) : b ∈ r.toList := by
    rw [hb] at hr
    exact hr.mem_root
  obtain ⟨t₁, heq, hro, hmm, hmb⟩ := nodeReplace_mem rfl rfl hpa (Ne.symm hma)
    (fun he => hal (hlro a he)) (fun he => har (hrr a he)) (fun he => hml (hlro m he))
    (fun he => hmr (hrr m he))
  have hs (b : A) (hbm : b ≠ m) (hbl : b ∉ l.toList) (hbr : b ∉ r.toList) : t₁.mem b = t.mem b := by
    rw [hmb b hbm, if_neg]
    rintro (he | he)
    · exact hbl (hlro b he)
    · exact hbr (hrr b he)
  have hpl (b : A) (hb : b ∈ nodes p) : b ∉ l.toList ∧ b ∉ r.toList ∧ b ≠ m ∧ b ≠ a := by
    have hd := hdi b hb b
    simp only [toList, mem_append, mem_cons] at hd
    refine ⟨fun hx => hd (.inl hx) rfl, fun hx => hd (.inr (.inr hx)) rfl, ?_, ?_⟩
    · rintro rfl
      exact hmp hb
    · rintro rfl
      exact hd (.inr (.inl rfl)) rfl
  have hctx₁ : ReprCtx t₁.mem t₁.root p (some a) par := by
    rw [hro]
    exact hct.congr fun b hb => hs b (hpl b hb).2.2.1 (hpl b hb).1 (hpl b hb).2.1
  obtain ⟨hctx₂, hf, hk⟩ := hctx₁.relink (fun ha => (hpl a ha).2.2.2 rfl) hnp (some m)
  rw [heq]
  set t₂ := t₁.relink par a (some m)
  have hm₂ : t₂.mem m = t₁.mem m := hf m hmp
  have hl₂ (b : A) (hb : b ∈ l.toList) : t₂.mem b = if (t.mem a).child false = some b then
      (t.mem b).setParent (some m) else t.mem b := by
    rw [hf b fun hp => (hpl b hp).1 hb, hmb b (by rintro rfl; exact hml hb)]
    exact if_congr (or_iff_left fun he => hlr b hb (hrr b he)) rfl rfl
  have hr₂ (b : A) (hb : b ∈ r.toList) : t₂.mem b = if (t.mem a).child true = some b then
      (t.mem b).setParent (some m) else t.mem b := by
    rw [hf b fun hp => (hpl b hp).2.1 hb, hmb b (by rintro rfl; exact hmr hb)]
    exact if_congr (or_iff_right fun he => hlr b (hlro b he) hb) rfl rfl
  refine ⟨rep_plug hctx₂ ⟨rfl, ?_, ?_, ?_, ?_⟩ ?_, fun b => ?_, fun b hb => ?_⟩
  · rw [hm₂, hmm]
    rfl
  · rw [hm₂, hmm]
    exact hc
  · rw [hm₂, hmm]
    exact hl.reparent hnl hl₂
  · rw [hm₂, hmm]
    exact hr.reparent hnr hr₂
  · refine nodup_append.mpr ⟨hnp, nodup_branch (d := false).mpr ⟨hml, hmr, hnl, hnr, hlr⟩, ?_⟩
    rintro b hb b' hb' rfl
    obtain ⟨hbl, hbr, hbm, -⟩ := hpl b hb
    rcases (mem_toList_branch false ..).mp hb' with h' | h' | h'
    · exact hbm h'
    · exact hbl h'
    · exact hbr h'
  · rw [hk]
    by_cases hbm : b = m
    · rw [hbm, hmm]
      rfl
    · rw [hmb b hbm]
      split_ifs <;> rfl
  · obtain ⟨hbp, hbm, hbl, hbr⟩ := (not_mem_plug (d := false)).mp hb
    rw [hf b hbp, hs b hbm hbl hbr]

/-! ## The predecessor -/

variable {T : Shape A} {fuel : ℕ}

omit [DecidableEq A] in
theorem endLoop_spec {par : Option A} (d : Bool) (h : Repr t.mem T (some a) par) (hfu : T.toList.length ≤ fuel) :
    ∃ q c m x, T = plug q (branch d c nil m x) ∧ (∀ f ∈ q, f.dir = d) ∧ endLoop t d fuel a = some m := by
  induction fuel generalizing T a par with
  | zero =>
    have ha := h.mem_root
    rw [length_eq_zero_iff.mp (Nat.le_zero.mp hfu)] at ha
    cases ha
  | succ fuel ih =>
    cases T with
    | nil => cases h
    | node c l b r =>
      obtain ⟨x, y, hxy⟩ := node_eq_branch d c l b r
      rw [hxy] at h hfu ⊢
      obtain ⟨hab, -, -, hx, -⟩ := repr_branch.mp h
      cases hab
      rw [length_branch] at hfu
      cases hc : (t.mem a).child d with
      | none =>
        rw [hc] at hx
        cases x with
        | nil => exact ⟨[], c, a, y, rfl, nofun, by rw [endLoop, hc]⟩
        | node => cases hx.1
      | some e =>
        rw [hc] at hx
        obtain ⟨q, c', m, x', rfl, hq, hl⟩ := ih hx (by omega)
        refine ⟨q ++ [⟨d, c, a, y⟩], c', m, x', ?_, ?_, ?_⟩
        · rw [plug_append]
          rfl
        · intro f hf
          rcases mem_append.mp hf with hf | hf
          · exact hq f hf
          · rw [mem_singleton.mp hf]
        · rw [endLoop, hc]
          exact hl

/-! ## Removing a node -/

theorem removeLoop_rest {b : Option A} {dir : Bool}
    (h : Rep t (plug p x)) (hr : Rest p x b) (hd : ∀ f p', p = f :: p' → dir = f.dir) (hf : p.length ≤ fuel) :
    ∃ t' T' m, removeLoop fuel t b dir = some t' ∧ T'.Bal m ∧ Reshapes t t' (plug p x) T' := by
  rcases hr with ⟨rfl, n, hx, hp⟩ | ⟨rfl, n, hx, hp⟩
  · obtain ⟨m, hm⟩ := bal_plug hx hp
    exact ⟨t, _, m, removeLoop_none fuel t dir, hm, Reshapes.refl h⟩
  · exact removeLoop_spec h hx hp hd hf

omit [DecidableEq A] in
theorem length_path_le (p : Path A) (T : Shape A) : p.length ≤ (plug p T).toList.length := by
  rw [(toList_plug_perm p T).length_eq, length_append]
  induction p with
  | nil => exact Nat.zero_le _
  | cons f p ih =>
    rw [nodes_cons, length_append, length_cons, length_cons]
    omega

/-- The tree without the node `a`, before rebalancing. -/
structure Started (t t' : Ds A K) (T : Shape A) (a : A) (p : Path A) (x : Shape A) (b : Option A)
    (dir : Bool) : Prop where
  rep : Rep t' (plug p x)
  key : ∀ e, (t'.mem e).key = (t.mem e).key
  rest : Rest p x b
  dir : ∀ f p', p = f :: p' → dir = f.dir
  list : ∃ l r, T.toList = l ++ a :: r ∧ (plug p x).toList = l ++ r

theorem side_any {par : Option A}
    (h : ReprCtx t.mem t.root p (some a) par) (ha : a ∉ nodes p) (f : Frame A) (p' : Path A)
    (hp : p = f :: p') : (par.any fun q => t.side q a) = f.dir := by
  subst hp
  obtain rfl : par = some f.a := h.1
  exact h.side_eq ha

theorem removeStart_leaf {n : ℕ}
    (h : Rep t (plug p (branch d c nil a x))) (hba : (plug p (branch d c nil a x)).Bal n) (fuel : ℕ) :
    ∃ t' b dir x', removeStart fuel t a = some (t', b, dir) ∧
      Started t t' (plug p (branch d c nil a x)) a p x' b dir := by
  obtain ⟨t', b, x', hl, hli, hb, hr⟩ := removeLeaf_spec h hba
  obtain ⟨q, par, hct, hre, hn⟩ := h.elim
  obtain ⟨rfl, hp, -, hni, -⟩ := repr_branch.mp hre
  have hap : a ∉ nodes p := fun ha => (nodup_append.mp hn).2.2 a ha a (by simp) rfl
  refine ⟨t', b, par.any fun q => t.side q a, x', ?_, hb.rep, hb.key, hr, side_any hct hap, ?_⟩
  · have hch : (t.mem a).child false = none ∨ (t.mem a).child true = none := by
      cases d with
      | false => exact .inl hni
      | true => exact .inr hni
    rcases hch with hc | hc
    · rw [removeStart, hc, hp, hl]
    · rw [removeStart, hc, hp, hl]
      cases (t.mem a).child false <;> rfl
  · cases d with
    | false =>
      exact ⟨before p, x.toList ++ after p, by rw [toList_plug]; simp [branch, toList],
        by rw [toList_plug, hli, append_assoc]⟩
    | true =>
      exact ⟨before p ++ x.toList, after p, by rw [toList_plug]; simp [branch, toList], by rw [toList_plug, hli]⟩

theorem Rest.relabel {q p : Path A} {a m : A} {r x : Shape A} {b : Option A}
    (h : Rest (q ++ ⟨d, c, a, r⟩ :: p) x b) (hq : ∀ f ∈ q, f.a ≠ a) :
    Rest (q ++ ⟨d, c, m, r⟩ :: p) x (if b = some a then some m else b) := by
  rcases h with ⟨rfl, n, hx, hp⟩ | ⟨rfl, n, hx, hp⟩
  · exact .inl ⟨if_neg nofun, n, hx, hp.relabel m⟩
  refine .inr ⟨?_, n, hx, hp.relabel m⟩
  cases q with
  | nil => exact if_pos rfl
  | cons f q =>
    refine if_neg fun he => hq f mem_cons_self ?_
    exact Option.some.inj he

theorem removeStart_inner {l : Shape A} {r : Shape A}
    {n fuel : ℕ} (h : Rep t (plug p (node c l a r))) (hba : (plug p (node c l a r)).Bal n)
    (hl : l ≠ nil) (hr : r ≠ nil) (hfu : (plug p (node c l a r)).toList.length ≤ fuel) :
    ∃ t' b dir q x', removeStart fuel t a = some (t', b, dir) ∧ Started t t' (plug p (node c l a r)) a q x' b dir := by
  obtain ⟨-, hlre, hrre⟩ := Rep.branch (d := false) h
  obtain ⟨lroot, hlr⟩ : ∃ e, (t.mem a).child false = some e := by
    cases l with
    | nil => exact absurd rfl hl
    | node => exact ⟨_, hlre.1⟩
  obtain ⟨rroot, hrr⟩ : ∃ e, (t.mem a).child true = some e := by
    cases r with
    | nil => exact absurd rfl hr
    | node => exact ⟨_, hrre.1⟩
  rw [hlr] at hlre
  have hlen : l.toList.length ≤ fuel := by
    rw [toList_plug, length_append, length_append, toList, length_append] at hfu
    omega
  obtain ⟨q, c', m, x, rfl, hq, hlo⟩ := endLoop_spec true hlre hlen
  -- the predecessor in its own context
  have hfo (e : A) (y : Shape A) : plug p (node c (plug q y) e r) = plug (q ++ ⟨false, c, e, r⟩ :: p) y := by
    rw [plug_append]
    rfl
  have hrep := h
  rw [hfo] at hrep hba
  obtain ⟨t₁, b, x', hle, hli, hb, hre⟩ := removeLeaf_spec hrep hba
  obtain ⟨q', par, hc, hm, hn⟩ := hrep.elim
  obtain ⟨rfl, hpar, -, -, -⟩ := repr_branch.mp hm
  have hmp : m ∉ nodes (q ++ ⟨false, c, a, r⟩ :: p) := fun hme => (nodup_append.mp hn).2.2 m hme m (by simp) rfl
  have hmx : m ∉ x.toList := (nodup_branch.mp (nodup_append.mp hn).2.1).2.1
  obtain ⟨parent, hpa⟩ : ∃ e, (t.mem m).parent = some e := by
    rw [hpar, hc.base_eq]
    cases q <;> exact ⟨_, rfl⟩
  have hd := side_any hc hmp
  rw [← hpar, hpa, Option.any_some] at hd
  have hrep₁ := hb.rep
  have hm₁ : m ∉ (plug (q ++ ⟨false, c, a, r⟩ :: p) x').toList := by
    rw [(toList_plug_perm ..).mem_iff, mem_append, not_or, hli]
    exact ⟨hmp, hmx⟩
  rw [← hfo] at hrep₁ hm₁
  have hbec₂ := nodeReplace_spec hrep₁ hm₁
  have hqa : ∀ f ∈ q, f.a ≠ a := by
    intro f hf he
    have hnp := (nodup_append.mp hn).1
    rw [nodes, flatMap_append, nodup_append] at hnp
    exact hnp.2.2 f.a (mem_flatMap.mpr ⟨f, hf, mem_cons_self⟩) a (by simp) he
  have ha : after q = [] := ahead_eq_nil (d := true) hq
  refine ⟨nodeReplace t₁ a m, if b = some a then some m else b, t.side parent m,
    q ++ ⟨false, c, m, r⟩ :: p, x', ?_, ?_, fun e => ?_, hre.relabel hqa, ?_, ?_⟩
  · rw [removeStart, hlr, hrr]
    simp [hlo, hpa, hle]
  · rw [← hfo]
    exact hbec₂.rep
  · rw [hbec₂.key, hb.key]
  · intro f p' hp
    cases q with
    | nil =>
      cases hp
      exact hd ⟨false, c, a, r⟩ p rfl
    | cons g q =>
      cases hp
      exact hd f (q ++ ⟨false, c, a, r⟩ :: p) rfl
  · refine ⟨before p ++ (before q ++ x.toList ++ [m]), r.toList ++ after p, ?_, ?_⟩
    · rw [toList_plug, toList, toList_plug, ha]
      simp [branch, toList]
    · rw [← hfo, toList_plug, toList, toList_plug, ha, hli]
      simp

theorem removeStart_spec {n fuel : ℕ} (h : Rep t T) (hb : T.Bal n) (ha : a ∈ T.toList) (hf : T.toList.length ≤ fuel) :
    ∃ t' b dir p x, removeStart fuel t a = some (t', b, dir) ∧ Started t t' T a p x b dir := by
  obtain ⟨p, c, l, r, rfl⟩ := exists_plug ha
  by_cases hl : l = nil
  · subst hl
    obtain ⟨t', b, dir, x, heq, hst⟩ := removeStart_leaf (d := false) h hb fuel
    exact ⟨t', b, dir, p, x, heq, hst⟩
  · by_cases hr : r = nil
    · subst hr
      obtain ⟨t', b, dir, x, heq, hst⟩ := removeStart_leaf (d := true) h hb fuel
      exact ⟨t', b, dir, p, x, heq, hst⟩
    · exact removeStart_inner h hb hl hr hf

theorem blackenRoot_spec {n : ℕ} (h : Rep t T) (hb : T.Bal n) :
    ∃ T', RbRep t.blackenRoot T' ∧ Reshapes t t.blackenRoot T T' := by
  cases hr : t.root with
  | none =>
    rw [show t.blackenRoot = t by rw [Ds.blackenRoot, hr]]
    cases T with
    | nil => exact ⟨nil, ⟨h, ⟨n, hb⟩, rfl⟩, Reshapes.refl h⟩
    | node => cases hr.symm.trans h.1.1
  | some e =>
    rw [show t.blackenRoot = t.setProp e .black by rw [Ds.blackenRoot, hr]]
    exact paintRoot_spec h hb hr

/-- The node is gone from the sequence and everything else is as before. -/
structure Removed (t t' : Ds A K) (T T' : Shape A) (a : A) : Prop where
  rb : RbRep t' T'
  list : ∃ l r, T.toList = l ++ a :: r ∧ T'.toList = l ++ r
  key : ∀ b, (t'.mem b).key = (t.mem b).key

theorem nodeRemove_spec (h : RbRep t T) (ha : a ∈ T.toList) (hf : T.toList.length ≤ fuel) :
    ∃ t' T', nodeRemove fuel t a = some t' ∧ Removed t t' T T' a := by
  obtain ⟨hr, ⟨n, hb⟩, -⟩ := h
  obtain ⟨t₁, b, dir, p, x, hs, hst⟩ := removeStart_spec hr hb ha hf
  obtain ⟨l, r, hT, hpx⟩ := hst.list
  have hle : p.length ≤ fuel := by
    have h₁ := length_path_le p x
    rw [hpx, length_append] at h₁
    rw [hT, length_append, length_cons] at hf
    omega
  obtain ⟨t₂, T₂, m, hlo, hbal₂, h₂⟩ := removeLoop_rest hst.rep hst.rest hst.dir hle
  obtain ⟨T₃, hrb₃, h₃⟩ := blackenRoot_spec h₂.rep hbal₂
  set t₃ := t₂.blackenRoot with ht₃
  have hl : T₃.toList = l ++ r := by rw [h₃.list, h₂.list, hpx]
  have ha₃ : a ∉ T₃.toList := by
    have hn := hr.2
    rw [hT, nodup_middle, nodup_cons] at hn
    rw [hl]
    exact hn.1
  -- clearing the pointers of the removed node does not touch the tree
  have hm (e : A) (he : e ≠ a) :
      ((t₃.setChild a true none).setChild a false none).mem e = t₃.mem e := by
    rw [setChild_mem, if_neg he, setChild_mem, if_neg he]
  have hk (e : A) :
      (((t₃.setChild a true none).setChild a false none).mem e).key = (t₃.mem e).key := by
    rw [setChild_mem, setChild_mem]
    split_ifs <;> rfl
  have hste : nodeRemove fuel t a = some
      { (t₃.setChild a true none).setChild a false none with ndel := t₃.ndel + 1 } := by
    rw [nodeRemove]
    simp only [hs, Option.bind_eq_bind, Option.bind_some, hlo, ← ht₃]
    rfl
  refine ⟨_, T₃, hste, ⟨⟨?_, hrb₃.rep.2⟩, hrb₃.bal, hrb₃.black⟩, ⟨l, r, hT, hl⟩, fun e => ?_⟩
  · exact hrb₃.rep.1.congr fun e he => hm e fun hea => ha₃ (hea ▸ he)
  · rw [hk, h₃.key, h₂.key, hst.key]

end OpenSync.DsTree
