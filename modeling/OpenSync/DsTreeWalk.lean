import OpenSync.DsTreeRemove

/-!
# Traversal and lookup

`ds_tree_next` and `ds_tree_prev` are one function of the side `d`, and so is what they find: the next
node of the sequence read in direction `d`, which is the nearest node of the child on that side or the
first node ahead in the context.
-/

namespace OpenSync.DsTree
open List hiding after
open RbTree RbTree.Shape

variable {A K : Type}

section Walk

variable {t : Ds A K} {T : Shape A} {fuel : ℕ}

variable (d : Bool)

theorem nodeEnd_spec {p par : Option A} (h : Repr t.mem T p par)
    (hf : T.toList.length ≤ fuel) : nodeEnd (!d) fuel t p = some (T.seq d).head? := by
  cases p with
  | none =>
    cases T with
    | nil => rw [nodeEnd, seq_nil]; rfl
    | node => cases h.1
  | some a =>
    obtain ⟨q, c, m, x, rfl, hq, hl⟩ := endLoop_spec (!d) h hf
    rw [nodeEnd, hl, seq_plug, seq_branch, seq_nil, ahead_eq_nil hq]
    rfl

theorem climbLoop_spec [DecidableEq A] {p : Path A} {a : A}
    (hc : ReprCtx t.mem t.root p (some a) (t.mem a).parent) (ha : a ∉ nodes p)
    (hn : (nodes p).Nodup) (hf : p.length < fuel) : climbLoop t d fuel a = some (ahead d p).head? := by
  induction p generalizing a fuel with
  | nil =>
    obtain ⟨fuel, rfl⟩ : ∃ k, fuel = k + 1 := ⟨fuel - 1, by omega⟩
    rw [climbLoop, hc.2, ahead_nil]
    rfl
  | cons f p ih =>
    obtain ⟨fuel, rfl⟩ : ∃ k, fuel = k + 1 := ⟨fuel - 1, by omega⟩
    obtain ⟨hp, hq, -, hs, hc'⟩ := hc
    rw [nodes_cons, cons_append, nodup_cons, mem_append, not_or, nodup_append] at hn
    rw [climbLoop, hp]
    rcases Bool.eq_or_eq_not f.dir d with hd | hd
    · rw [hd] at hq
      rw [ahead_cons_self hd]
      simp only [hq, if_true]
      exact ih hc' hn.1.2 hn.2.2.1 (by simpa using hf)
    · have hne : (t.mem f.a).child d ≠ some a := by
        intro he
        rw [hd, Bool.not_not, he] at hs
        exact ha (by simp [hs.mem_root])
      rw [ahead_cons_not hd]
      simp only [hne, if_false]
      rfl

theorem nodeStep_spec [DecidableEq A] {a : A} {l r : List A} (h : Rep t T)
    (hl : T.seq d = l ++ a :: r) (hf : T.toList.length ≤ fuel) : nodeStep d fuel t a = some r.head? := by
  have ha : a ∈ T.toList := by
    have : a ∈ T.seq d := by simp [hl]
    cases d <;> simpa [seq] using this
  obtain ⟨p, c, l', r', rfl⟩ := exists_plug ha
  obtain ⟨x, y, hxy⟩ := node_eq_branch (!d) c l' a r'
  rw [hxy] at h hl hf
  obtain ⟨q, par, hct, hre, hn⟩ := h.elim
  obtain ⟨rfl, hp, -, -, hy⟩ := repr_branch.mp hre
  rw [Bool.not_not] at hy
  have hap : a ∉ nodes p := fun hm => (nodup_append.mp hn).2.2 a hm a (by simp) rfl
  -- the node splits the sequence in one way only
  have hr : r = y.seq d ++ ahead d p := by
    have hnd : (l ++ a :: r).Nodup := by
      rw [← hl]
      cases d <;> simpa [seq] using h.2
    rw [nodup_middle, nodup_cons, mem_append, not_or] at hnd
    rw [seq_plug, seq_branch, ← append_assoc, append_assoc _ _ (ahead d p), cons_append] at hl
    exact ((append_cons_inj_of_notMem hnd.1.1 hnd.1.2).mp hl.symm).2.2
  have hle : p.length + y.toList.length < (plug p (branch (!d) c x a y)).toList.length := by
    have h₁ := length_path_le p nil
    rw [(toList_plug_perm ..).length_eq] at h₁ ⊢
    rw [length_append] at h₁ ⊢
    rw [length_branch]
    simp [toList] at h₁
    omega
  rw [nodeStep, hr]
  cases hc : (t.mem a).child d with
  | some b =>
    rw [hc] at hy
    change nodeEnd (!d) fuel t (some b) = _
    rw [nodeEnd_spec d hy (by omega)]
    cases hs : y.seq d with
    | cons e s => rfl
    | nil =>
      have hb : b ∈ y.seq d := by
        have := hy.mem_root
        cases d <;> simpa [seq] using this
      rw [hs] at hb
      cases hb
  | none =>
    rw [hc] at hy
    cases y with
    | node => cases hy.1
    | nil =>
      rw [seq_nil]
      exact climbLoop_spec d (hp ▸ hct) hap (nodup_append.mp hn).1 (by omega)

theorem visitLoop_spec [DecidableEq A] {l r : List A} {rounds : ℕ} (h : Rep t T)
    (hl : T.seq d = l ++ r) (hf : T.toList.length ≤ fuel) (hr : r.length ≤ rounds) :
    visitLoop (nodeStep d fuel t) rounds r.head? = some r := by
  induction r generalizing l rounds with
  | nil => cases rounds <;> rfl
  | cons a r ih =>
    obtain ⟨rounds, rfl⟩ : ∃ k, rounds = k + 1 := ⟨rounds - 1, by simp at hr; omega⟩
    have hre := ih (l := l ++ [a]) (by rw [hl]; simp) (by simpa using hr)
    change visitLoop (nodeStep d fuel t) (rounds + 1) (some a) = _
    rw [visitLoop, nodeStep_spec d h hl hf]
    simp [hre]

end Walk

/-! ## Lookup -/

structure TotalPreorder (cmp : K → K → ℤ) : Prop where
  swap : ∀ a b, cmp a b < 0 ↔ 0 < cmp b a
  trans : ∀ a b c, cmp a b ≤ 0 → cmp b c ≤ 0 → cmp a c ≤ 0

namespace TotalPreorder

variable {cmp : K → K → ℤ} (h : TotalPreorder cmp) {a b c : K}
include h

theorem lt_of_le_of_lt (hab : cmp a b ≤ 0) (hbc : cmp b c < 0) : cmp a c < 0 := by
  by_contra hac
  have hca : cmp c a ≤ 0 := not_lt.mp fun hlt => hac ((h.swap a c).mpr hlt)
  have hcb := h.trans c a b hca hab
  have := (h.swap b c).mp hbc
  omega

theorem gt_of_gt_of_le (hac : 0 < cmp a c) (hab : cmp a b ≤ 0) : 0 < cmp b c := by
  by_contra hbc
  have := h.trans a b c hab (not_lt.mp hbc)
  omega

theorem ge_of_ge_of_le (hac : 0 ≤ cmp a c) (hab : cmp a b ≤ 0) : 0 ≤ cmp b c := by
  by_contra hbc
  have := h.lt_of_le_of_lt hab (not_le.mp hbc)
  omega

end TotalPreorder

def SortedBy (cmp : K → K → ℤ) (t : Ds A K) (l : List A) : Prop :=
  l.Pairwise fun a b => cmp (t.mem a).key (t.mem b).key ≤ 0

variable {cmp : K → K → ℤ}

def Finds (cmp : K → K → ℤ) (t : Ds A K) (l : List A) (key : K) : Option A → Prop
  | none => ∀ a ∈ l, cmp (t.mem a).key key ≠ 0
  | some a => a ∈ l ∧ cmp (t.mem a).key key = 0

theorem findLoop_spec (hcm : TotalPreorder cmp) {t : Ds A K} {T : Shape A} {p par : Option A}
    (key : K) {fuel : ℕ} (h : Repr t.mem T p par) (hs : SortedBy cmp t T.toList) (hfu : T.toList.length ≤ fuel) :
    ∃ r, findLoop cmp t key fuel p = some r ∧ Finds cmp t T.toList key r := by
  induction T generalizing p par fuel with
  | nil =>
    obtain rfl : p = none := h
    exact ⟨none, by cases fuel <;> rfl, by simp [Finds, toList]⟩
  | node c l a r ihl ihr =>
    obtain ⟨rfl, -, -, hl, hr⟩ := h
    rw [toList, length_append, length_cons] at hfu
    obtain ⟨fuel, rfl⟩ : ∃ k, fuel = k + 1 := ⟨fuel - 1, by omega⟩
    obtain ⟨hsl, hsr, hc⟩ := pairwise_append.mp hs
    obtain ⟨har, hsr⟩ := pairwise_cons.mp hsr
    rw [findLoop]
    rcases lt_trichotomy (cmp (t.mem a).key key) 0 with hlt | heq | hgt
    · obtain ⟨res, hre, hf⟩ := ihr hr hsr (show r.toList.length ≤ fuel by omega)
      refine ⟨res, by simpa [hlt.ne, hlt] using hre, ?_⟩
      cases res with
      | some b => exact ⟨by simp [toList, hf.1], hf.2⟩
      | none =>
        intro b hb
        rw [toList, mem_append, mem_cons] at hb
        rcases hb with hb | rfl | hb
        · exact (hcm.lt_of_le_of_lt (hc b hb a mem_cons_self) hlt).ne
        · exact hlt.ne
        · exact hf b hb
    · exact ⟨some a, by simp [heq], by simp [toList], heq⟩
    · obtain ⟨res, hre, hf⟩ := ihl hl hsl (show l.toList.length ≤ fuel by omega)
      refine ⟨res, by simpa [hgt.ne', hgt.not_gt] using hre, ?_⟩
      cases res with
      | some b => exact ⟨by simp [toList, hf.1], hf.2⟩
      | none =>
        intro b hb
        rw [toList, mem_append, mem_cons] at hb
        rcases hb with hb | rfl | hb
        · exact hf b hb
        · exact hgt.ne'
        · exact (hcm.gt_of_gt_of_le hgt (har b hb)).ne'

/-! ## The place of a key -/

theorem descends_split (hc : TotalPreorder cmp) {t : Ds A K} {key : K} {q : Path A}
    (hd : Descends cmp t key q) (hs : SortedBy cmp t (before q ++ after q)) :
    (∀ b ∈ before q, cmp (t.mem b).key key < 0) ∧ ∀ b ∈ after q, 0 ≤ cmp (t.mem b).key key := by
  induction q with
  | nil => exact ⟨nofun, nofun⟩
  | cons f q ih =>
    obtain ⟨hf, hq⟩ := forall_mem_cons.mp hd
    have hsu : (before q ++ after q).Sublist (before (f :: q) ++ after (f :: q)) := by
      refine Sublist.append ?_ ?_
      · exact sublist_append_left ..
      · exact sublist_append_right ..
    obtain ⟨hb, ha⟩ := ih hq (hs.sublist hsu)
    cases hdi : f.dir with
    | true =>
      rw [hdi] at hf
      have hlt : cmp (t.mem f.a).key key < 0 := of_decide_eq_true hf.symm
      have hm : SortedBy cmp t (f.sib.toList ++ [f.a]) := by
        refine List.Pairwise.sublist ?_ hs
        simp only [before, hdi, if_true]
        exact (sublist_append_right ..).trans (sublist_append_left ..)
      have hsi := (pairwise_append.mp hm).2.2
      simp only [before, after, hdi, if_true, nil_append]
      refine ⟨fun b hb' => ?_, ha⟩
      rcases mem_append.mp hb' with hb' | hb'
      · exact hb b hb'
      · rcases mem_append.mp hb' with hb' | hb'
        · exact hc.lt_of_le_of_lt (hsi b hb' f.a (by simp)) hlt
        · rw [mem_singleton.mp hb']
          exact hlt
    | false =>
      rw [hdi] at hf
      have hge : 0 ≤ cmp (t.mem f.a).key key := not_lt.mp (of_decide_eq_false hf.symm)
      have hm : SortedBy cmp t (f.a :: f.sib.toList) := by
        refine List.Pairwise.sublist ?_ hs
        simp only [after, hdi]
        exact (sublist_append_left ..).trans (sublist_append_right ..)
      have hsi := (pairwise_cons.mp hm).1
      simp only [before, after, hdi, Bool.false_eq_true, if_false, append_nil]
      refine ⟨hb, fun b hb' => ?_⟩
      rcases mem_append.mp hb' with hb' | hb'
      · rcases mem_cons.mp hb' with rfl | hb'
        · exact hge
        · exact hc.ge_of_ge_of_le hge (hsi b hb')
      · exact ha b hb'

end OpenSync.DsTree
