import OpenSync.DsTreeWalk

/-!
# Runs of insertions and removals

A tree is reachable when it comes from an empty one by inserting nodes that are not in it and removing
nodes that are. The properties below speak about the pointers only: which nodes can be reached from
the root, the colours along a path down, the parent pointers, and the sequence of nodes in order.
-/

namespace OpenSync.DsTree
open List Option RbTree RbTree.Shape

variable {A K : Type}

/-! ## What the pointers say -/

/-- The nodes that child pointers lead to from the root. -/
inductive InTree (t : Ds A K) : A → Prop
  | root {a : A} : t.root = some a → InTree t a
  | child {a b : A} {d : Bool} : InTree t a → (t.mem a).child d = some b → InTree t b

/-- A way down from a pointer to `NULL` with `k` black nodes. -/
inductive BlackPath (t : Ds A K) : Option A → ℕ → Prop
  | null : BlackPath t none 0
  | node {a : A} {d : Bool} {k : ℕ} : BlackPath t ((t.mem a).child d) k →
      BlackPath t (some a) (k + (t.mem a).prop.weight)

/-- The nodes below a pointer, from left to right. -/
inductive InOrder (t : Ds A K) : Option A → List A → Prop
  | null : InOrder t none []
  | node {a : A} {l r : List A} : InOrder t ((t.mem a).child false) l →
      InOrder t ((t.mem a).child true) r → InOrder t (some a) (l ++ a :: r)

/-- The red-black properties and the parent pointers. -/
structure RedBlack (t : Ds A K) : Prop where
  root_black : ∀ r, t.root = some r → (t.mem r).prop = .black
  red_child : ∀ a d b, InTree t a → (t.mem a).prop = .red → (t.mem a).child d = some b → (t.mem b).prop = .black
  black_height : ∃ n, ∀ k, BlackPath t t.root k → k = n
  root_parent : ∀ r, t.root = some r → (t.mem r).parent = none
  parent : ∀ a d b, InTree t a → (t.mem a).child d = some b → (t.mem b).parent = some a

section Pointers

variable {t : Ds A K} {T : Shape A}

theorem Rep.inTree_iff (h : Rep t T) (a : A) : InTree t a ↔ a ∈ T.toList := by
  constructor
  · intro ha
    induction ha with
    | root hr =>
      have hre := h.1
      rw [hr] at hre
      exact hre.mem_root
    | @child a b d _ hc ih =>
      obtain ⟨p, c, l, r, rfl⟩ := exists_plug ih
      obtain ⟨x, y, hxy⟩ := node_eq_branch d c l a r
      rw [hxy] at h ⊢
      obtain ⟨-, hx, -⟩ := h.branch
      rw [hc] at hx
      rw [(toList_plug_perm ..).mem_iff, mem_append, mem_toList_branch]
      exact .inr (.inr (.inl hx.mem_root))
  · intro ha
    obtain ⟨p, c, l, r, rfl⟩ := exists_plug ha
    obtain ⟨q, par, hct, hre, -⟩ := h.elim
    obtain rfl : q = some a := hre.1
    clear ha h hre
    -- follow the context up to the root
    induction p generalizing a par c l r with
    | nil => exact InTree.root hct.1.symm
    | cons f p ih =>
      obtain ⟨-, hq, -, -, hct⟩ := hct
      exact InTree.child (ih f.a f.color f.sib f.sib _ hct) hq

theorem Repr.inOrder {p par : Option A} (h : Repr t.mem T p par) : InOrder t p T.toList := by
  induction T generalizing p par with
  | nil =>
    obtain rfl : p = none := h
    exact InOrder.null
  | node c l a r ihl ihr =>
    obtain ⟨rfl, -, -, hl, hr⟩ := h
    exact InOrder.node (ihl hl) (ihr hr)

theorem Repr.blackPath {p par : Option A} {n k : ℕ} (h : Repr t.mem T p par) (hb : T.Bal n)
    (hk : BlackPath t p k) : k = n := by
  induction hk generalizing T par n with
  | null =>
    cases T with
    | nil => exact Eq.symm hb
    | node => cases h.1
  | @node a d k _ ih =>
    cases T with
    | nil => cases h
    | node c l b r =>
      obtain ⟨x, y, hxy⟩ := node_eq_branch d c l b r
      rw [hxy] at h hb
      obtain ⟨hab, -, hc, hx, -⟩ := repr_branch.mp h
      cases hab
      obtain ⟨-, m, rfl, hxb, -⟩ := bal_branch.mp hb
      rw [ih hx hxb, hc]

theorem RbRep.redBlack (h : RbRep t T) : RedBlack t := by
  obtain ⟨hre, ⟨n, hba⟩, hbl⟩ := h
  have hro (r : A) (hr : t.root = some r) : ∃ l s, T = node .black l r s := by
    cases T with
    | nil => cases hr.symm.trans hre.1
    | node c l a s =>
      cases (hbl : c = .black)
      cases hr.symm.trans hre.1.1
      exact ⟨l, s, rfl⟩
  have hch (a : A) (d : Bool) (b : A) (ha : InTree t a) (hb : (t.mem a).child d = some b) :
      (t.mem b).parent = some a ∧ ((t.mem a).prop = .red → (t.mem b).prop = .black) := by
    obtain ⟨p, c, l, r, rfl⟩ := exists_plug ((hre.inTree_iff a).mp ha)
    obtain ⟨x, y, hxy⟩ := node_eq_branch d c l a r
    rw [hxy] at hre hba
    obtain ⟨hc, hx, -⟩ := hre.branch
    rw [hb] at hx
    cases x with
    | nil => cases hx
    | node k l' b' r' =>
      obtain ⟨hbb, hp, hk, -, -⟩ := hx
      cases hbb
      refine ⟨hp, fun hred => ?_⟩
      obtain ⟨m, hm, -⟩ := bal_of_plug hba
      rw [hk]
      exact ((bal_branch.mp hm).1 (hc.symm.trans hred)).1
  refine ⟨fun r hr => ?_, fun a d b ha hred hb => (hch a d b ha hb).2 hred,
    ⟨n, fun k hk => hre.1.blackPath hba hk⟩, fun r hr => ?_,
    fun a d b ha hb => (hch a d b ha hb).1⟩
  · obtain ⟨l, s, rfl⟩ := hro r hr
    exact hre.1.2.2.1
  · obtain ⟨l, s, rfl⟩ := hro r hr
    exact hre.1.2.1

end Pointers

/-! ## Rounds -/

variable [DecidableEq A] {cmp : K → K → ℤ} {fuel k : ℕ}

theorem insertLoop_mono {key : K} {t : Ds A K} {base : A} {dir : Bool}
    {res : Ds A K × A × Bool} (h : insertLoop cmp key fuel t base dir = some res) :
    insertLoop cmp key (fuel + k) t base dir = some res := by
  induction fuel generalizing t base dir with
  | zero => cases h
  | succ fuel ih =>
    rw [Nat.succ_add]
    rw [insertLoop] at h ⊢
    cases hc : (t.mem base).child dir with
    | none =>
      rw [hc] at h
      exact h
    | some b =>
      rw [hc] at h
      simp only [bind_eq_bind, bind_eq_some_iff] at h ⊢
      obtain ⟨t₁, h₁, t₂, h₂, base', h₃, h₄⟩ := h
      exact ⟨t₁, h₁, t₂, h₂, base', h₃, ih h₄⟩

variable {t t' : Ds A K} {a : A}

theorem nodeInsert_mono {fuel fuel' : ℕ} {key : K} (h : nodeInsert cmp fuel t a key = some t') (hle : fuel ≤ fuel') :
    nodeInsert cmp fuel' t a key = some t' := by
  obtain ⟨k, rfl⟩ := Nat.exists_eq_add_of_le hle
  rw [nodeInsert] at h ⊢
  simp only [setNode_root] at h ⊢
  cases hr : t.root with
  | none =>
    rw [hr] at h
    exact h
  | some r =>
    rw [hr] at h
    simp only [bind_eq_bind, bind_eq_some_iff] at h ⊢
    obtain ⟨res, hl, h⟩ := h
    exact ⟨res, insertLoop_mono hl, h⟩

omit [DecidableEq A] in
theorem endLoop_mono {d : Bool} {a m : A} (h : endLoop t d fuel a = some m) : endLoop t d (fuel + k) a = some m := by
  induction fuel generalizing a with
  | zero => cases h
  | succ fuel ih =>
    rw [Nat.succ_add]
    rw [endLoop] at h ⊢
    cases hc : (t.mem a).child d with
    | none =>
      rw [hc] at h
      exact h
    | some b =>
      rw [hc] at h
      exact ih h

theorem removeLoop_mono {b : Option A} {dir : Bool}
    (h : removeLoop fuel t b dir = some t') : removeLoop (fuel + k) t b dir = some t' := by
  induction fuel generalizing t b dir with
  | zero =>
    cases b with
    | none =>
      rw [removeLoop_none] at h ⊢
      exact h
    | some a => cases h
  | succ fuel ih =>
    cases b with
    | none =>
      rw [removeLoop_none] at h ⊢
      exact h
    | some a =>
      rw [Nat.succ_add]
      rw [removeLoop] at h ⊢
      simp only [bind_eq_bind, bind_eq_some_iff] at h ⊢
      obtain ⟨⟨t₁, more⟩, h₁, h₂⟩ := h
      refine ⟨(t₁, more), h₁, ?_⟩
      cases more with
      | false => exact h₂
      | true =>
        cases hp : (t₁.mem a).parent with
        | none =>
          rw [hp] at h₂
          exact h₂
        | some q =>
          rw [hp] at h₂
          exact ih h₂

theorem nodeRemove_mono {fuel fuel' : ℕ}
    (h : nodeRemove fuel t a = some t') (hle : fuel ≤ fuel') : nodeRemove fuel' t a = some t' := by
  obtain ⟨k, rfl⟩ := Nat.exists_eq_add_of_le hle
  rw [nodeRemove] at h ⊢
  simp only [bind_eq_bind, bind_eq_some_iff] at h ⊢
  obtain ⟨⟨t₁, b, dir⟩, hs, t₂, hlo, h⟩ := h
  refine ⟨(t₁, b, dir), ?_, t₂, removeLoop_mono hlo, h⟩
  rw [removeStart] at hs ⊢
  cases hl : (t.mem a).child false with
  | none =>
    rw [hl] at hs
    exact hs
  | some l =>
    cases hr : (t.mem a).child true with
    | none =>
      rw [hl, hr] at hs
      exact hs
    | some r =>
      rw [hl, hr] at hs
      simp only [bind_eq_bind, bind_eq_some_iff] at hs ⊢
      obtain ⟨m, hen, hre⟩ := hs
      exact ⟨m, endLoop_mono hen, hre⟩

/-! ## Runs -/

/-- Trees that insertions and removals make out of an empty one, in any memory. -/
inductive Reachable (cmp : K → K → ℤ) : Ds A K → Prop
  | empty (mem : A → Node A K) (ndel : UInt32) : Reachable cmp ⟨mem, none, ndel⟩
  | insert {t t' : Ds A K} {a : A} {key : K} {fuel : ℕ} : Reachable cmp t → ¬ InTree t a →
      nodeInsert cmp fuel t a key = some t' → Reachable cmp t'
  | remove {t t' : Ds A K} {a : A} {fuel : ℕ} : Reachable cmp t → InTree t a →
      nodeRemove fuel t a = some t' → Reachable cmp t'

theorem RbRep.inserted {T : Shape A} {key : K} {fuel : ℕ} (h : RbRep t T)
    (ha : ¬ InTree t a) (heq : nodeInsert cmp fuel t a key = some t') : ∃ T' q, Inserted cmp t t' T T' a key q := by
  rw [h.rep.inTree_iff] at ha
  obtain ⟨t'', T', q, heq', hin⟩ := nodeInsert_spec cmp h ha key
    (show 2 * T.toList.length < fuel + 2 * T.toList.length + 1 by omega)
  have hs := nodeInsert_mono heq (show fuel ≤ fuel + 2 * T.toList.length + 1 by omega)
  obtain rfl : t' = t'' := some.inj (hs.symm.trans heq')
  exact ⟨T', q, hin⟩

theorem RbRep.removed {T : Shape A} {fuel : ℕ} (h : RbRep t T)
    (ha : InTree t a) (heq : nodeRemove fuel t a = some t') : ∃ T', Removed t t' T T' a := by
  rw [h.rep.inTree_iff] at ha
  obtain ⟨t'', T', heq', hr⟩ := nodeRemove_spec h ha (show T.toList.length ≤ fuel + T.toList.length by omega)
  have hs := nodeRemove_mono heq (show fuel ≤ fuel + T.toList.length by omega)
  obtain rfl : t' = t'' := some.inj (hs.symm.trans heq')
  exact ⟨T', hr⟩

theorem reachable_rbRep (h : Reachable cmp t) : ∃ T, RbRep t T := by
  induction h with
  | empty => exact ⟨nil, ⟨rfl, nodup_nil⟩, ⟨0, rfl⟩, rfl⟩
  | insert _ ha heq ih =>
    obtain ⟨T, hT⟩ := ih
    obtain ⟨T', q, hin⟩ := hT.inserted ha heq
    exact ⟨T', hin.rb⟩
  | remove _ ha heq ih =>
    obtain ⟨T, hT⟩ := ih
    obtain ⟨T', hr⟩ := hT.removed ha heq
    exact ⟨T', hr.rb⟩

/-- Every tree of a run is red-black with correct parent pointers, and on it the next insertion or
removal comes to its end without following a missing pointer. -/
theorem reachable_redBlack {t : Ds A K} (h : Reachable cmp t) :
    RedBlack t ∧ (∀ a key, ¬ InTree t a → ∃ n, ∀ fuel ≥ n, ∃ t', nodeInsert cmp fuel t a key = some t') ∧
      ∀ a, InTree t a → ∃ n, ∀ fuel ≥ n, ∃ t', nodeRemove fuel t a = some t' := by
  obtain ⟨T, hT⟩ := reachable_rbRep h
  refine ⟨hT.redBlack, fun a key ha => ⟨2 * T.toList.length + 1, fun fuel hf => ?_⟩,
    fun a ha => ⟨T.toList.length, fun fuel hf => ?_⟩⟩
  · rw [hT.rep.inTree_iff] at ha
    obtain ⟨t', -, -, heq, -⟩ := nodeInsert_spec cmp hT ha key hf
    exact ⟨t', heq⟩
  · rw [hT.rep.inTree_iff] at ha
    obtain ⟨t', -, heq, -⟩ := nodeRemove_spec hT ha hf
    exact ⟨t', heq⟩

def intCmp (a b : ℤ) : ℤ := a - b

def emptyTree : Ds ℕ ℤ := ⟨fun _ => ⟨0, .black, none, fun _ => none⟩, none, 0⟩

def singleTree : Ds ℕ ℤ := (nodeInsert intCmp 1 emptyTree 7 5).getD emptyTree

/-- Two nodes with one key. -/
def pairTree : Ds ℕ ℤ := (nodeInsert intCmp 3 singleTree 9 5).getD emptyTree

theorem pairTree_reachable : Reachable intCmp pairTree := by
  have hem : Rep emptyTree nil := ⟨rfl, nodup_nil⟩
  have hs : Rep singleTree (node .black nil 7 nil) := ⟨⟨rfl, rfl, rfl, rfl, rfl⟩, by decide⟩
  have h₁ : ¬ InTree emptyTree 7 := by
    rw [hem.inTree_iff]
    exact not_mem_nil
  have h₂ : ¬ InTree singleTree 9 := by
    rw [hs.inTree_iff]
    decide
  have heq₁ : nodeInsert intCmp 1 emptyTree 7 5 = some singleTree := rfl
  have heq₂ : nodeInsert intCmp 3 singleTree 9 5 = some pairTree := rfl
  exact .insert (.insert (.empty _ _) h₁ heq₁) h₂ heq₂

theorem pairTree_redBlack : RedBlack pairTree ∧ ∃ n, ∀ fuel ≥ n, ∃ t', nodeRemove fuel pairTree 7 = some t' := by
  obtain ⟨hrb, -, hr⟩ := reachable_redBlack pairTree_reachable
  exact ⟨hrb, hr 7 (InTree.root rfl)⟩

end OpenSync.DsTree
