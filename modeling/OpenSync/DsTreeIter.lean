import OpenSync.DsTreeSequence

/-!
# Iteration with removals

`ds_tree_foreach_iter` keeps the node after the current one, so that the current one may be removed. The tree and the
iterator both count removals; the next step fails if the tree has seen others.
-/

namespace OpenSync.DsTree
open List Option RbTree RbTree.Shape

/-- `ds_tree_iter_t` without the tree it belongs to. -/
structure Iter (A : Type) where
  ndel : UInt32
  curr : Option A
  next : Option A

variable {A K : Type} [DecidableEq A]

section

variable (fuel : ℕ) (t : Ds A K)

def nodeNext : Option A → Option (Option A)
  | none => some none
  | some a => next fuel t a

def ifirst : Option (Iter A) :=
  match t.root with
  | none => some ⟨t.ndel, none, none⟩
  | some root => do
    let curr ← nodeMin fuel t (some root)
    let next ← nodeNext fuel t curr
    some ⟨t.ndel, curr, next⟩

/-- A failed assertion has the result `none` as well. -/
def inext (iter : Iter A) : Option (Iter A) :=
  if iter.ndel ≠ t.ndel then none
  else
    match iter.next with
    | none => some { iter with curr := none }
    | some a => do
      let next ← next fuel t a
      some { iter with curr := some a, next }

def iremove (iter : Iter A) : Option (Ds A K × Iter A) :=
  if iter.ndel ≠ t.ndel then none
  else
    match iter.curr with
    | none => some (t, iter)
    | some a => do
      let t ← nodeRemove fuel t a
      some (t, { iter with curr := none, ndel := iter.ndel + 1 })

end

section

variable (fuel : ℕ) (removes : A → Bool)

def iterBody (t : Ds A K) (iter : Iter A) (a : A) : Option (Ds A K × Iter A) :=
  if removes a then iremove fuel t iter else some (t, iter)

def foreachIterLoop : ℕ → Ds A K → Iter A → Option (List A × Ds A K)
  | 0, _, _ => none
  | rounds + 1, t, iter =>
    match iter.curr with
    | none => some ([], t)
    | some a => do
      let (t, iter) ← iterBody fuel removes t iter a
      let iter ← inext fuel t iter
      let (visited, t) ← foreachIterLoop rounds t iter
      some (a :: visited, t)

/-- `ds_tree_foreach_iter` with a body that removes some of the elements: what it visits, and the tree it leaves. -/
def foreachIter (t : Ds A K) : Option (List A × Ds A K) := do
  let iter ← ifirst fuel t
  foreachIterLoop fuel removes fuel t iter

end

variable {t t' : Ds A K} {T : Shape A} {a : A} {d : Bool} {fuel : ℕ} {rot : Ds A K × A} {more : Ds A K × Bool}

/-! ## The counter -/

@[grind =] theorem ndel_setProp (c : Color) : (t.setProp a c).ndel = t.ndel := rfl

@[grind =] theorem ndel_setParentOpt (p par : Option A) : (t.setParentOpt p par).ndel = t.ndel := by cases p <;> rfl

@[grind =] theorem ndel_relink (par : Option A) (a : A) (p : Option A) : (t.relink par a p).ndel = t.ndel := by
  cases par <;> rfl

@[grind →] theorem ndel_rbtRotate (h : rbtRotate t a d = some rot) : rot.1.ndel = t.ndel := by
  simp only [rbtRotate, bstRotate, bind_eq_bind, bind_eq_some_iff, some.injEq] at h
  obtain ⟨_, ⟨_, -, rfl⟩, rfl⟩ := h
  exact (ndel_relink ..).trans (ndel_setParentOpt ..)

@[grind →] theorem ndel_rbtRotateDouble (h : rbtRotateDouble t a d = some rot) : rot.1.ndel = t.ndel := by
  simp only [rbtRotateDouble, bind_eq_bind, bind_eq_some_iff] at h
  grind

@[grind →] theorem ndel_repaint {c : Color} (h : repaint t a c = some t') : t'.ndel = t.ndel := by
  simp only [repaint, bind_eq_bind, bind_eq_some_iff] at h
  grind

@[grind →] theorem ndel_repairSibling (h : repairSibling t a d = some more) : more.1.ndel = t.ndel := by
  simp only [repairSibling, bind_eq_bind] at h
  grind [bind_eq_some_iff, map_eq_some_iff]

@[grind →] theorem ndel_removeRebalance (h : removeRebalance t a d = some more) : more.1.ndel = t.ndel := by
  simp only [removeRebalance, bind_eq_bind] at h
  grind [bind_eq_some_iff, map_eq_some_iff]

theorem ndel_removeLoop {p : Option A} (h : removeLoop fuel t p d = some t') : t'.ndel = t.ndel := by
  fun_induction removeLoop fuel t p d with
  | case1 => grind
  | case2 => grind
  | case3 fuel t d base ih =>
    grind [bind_eq_some_iff]

@[grind =] theorem ndel_removeLeaf (t : Ds A K) (a : A) : (removeLeaf t a).1.ndel = t.ndel := by
  grind [removeLeaf]

theorem ndel_nodeReplace (t : Ds A K) (a b : A) : (nodeReplace t a b).ndel = t.ndel :=
  (ndel_relink ..).trans ((ndel_setParentOpt ..).trans (ndel_setParentOpt ..))

theorem ndel_removeStart {r : Ds A K × Option A × Bool} (h : removeStart fuel t a = some r) : r.1.ndel = t.ndel := by
  unfold removeStart at h
  split at h
  · obtain ⟨b, -, h⟩ := bind_eq_some_iff.mp h
    obtain ⟨q, -, h⟩ := bind_eq_some_iff.mp h
    cases h
    exact (ndel_nodeReplace ..).trans (ndel_removeLeaf ..)
  · cases h
    exact ndel_removeLeaf ..

theorem ndel_nodeRemove (h : nodeRemove fuel t a = some t') : t'.ndel = t.ndel + 1 := by
  obtain ⟨r, hr, h⟩ := bind_eq_some_iff.mp h
  obtain ⟨t₁, ht₁, h⟩ := bind_eq_some_iff.mp h
  cases h
  have hb : t₁.blackenRoot.ndel = t₁.ndel := by
    unfold Ds.blackenRoot
    split <;> rfl
  exact congrArg (· + 1) (hb.trans ((ndel_removeLoop ht₁).trans (ndel_removeStart hr)))

/-! ## Whole iterations -/

theorem ifirst_spec (h : Rep t T) (hf : T.toList.length ≤ fuel) :
    ifirst fuel t = some ⟨t.ndel, T.toList.head?, T.toList.tail.head?⟩ := by
  have hm : nodeMin fuel t t.root = some T.toList.head? := nodeEnd_spec true h.1 hf
  have hn : nodeNext fuel t T.toList.head? = some T.toList.tail.head? := by
    cases hl : T.toList with
    | nil => rfl
    | cons a l => exact nodeStep_spec (l := []) true h hl hf
  unfold ifirst
  cases hr : t.root with
  | none =>
    rw [hr] at hm
    cases hl : T.toList with
    | nil => rfl
    | cons => simp [nodeMin, nodeEnd, hl] at hm
  | some root =>
    rw [hr] at hm
    simp [hm, hn]

variable {l r : List A} {iter : Iter A}

theorem inext_spec (h : Rep t T) (hl : T.toList = l ++ r) (hf : T.toList.length ≤ fuel) (hn : iter.ndel = t.ndel)
    (hne : iter.next = r.head?) : inext fuel t iter = some ⟨t.ndel, r.head?, r.tail.head?⟩ := by
  rw [inext, if_neg (not_not.mpr hn), hne]
  cases r with
  | nil => simp [← hn]
  | cons a r =>
    have hs : next fuel t a = some r.head? := nodeStep_spec true h hl hf
    simp [hs, hn]

theorem iterBody_spec (removes : A → Bool) (h : RbRep t T) (hl : T.toList = l ++ a :: r) (hf : T.toList.length ≤ fuel) :
    ∃ t₁ T₁ curr, iterBody fuel removes t ⟨t.ndel, some a, r.head?⟩ a = some (t₁, ⟨t₁.ndel, curr, r.head?⟩) ∧ RbRep t₁ T₁ ∧
      T₁.toList = (l ++ [a].filter fun a => !removes a) ++ r ∧ ∀ b, (t₁.mem b).key = (t.mem b).key := by
  by_cases hre : removes a = true
  · obtain ⟨t₁, T₁, hr, hrem⟩ := nodeRemove_spec h (a := a) (by simp [hl]) hf
    refine ⟨t₁, T₁, none, by simp [iterBody, hre, iremove, hr, ndel_nodeRemove hr], hrem.rb, ?_, hrem.key⟩
    have hn := h.rep.2
    rw [hl, nodup_middle, nodup_cons, mem_append, not_or] at hn
    rw [hrem.erase h.rep.2, hl, erase_append_right _ hn.1.1, erase_cons_head]
    simp [hre]
  · exact ⟨t, T, some a, by simp [iterBody, hre], h, by simp [hl, hre], fun _ => rfl⟩

theorem foreachIterLoop_spec (removes : A → Bool) {rounds : ℕ} (h : RbRep t T) (hl : T.toList = l ++ r)
    (hf : T.toList.length ≤ fuel) (hr : r.length < rounds) :
    ∃ t' T', foreachIterLoop fuel removes rounds t ⟨t.ndel, r.head?, r.tail.head?⟩ = some (r, t') ∧ RbRep t' T' ∧
      T'.toList = l ++ r.filter (fun a => !removes a) ∧ ∀ b, (t'.mem b).key = (t.mem b).key := by
  induction r generalizing t T l rounds with
  | nil =>
    obtain ⟨rounds, rfl⟩ := Nat.exists_eq_add_of_lt hr
    exact ⟨t, T, rfl, h, hl, fun _ => rfl⟩
  | cons a r ih =>
    obtain ⟨rounds, rfl⟩ := Nat.exists_eq_add_of_lt hr
    obtain ⟨t₁, T₁, curr, hb, hrb₁, hl₁, hkey₁⟩ := iterBody_spec removes h hl hf
    have hfuel₁ : T₁.toList.length ≤ fuel := by
      have hle := length_filter_le (fun a => !removes a) [a]
      rw [hl] at hf
      rw [hl₁]
      simp only [length_append, length_cons, length_nil] at hle hf ⊢
      omega
    have hn : inext fuel t₁ ⟨t₁.ndel, curr, r.head?⟩ = _ := inext_spec hrb₁.rep hl₁ hfuel₁ rfl rfl
    have hlt : r.length < (a :: r).length + rounds := Nat.lt_add_right rounds r.length.lt_succ_self
    obtain ⟨t', T', hlo, hrb, hli, hk⟩ := ih hrb₁ hl₁ hfuel₁ hlt
    refine ⟨t', T', ?_, hrb, ?_, fun b => (hk b).trans (hkey₁ b)⟩
    · simp only [foreachIterLoop, head?_cons, tail_cons, hb, bind_eq_bind, bind_some, hn, hlo]
    · rw [hli, append_assoc, ← filter_append]
      rfl

/-- The iteration goes through the sequence and leaves a tree with what was not removed. -/
def Iterates (t : Ds A K) (removes : A → Bool) (l : List A) : Prop :=
  ∃ n, ∀ fuel ≥ n, ∃ t', foreachIter fuel removes t = some (l, t') ∧ RedBlack t' ∧
    InOrder t' t'.root (l.filter fun a => !removes a) ∧ ∀ b, (t'.mem b).key = (t.mem b).key

theorem foreachIter_removes {cmp : K → K → ℤ} {t : Ds A K} (h : Reachable cmp t) :
    ∃ l, InOrder t t.root l ∧ l.Nodup ∧ ∀ removes, Iterates t removes l := by
  obtain ⟨T, hT⟩ := reachable_rbRep h
  refine ⟨T.toList, hT.rep.1.inOrder, hT.rep.2, fun removes => ⟨T.toList.length + 1, fun fuel hf => ?_⟩⟩
  obtain ⟨t', T', hl, hrb, hli, hk⟩ := foreachIterLoop_spec (l := []) removes hT rfl (Nat.le_of_succ_le hf) hf
  refine ⟨t', ?_, hrb.redBlack, ?_, hk⟩
  · rw [foreachIter, ifirst_spec hT.rep (Nat.le_of_succ_le hf)]
    exact hl
  · rw [← nil_append (filter _ _), ← hli]
    exact hrb.rep.1.inOrder

theorem pairTree_iterated : Reachable intCmp pairTree ∧
    ∃ l, InOrder pairTree pairTree.root l ∧ l.Nodup ∧ ∀ removes, Iterates pairTree removes l :=
  ⟨pairTree_reachable, foreachIter_removes pairTree_reachable⟩

end OpenSync.DsTree
