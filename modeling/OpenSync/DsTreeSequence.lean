import OpenSync.DsTreeRun

/-!
# The tree as a sorted sequence

Under a comparison that is a total preorder every tree of a run is a sorted sequence: an insertion puts
the node behind exactly the smaller ones, a removal takes out that node, a lookup finds an equal key if
there is one, and the loops over the tree visit the sequence in both directions.
-/

namespace OpenSync.DsTree
open List RbTree RbTree.Shape

variable {A K : Type} [DecidableEq A] {cmp : K → K → ℤ} {t t' : Ds A K}

omit [DecidableEq A] in
theorem SortedBy.congr {l : List A} (h : SortedBy cmp t l)
    (hk : ∀ b ∈ l, (t'.mem b).key = (t.mem b).key) : SortedBy cmp t' l := by
  refine List.Pairwise.imp_of_mem (fun {a b} ha hb hab => ?_) h
  rw [hk a ha, hk b hb]
  exact hab

structure Placed (cmp : K → K → ℤ) (t t' : Ds A K) (l : List A) (a : A) (key : K) (l₁ l₂ : List A) :
    Prop where
  split : l = l₁ ++ l₂
  inOrder : InOrder t' t'.root (l₁ ++ a :: l₂)
  smaller : ∀ b ∈ l₁, cmp (t.mem b).key key < 0
  others : ∀ b ∈ l₂, 0 ≤ cmp (t.mem b).key key
  key : (t'.mem a).key = key
  keys : ∀ b ∈ l, (t'.mem b).key = (t.mem b).key

omit [DecidableEq A] in
theorem Inserted.placed (hc : TotalPreorder cmp) {T T' : Shape A} {a : A} {key : K}
    {q : Path A} (h : Inserted cmp t t' T T' a key q) (ha : a ∉ T.toList)
    (hs : SortedBy cmp t T.toList) : Placed cmp t t' T.toList a key (before q) (after q) := by
  rw [h.old] at hs
  obtain ⟨hlt, hge⟩ := descends_split hc h.descends hs
  refine ⟨h.old, ?_, hlt, hge, h.key, fun b hb => h.keys b ?_⟩
  · rw [← h.new]
    exact h.rb.rep.1.inOrder
  · rintro rfl
    exact ha hb

omit [DecidableEq A] in
theorem Placed.sorted (hc : TotalPreorder cmp) {l l₁ l₂ : List A} {a : A} {key : K}
    (h : Placed cmp t t' l a key l₁ l₂) (hs : SortedBy cmp t l) : SortedBy cmp t' (l₁ ++ a :: l₂) := by
  have hs' := hs.congr h.keys
  have ho := h.split
  subst ho
  obtain ⟨h₁, h₂, h₁₂⟩ := pairwise_append.mp hs'
  refine pairwise_append.mpr ⟨h₁, pairwise_cons.mpr ⟨fun b hb => ?_, h₂⟩, fun b hb e he => ?_⟩
  · rw [h.key, h.keys b (by simp [hb])]
    have hge := h.others b hb
    have := hc.swap (t.mem b).key key
    omega
  · rcases mem_cons.mp he with rfl | he
    · rw [h.key, h.keys b (by simp [hb])]
      exact (h.smaller b hb).le
    · exact h₁₂ b hb e he

/-- The tree is the sorted sequence `l`, and its operations are those of a sorted sequence. -/
structure RefinesSequence (cmp : K → K → ℤ) (t : Ds A K) (l : List A) : Prop where
  inOrder : InOrder t t.root l
  nodup : l.Nodup
  sorted : SortedBy cmp t l
  insert : ∀ a key, a ∉ l → ∃ n, ∀ fuel ≥ n, ∃ t' l₁ l₂, nodeInsert cmp fuel t a key = some t' ∧
    Placed cmp t t' l a key l₁ l₂
  remove : ∀ a ∈ l, ∃ n, ∀ fuel ≥ n, ∃ t', nodeRemove fuel t a = some t' ∧
    InOrder t' t'.root (l.erase a) ∧ ∀ b, (t'.mem b).key = (t.mem b).key
  find : ∀ key, ∃ n, ∀ fuel ≥ n, ∃ r, find cmp fuel t key = some r ∧ Finds cmp t l key r
  forward : ∃ n, ∀ fuel ≥ n, foreach fuel t = some l
  backward : ∃ n, ∀ fuel ≥ n, foreachReverse fuel t = some l.reverse

theorem Removed.erase {T T' : Shape A} {a : A} (h : Removed t t' T T' a)
    (hn : T.toList.Nodup) : T'.toList = T.toList.erase a := by
  obtain ⟨l, r, hT, hT'⟩ := h.list
  rw [hT, nodup_middle, nodup_cons, mem_append, not_or] at hn
  rw [hT, hT', erase_append_right _ hn.1.1, erase_cons_head]

theorem reachable_sorted (hc : TotalPreorder cmp) {t : Ds A K} (h : Reachable cmp t) :
    ∃ T, RbRep t T ∧ SortedBy cmp t T.toList := by
  induction h with
  | empty => exact ⟨nil, ⟨⟨rfl, nodup_nil⟩, ⟨0, rfl⟩, rfl⟩, List.Pairwise.nil⟩
  | insert _ ha heq ih =>
    obtain ⟨T, hT, hs⟩ := ih
    obtain ⟨T', q, hin⟩ := hT.inserted ha heq
    rw [hT.rep.inTree_iff] at ha
    refine ⟨T', hin.rb, ?_⟩
    rw [hin.new]
    exact (hin.placed hc ha hs).sorted hc hs
  | remove _ ha heq ih =>
    obtain ⟨T, hT, hs⟩ := ih
    obtain ⟨T', hr⟩ := hT.removed ha heq
    refine ⟨T', hr.rb, ?_⟩
    rw [hr.erase hT.rep.2]
    exact SortedBy.congr (hs.sublist erase_sublist) fun b _ => hr.key b

theorem foreach_spec {t : Ds A K} {T : Shape A} (h : Rep t T) {fuel : ℕ} (hf : T.toList.length ≤ fuel) :
    foreach fuel t = some T.toList ∧ foreachReverse fuel t = some T.toList.reverse := by
  have hh : head fuel t = some T.toList.head? := nodeEnd_spec true h.1 hf
  have ht : tail fuel t = some T.toList.reverse.head? := nodeEnd_spec false h.1 hf
  constructor
  · rw [foreach, hh]
    exact visitLoop_spec (l := []) true h rfl hf hf
  · rw [foreachReverse, ht]
    exact visitLoop_spec (l := []) false h rfl hf (by rwa [length_reverse])

theorem reachable_refinesSequence (hcmp : TotalPreorder cmp) {t : Ds A K} (h : Reachable cmp t) :
    ∃ l, RefinesSequence cmp t l := by
  obtain ⟨T, hT, hs⟩ := reachable_sorted hcmp h
  refine ⟨T.toList, hT.rep.1.inOrder, hT.rep.2, hs, fun a key ha => ?_, fun a ha => ?_, fun key => ?_,
    ⟨_, fun fuel hf => (foreach_spec hT.rep hf).1⟩,
    ⟨_, fun fuel hf => (foreach_spec hT.rep hf).2⟩⟩
  · refine ⟨2 * T.toList.length + 1, fun fuel hf => ?_⟩
    obtain ⟨t', T', q, heq, hin⟩ := nodeInsert_spec cmp hT ha key hf
    exact ⟨t', _, _, heq, hin.placed hcmp ha hs⟩
  · refine ⟨T.toList.length, fun fuel hf => ?_⟩
    obtain ⟨t', T', heq, hr⟩ := nodeRemove_spec hT ha hf
    refine ⟨t', heq, ?_, hr.key⟩
    rw [← hr.erase hT.rep.2]
    exact hr.rb.rep.1.inOrder
  · exact ⟨T.toList.length, fun fuel hf => findLoop_spec hcmp key hT.rep.1 hs hf⟩

theorem intCmp_totalPreorder : TotalPreorder intCmp where
  swap a b := by
    simp only [intCmp]
    omega
  trans a b c := by
    simp only [intCmp]
    omega

theorem pairTree_refinesSequence : TotalPreorder intCmp ∧ Reachable intCmp pairTree ∧
    ∃ l, RefinesSequence intCmp pairTree l :=
  ⟨intCmp_totalPreorder, pairTree_reachable, reachable_refinesSequence intCmp_totalPreorder pairTree_reachable⟩

end OpenSync.DsTree
