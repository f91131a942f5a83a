import OpenSync.Template

/-!
# The references of a rule

Each tag and each group has one reference in the detected list, and a rule that is a template has at
least one.
-/

namespace OpenSync.Template
open List

open Tags

def refKey (r : Entry) : Text × Bool := (r.value, isGroup r)

def OneRefEach (refs : List Entry) : Prop := Keyed.Unique refKey refs

variable {refs : List Entry}

theorem OneRefEach.nodup (h : OneRefEach refs) : refs.Nodup := Nodup.of_map _ h

def Kind.group (k : Kind) : Bool := k.base ≠ 0

theorem detectVars_keeps (k : Kind) {P : List Entry → Prop}
    (ha : ∀ refs name t, P refs → P (addRef k refs name (filterSign t).1)) (s : Text)
    (h : P refs) : P (detectVars k s refs) := by
  fun_induction detectVars k s refs with
  | case1 => exact h
  | case2 => exact h
  | case3 s refs pre c t hs hc ih => exact ih h
  | case4 s refs pre c t hs hc ht ih => exact ih h
  | case5 s refs pre c t hs hc name rest ht ih => exact ih (ha _ _ _ h)

variable {k : Kind}

theorem isGroup_sign (hk : k = tagKind ∨ k = groupKind) (name t : Text) :
    isGroup ⟨name, k.base ||| (filterSign t).1⟩ = k.group := by
  have hs : (filterSign t).1 ∈ [0, flagDevice, flagCloud, flagLocal] := by
    unfold filterSign
    split <;> simp
  have ha : ∀ f ∈ [0, flagDevice, flagCloud, flagLocal], decide ((tagKind.base ||| f) &&& flagGroup ≠ 0) = false ∧
        decide ((groupKind.base ||| f) &&& flagGroup ≠ 0) = true := by
    simp only [forall_mem_cons, not_mem_nil, false_imp_iff, implies_true, and_true]
    decide
  rcases hk with rfl | rfl
  · exact (ha _ hs).1
  · exact (ha _ hs).2

variable {name : Text}

theorem find_isNone_iff (hk : k = tagKind ∨ k = groupKind) (hp : k = tagKind → ∀ r ∈ refs, isGroup r = false) :
    (entryFindByValFlags refs name k.base).isNone ↔ ∀ r ∈ refs, refKey r ≠ (name, k.group) := by
  rw [Option.isNone_iff_eq_none, entryFindByValFlags, find?_eq_none]
  apply forall₂_congr
  intro r hr
  rcases hk with rfl | rfl
  · simp [refKey, hp rfl r hr, tagKind, Kind.group]
  · have hbi : isGroup r = true ↔ r.flags &&& groupKind.base ≠ 0 := decide_eq_true_iff
    rw [Bool.and_eq_true, Bool.or_eq_true, decide_eq_true_iff, decide_eq_true_iff, decide_eq_true_iff,
      ← hbi, refKey, Ne, Prod.mk.injEq, show groupKind.group = true from rfl]
    tauto

theorem addRef_oneRefEach (hk : k = tagKind ∨ k = groupKind)
    (hp : k = tagKind → ∀ r ∈ refs, isGroup r = false) (h : OneRefEach refs) (name t : Text) :
    OneRefEach (addRef k refs name (filterSign t).1) := by
  unfold addRef
  split_ifs with hn
  · have hne := (find_isNone_iff hk hp).mp hn
    have hpe : (entryAdd refs ⟨name, k.base ||| (filterSign t).1⟩).Perm (_ :: refs) := Keyed.insert_perm strLt _ refs
    apply ((hpe.map refKey).nodup_iff).mpr
    refine nodup_cons.mpr ⟨?_, h⟩
    intro hm
    obtain ⟨r, hr, hke⟩ := mem_map.mp hm
    exact hne r hr (hke.trans (congrArg (Prod.mk name) (isGroup_sign hk name t)))
  · exact h

variable {r : Entry}

theorem mem_addRef {f : Flags} (h : r ∈ addRef k refs name f) : r ∈ refs ∨ r = ⟨name, k.base ||| f⟩ := by
  unfold addRef at h
  split_ifs at h
  · exact (mem_cons.mp ((Keyed.insert_perm strLt _ refs).mem_iff.mp h)).symm
  · exact .inl h

theorem detectRefs_oneRefEach (rule : Text) : OneRefEach (detectRefs rule) := by
  have ht : OneRefEach (detectVars tagKind rule []) ∧ ∀ r ∈ detectVars tagKind rule [], isGroup r = false := by
    apply detectVars_keeps tagKind (P := fun refs => OneRefEach refs ∧ ∀ r ∈ refs, isGroup r = false)
    · rintro refs name t ⟨ho, hp⟩
      refine ⟨addRef_oneRefEach (.inl rfl) (fun _ => hp) ho name t, ?_⟩
      intro r hr
      rcases mem_addRef hr with hr | rfl
      · exact hp r hr
      · exact isGroup_sign (.inl rfl) name t
    · exact ⟨nodup_nil, by simp⟩
  apply detectVars_keeps groupKind (P := OneRefEach)
  · intro refs name t ho
    exact addRef_oneRefEach (.inr rfl) (by simp [tagKind, groupKind]) ho name t
  · exact ht.1

/-! ## Templates have references -/

/-- A reference of a kind starts somewhere in the text and has an end. -/
def HasRef (k : Kind) (s : Text) : Prop :=
  ∃ a b, s = a ++ '$' :: k.opening :: b ∧ k.closing ∈ b

variable {s : Text}

theorem HasRef.of_suffix (h : HasRef k s) (pre : Text) : HasRef k (pre ++ s) := by
  obtain ⟨a, b, rfl, hb⟩ := h
  exact ⟨pre ++ a, b, by simp, hb⟩

theorem addRef_ne_nil {f : Flags} : addRef k refs name f ≠ [] := by
  unfold addRef
  split_ifs with h
  · intro hn
    have hp : (entryAdd refs ⟨name, k.base ||| f⟩).Perm (_ :: refs) := Keyed.insert_perm strLt _ refs
    rw [hn] at hp
    exact cons_ne_nil _ _ (nil_perm.mp hp)
  · rintro rfl
    exact h rfl

variable {c : Char}

theorem mem_filterSign {t : Text} (hc : c ∈ t) (hs : c ∉ ['@', '#', '*']) : c ∈ (filterSign t).2 := by
  unfold filterSign
  split
  all_goals simp_all

theorem cutAt_isSome (h : c ∈ s) : ∃ p, cutAt c s = some p := by
  induction s with
  | nil => simp at h
  | cons d s ih =>
    unfold cutAt
    by_cases hd : d = c
    · exact ⟨_, if_pos hd⟩
    · obtain ⟨p, hp⟩ := ih ((mem_cons.mp h).resolve_left fun he => hd he.symm)
      exact ⟨_, by rw [if_neg hd, hp]; rfl⟩

theorem HasRef.closing_mem {t : Text} (h : HasRef k (c :: t)) : k.closing ∈ t := by
  obtain ⟨a, b, heq, hb⟩ := h
  cases a with
  | nil =>
    obtain ⟨-, rfl⟩ : c = '$' ∧ t = k.opening :: b := by simpa using heq
    exact mem_cons_of_mem _ hb
  | cons d a =>
    obtain ⟨-, rfl⟩ : c = d ∧ t = a ++ '$' :: k.opening :: b := by simpa using heq
    simp [hb]

theorem HasRef.next (h : HasRef k s) : ∃ pre c t,
    cutAt '$' s = some (pre, c :: t) ∧ k.closing ∈ t ∧ (c = k.opening ∨ HasRef k (c :: t)) := by
  induction s with
  | nil =>
    obtain ⟨a, b, heq, -⟩ := h
    simp at heq
  | cons d s ih =>
    obtain ⟨a, b, heq, hb⟩ := h
    cases a with
    | nil =>
      obtain ⟨rfl, rfl⟩ : d = '$' ∧ s = k.opening :: b := by simpa using heq
      exact ⟨[], k.opening, b, by simp [cutAt], hb, .inl rfl⟩
    | cons d' a =>
      obtain ⟨rfl, hs⟩ : d = d' ∧ s = a ++ '$' :: k.opening :: b := by simpa using heq
      have hr : HasRef k s := ⟨a, b, hs, hb⟩
      by_cases hd : d = '$'
      · obtain ⟨c, t, rfl⟩ : ∃ c t, s = c :: t := exists_cons_of_ne_nil (by simp [hs])
        exact ⟨[], c, t, by simp [cutAt, hd], hr.closing_mem, .inr hr⟩
      · obtain ⟨pre, c, t, hcu, hc, hn⟩ := ih hr
        exact ⟨d :: pre, c, t, by simp [cutAt, hd, hcu], hc, hn⟩

theorem detectVars_ne_nil (hk : k.closing ∉ ['@', '#', '*']) (h : HasRef k s)
    (refs : List Entry) : detectVars k s refs ≠ [] := by
  obtain ⟨pre, c, t, hcu, hcl, hn⟩ := h.next
  fun_induction detectVars k s refs generalizing pre c t with
  | case1 s refs hs => simp [hs] at hcu
  | case2 s refs pre' hs => simp [hs] at hcu
  | case3 s refs pre' c' t' hs hc ih =>
    obtain ⟨rfl, rfl, rfl⟩ : pre' = pre ∧ c' = c ∧ t' = t := by simpa [hs] using hcu
    have hr := hn.resolve_left hc
    obtain ⟨pre₂, c₂, t₂, hcut₂, hclose₂, hnext₂⟩ := hr.next
    exact ih hr pre₂ c₂ t₂ hcut₂ hclose₂ hnext₂
  | case4 s refs pre' c' t' hs hc ht ih =>
    -- the end is there
    obtain ⟨rfl, rfl, rfl⟩ : pre' = pre ∧ c' = c ∧ t' = t := by simpa [hs] using hcu
    obtain ⟨p, hp⟩ := cutAt_isSome (mem_filterSign hcl hk)
    simp [ht] at hp
  | case5 s refs pre' c' t' hs hc name rest ht ih =>
    exact detectVars_keeps k (P := (· ≠ [])) (fun _ _ _ _ => addRef_ne_nil) rest addRef_ne_nil

theorem isTemplate_hasRef (h : isTemplate s = true) : HasRef tagKind s ∨ HasRef groupKind s := by
  fun_induction isTemplate s with
  | case1 => simp at h
  | case2 => simp at h
  | case3 s pre c t hs hc =>
    obtain ⟨rfl, hcl⟩ : c = tagKind.opening ∧ tagKind.closing ∈ t := by simpa using hc
    exact .inl ⟨pre, t, (cutAt_eq_some hs).1, hcl⟩
  | case4 s pre c t hs hc hc' =>
    obtain ⟨rfl, hcl⟩ : c = groupKind.opening ∧ groupKind.closing ∈ t := by simpa using hc'
    exact .inr ⟨pre, t, (cutAt_eq_some hs).1, hcl⟩
  | case5 s pre c t hs hc hc' ih =>
    have hsp : s = (pre ++ ['$']) ++ c :: t := by rw [(cutAt_eq_some hs).1]; simp
    rw [hsp]
    exact (ih h).imp (HasRef.of_suffix · _) (HasRef.of_suffix · _)

variable {rule : Text}

theorem detectRefs_ne_nil (h : isTemplate rule = true) : detectRefs rule ≠ [] := by
  rcases isTemplate_hasRef h with ht | hg
  · apply detectVars_keeps groupKind (P := (· ≠ [])) (fun _ _ _ _ => addRef_ne_nil)
    exact detectVars_ne_nil (by decide) ht []
  · exact detectVars_ne_nil (by decide) hg _

/-! ## The filter of a reference -/

/-- The filter flags that the walk takes for a reference. -/
def filterFlags (refs : List Entry) (r : Entry) : Flags :=
  match entryFindByValFlags refs r.value r.flags with
  | some f => varFlags f.flags
  | none => 0

theorem find_isSome (hr : r ∈ refs) :
    ∃ f ∈ refs, f.value = r.value ∧ entryFindByValFlags refs r.value r.flags = some f := by
  have hs : ((r.flags = 0 || r.flags &&& r.flags ≠ 0) && decide (r.value = r.value)) = true := by
    by_cases h0 : r.flags = 0
    · simp [h0]
    · simp [UInt8.and_self, h0]
  cases hf : entryFindByValFlags refs r.value r.flags with
  | none => exact absurd hs (find?_eq_none.mp hf r hr)
  | some f =>
    have hp := find?_some hf
    exact ⟨f, mem_of_find?_eq_some hf, by simpa using (Bool.and_eq_true_iff.mp hp).2, rfl⟩

/-- The flags that a reference can have. -/
def refFlags : List Flags := [0, flagDevice, flagCloud, flagLocal, flagGroup, flagGroup ||| flagDevice,
  flagGroup ||| flagCloud, flagGroup ||| flagLocal]

theorem detectRefs_flags (hr : r ∈ detectRefs rule) : r.flags ∈ refFlags := by
  have ha : ∀ k, k = tagKind ∨ k = groupKind → ∀ (refs : List Entry) (name t : Text),
      (∀ r ∈ refs, r.flags ∈ refFlags) → ∀ r ∈ addRef k refs name (filterSign t).1, r.flags ∈ refFlags := by
    intro k hk refs name t hre r hr
    rcases mem_addRef hr with hr | rfl
    · exact hre r hr
    have hs : (filterSign t).1 ∈ [0, flagDevice, flagCloud, flagLocal] := by
      unfold filterSign
      split <;> simp
    have hal : ∀ f ∈ [0, flagDevice, flagCloud, flagLocal], tagKind.base ||| f ∈ refFlags ∧
        groupKind.base ||| f ∈ refFlags := by decide +kernel
    rcases hk with rfl | rfl
    · exact (hal _ hs).1
    · exact (hal _ hs).2
  have ht := detectVars_keeps tagKind (P := fun refs => ∀ r ∈ refs, r.flags ∈ refFlags)
    (ha tagKind (.inl rfl)) rule (show ∀ r ∈ ([] : List Entry), r.flags ∈ refFlags by simp)
  exact detectVars_keeps groupKind (P := fun refs => ∀ r ∈ refs, r.flags ∈ refFlags) (ha groupKind (.inr rfl)) rule
    ht r hr

theorem filterFlags_detectRefs (hr : r ∈ detectRefs rule) :
    filterFlags (detectRefs rule) r = varFlags r.flags ∨ varFlags r.flags = 0 := by
  obtain ⟨f, hf, hv, hfi⟩ := find_isSome hr
  by_cases hk : isGroup f = isGroup r
  · have hfr : f = r := inj_on_of_nodup_map (detectRefs_oneRefEach rule) hf hr (Prod.ext hv hk)
    exact .inl (by rw [filterFlags, hfi, hfr])
  have hs : r.flags = 0 ∨ f.flags &&& r.flags ≠ 0 := by
    have hp := find?_some hfi
    simpa using (Bool.and_eq_true_iff.mp hp).1
  have ha : ∀ a ∈ refFlags, ∀ b ∈ refFlags, (b = 0 ∨ a &&& b ≠ 0) →
      ¬ (decide (a &&& flagGroup ≠ 0) = decide (b &&& flagGroup ≠ 0)) → varFlags a = varFlags b ∨ varFlags b = 0 := by
    decide +kernel
  have hfl := ha f.flags (detectRefs_flags hf) r.flags (detectRefs_flags hr) hs hk
  rwa [filterFlags, hfi]

theorem filterFlags_eq (ho : OneRefEach refs) (hr : r ∈ refs)
    (hk : ∀ r' ∈ refs, r'.value = r.value → isGroup r' = isGroup r) : filterFlags refs r = varFlags r.flags := by
  obtain ⟨f, hf, hv, hfi⟩ := find_isSome hr
  have hfr : f = r := inj_on_of_nodup_map ho hf hr (Prod.ext hv (hk f hf hv))
  rw [filterFlags, hfi, hfr]

end OpenSync.Template
