import OpenSync.TemplatePieces

/-!
# One language

The detection looks for tags and for groups one after the other, the expansion for both at once. They agree on a rule
if each reference has an end, and if what the detection takes for a reference inside one of the other kind, or loses to
such a one, is also a reference elsewhere in the rule.
-/

namespace OpenSync.Template
open List

open Tags

variable {k : Kind} {s t : Text} {tv : List Binding} {ps : List Piece}

/-! ## References of one kind -/

def opensKind (k : Kind) : Text → Option Text
  | '$' :: c :: t => if c = k.opening then some t else none
  | _ => none

theorem opensKind_eq_some (h : opensKind k s = some t) : s = '$' :: k.opening :: t := by
  unfold opensKind at h
  split at h
  · split_ifs at h with hc
    obtain rfl := Option.some.inj h
    rw [hc]
  · exact nomatch h

/-- The places and names of the references of one kind, for a reader who does not know the other one. -/
@[grind =] def alone (k : Kind) (s : Text) : List (Nat × Text) :=
  match s with
  | [] => []
  | c :: s =>
    match hopen : opensKind k (c :: s) with
    | none => alone k s
    | some t =>
      match hcut : cutAt k.closing (filterSign t).2 with
      | none => alone k (filterSign t).2
      | some (name, rest) => ((c :: s).length, name) :: alone k rest
termination_by s.length
decreasing_by
  · simp
  · have h' := filterSign_length t
    rw [opensKind_eq_some hopen, List.length_cons, List.length_cons]
    omega
  · have h := cutAt_length hcut
    have h' := filterSign_length t
    rw [opensKind_eq_some hopen, List.length_cons, List.length_cons]
    omega

variable {c : Char}

theorem alone_cons (h : opensKind k (c :: s) = none) : alone k (c :: s) = alone k s := by
  rw [alone]
  split
  · rfl
  · rename_i ho
    simp [h] at ho

theorem alone_opens (h : opensKind k s = some t) : alone k s = match cutAt k.closing (filterSign t).2 with
    | none => alone k (filterSign t).2
    | some (name, rest) => (s.length, name) :: alone k rest := by
  obtain rfl := opensKind_eq_some h
  rw [alone]
  split
  · rename_i ho
    simp [h] at ho
  rename_i t' ho
  obtain rfl := Option.some.inj (h.symm.trans ho)
  split
  · rename_i hc
    rw [hc]
  · rename_i hc
    rw [hc]

theorem opensKind_of_ne (h : c ≠ '$') (k : Kind) (s : Text) : opensKind k (c :: s) = none := by
  unfold opensKind
  split
  · rename_i heq
    exact absurd (cons.inj heq).1 h
  · rfl

theorem alone_append {pre : Text} (h : '$' ∉ pre) (k : Kind) (s : Text) : alone k (pre ++ s) = alone k s := by
  induction pre with
  | nil => rfl
  | cons c pre ih =>
    have hc : c ≠ '$' := fun heq => h (heq ▸ mem_cons_self)
    rw [cons_append, alone_cons (opensKind_of_ne hc k _), ih fun hm => h (mem_cons_of_mem _ hm)]

theorem alone_cut {pre t : Text} (h : cutAt '$' s = some (pre, t)) : alone k s = alone k ('$' :: t) := by
  obtain ⟨rfl, hpr⟩ := cutAt_eq_some h
  exact alone_append hpr k _

/-! ## Detection -/

variable {key : Text × Bool}

theorem mem_addRef_keys (hk : k = tagKind ∨ k = groupKind) {refs : List Entry}
    (hp : k = tagKind → ∀ r ∈ refs, isGroup r = false) (name p : Text) :
    key ∈ (addRef k refs name (filterSign p).1).map refKey ↔ key ∈ refs.map refKey ∨ key = (name, k.group) := by
  unfold addRef
  split_ifs with hn
  · have hpe : ((Keyed.insert Entry.value strLt ⟨name, k.base ||| (filterSign p).1⟩ refs).map refKey).Perm _ :=
      (Keyed.insert_perm strLt _ refs).map refKey
    have hke : refKey ⟨name, k.base ||| (filterSign p).1⟩ = (name, k.group) := Prod.ext rfl (isGroup_sign hk name p)
    rw [entryAdd, hpe.mem_iff, map_cons, mem_cons, hke, or_comm]
  · rw [find_isNone_iff hk hp] at hn
    push Not at hn
    obtain ⟨r, hr, hke⟩ := hn
    constructor
    · exact .inl
    · rintro (hm | rfl)
      · exact hm
      · exact hke ▸ mem_map_of_mem hr

theorem detectVars_keys (hk : k = tagKind ∨ k = groupKind) (s : Text) {refs : List Entry}
    (hp : k = tagKind → ∀ r ∈ refs, isGroup r = false) :
    key ∈ (detectVars k s refs).map refKey ↔
      key ∈ refs.map refKey ∨ key.2 = k.group ∧ key.1 ∈ (alone k s).map Prod.snd := by
  fun_induction detectVars k s refs with
  | case1 s refs hs =>
    have ha := alone_append (cutAt_eq_none hs) k []
    rw [append_nil] at ha
    rw [ha]
    simp [alone]
  | case2 s refs pre hs =>
    rw [alone_cut hs, alone_cons rfl]
    simp [alone]
  | case3 s refs pre c t hs hc ih =>
    rw [alone_cut hs, alone_cons (by simp [opensKind, hc]), ih hp]
  | case4 s refs pre c t hs hc hcu ih =>
    rw [alone_cut hs, alone_opens (t := t) (by simpa [opensKind] using hc), hcu, ih hp]
  | case5 s refs pre c t hs hc name rest hcu ih =>
    have hp' : k = tagKind → ∀ r ∈ addRef k refs name (filterSign t).1, isGroup r = false := by
      intro heq r hr
      rcases mem_addRef hr with hr | rfl
      · exact hp heq r hr
      · rw [isGroup_sign hk, heq]
        rfl
    rw [alone_cut hs, alone_opens (t := t) (by simpa [opensKind] using hc), hcu, ih hp', mem_addRef_keys hk hp,
      map_cons, mem_cons, or_assoc, Prod.ext_iff, and_or_left]
    exact or_congr_right (or_congr_left and_comm)

theorem detectRefs_keys (rule : Text) :
    key ∈ (detectRefs rule).map refKey ↔ key.1 ∈ (alone (kindFor key.2) rule).map Prod.snd := by
  rw [detectRefs, detectVars_keys (.inr rfl) rule (fun heq => absurd (congrArg Kind.opening heq) (by decide)),
    detectVars_keys (.inl rfl) rule (by simp)]
  obtain ⟨name, group⟩ := key
  cases group with
  | false | true => simp [kindFor, show tagKind.group = false from rfl, show groupKind.group = true from rfl]

/-! ## References of both kinds -/

def Piece.key? : Piece → Option (Text × Bool)
  | .ref _ group _ name => some (name, group)
  | _ => none

def keysOf (ps : List Piece) : List (Text × Bool) := ps.filterMap Piece.key?

/-- The places and names of the references of one kind, for a reader who knows both. -/
def plain (group : Bool) (s : Text) : List (Nat × Text) :=
  (pieces s).filterMap fun
    | .ref place g _ name => if g = group then some (place, name) else none
    | _ => none

theorem plain_cons_char (h : opens (c :: s) = none) (group : Bool) : plain group (c :: s) = plain group s := by
  rw [plain, pieces_cons_char h]
  rfl

theorem plain_opens {p name rest : Text} (h : opens s = some (k, p))
    (hc : cutAt k.closing (filterSign p).2 = some (name, rest)) (group : Bool) :
    plain group s = if k.group = group then (s.length, name) :: plain group rest else plain group rest := by
  rw [plain, pieces_opens h, hc]
  simp only [filterMap_cons]
  split_ifs <;> rfl

variable {group : Bool} {name : Text}

theorem mem_keysOf : (name, group) ∈ keysOf (pieces s) ↔ name ∈ (plain group s).map Prod.snd := by
  rw [keysOf, plain, mem_filterMap, mem_map]
  constructor
  · rintro ⟨p, hp, hk⟩
    cases p with
    | ref place g sign n =>
      obtain ⟨rfl, rfl⟩ := Prod.mk.inj (Option.some.inj hk)
      exact ⟨(place, n), mem_filterMap.mpr ⟨_, hp, if_pos rfl⟩, rfl⟩
    | char | unclosed => exact nomatch hk
  · rintro ⟨f, hf, rfl⟩
    obtain ⟨p, hp, heq⟩ := mem_filterMap.mp hf
    cases p with
    | ref place g sign n =>
      simp only [Option.ite_none_right_eq_some, Option.some.injEq] at heq
      obtain ⟨rfl, rfl⟩ := heq
      exact ⟨_, hp, rfl⟩
    | char | unclosed => exact nomatch heq

def RefAt (k : Kind) (rule : Text) (place : Nat) (name : Text) : Prop :=
  ∃ pre t rest, rule = pre ++ '$' :: k.opening :: t ∧ ('$' :: k.opening :: t).length = place ∧
    cutAt k.closing (filterSign t).2 = some (name, rest)

theorem RefAt.name_eq {place : Nat} {n n' : Text} (h : RefAt k s place n) (h' : RefAt k s place n') : n = n' := by
  obtain ⟨pre, t, rest, heq, hl, hc⟩ := h
  obtain ⟨pre', t', rest', heq', hl', hc'⟩ := h'
  have hs := (append_inj' (heq.symm.trans heq') (hl.trans hl'.symm)).2
  obtain rfl : t = t' := (cons.inj (cons.inj hs).2).2
  exact (Prod.mk.inj (Option.some.inj (hc.symm.trans hc'))).1

theorem RefAt.append {place : Nat} (h : RefAt k s place name) (pre : Text) : RefAt k (pre ++ s) place name := by
  obtain ⟨a, t, rest, rfl, hl, hc⟩ := h
  exact ⟨pre ++ a, t, rest, (append_assoc _ _ _).symm, hl, hc⟩

theorem refAt_of_mem_alone {f : Nat × Text} (h : f ∈ alone k s) : RefAt k s f.1 f.2 := by
  fun_induction alone k s with
  | case1 => exact absurd h not_mem_nil
  | case2 c s ho ih => exact (ih h).append [c]
  | case3 c s p ho hc ih =>
    rw [opensKind_eq_some ho]
    have hp := signOf_append p
    have heq : '$' :: k.opening :: p = ('$' :: k.opening :: signOf p) ++ (filterSign p).2 := by simp [hp]
    rw [heq]
    exact (ih h).append _
  | case4 c s p ho name rest hc ih =>
    rw [opensKind_eq_some ho] at h ⊢
    rcases mem_cons.mp h with rfl | h
    · exact ⟨[], p, rest, rfl, rfl, hc⟩
    · rw [cut_rest hc]
      exact (ih h).append _

theorem refAt_of_mem_plain {f : Nat × Text} (h : f ∈ plain group s) : RefAt (kindFor group) s f.1 f.2 := by
  induction s using pieces_induction with
  | nil => simp [plain, pieces] at h
  | char c s ho ih => exact (ih (plain_cons_char ho group ▸ h)).append [c]
  | unclosed s k p ho hc =>
    rw [plain, pieces_opens ho, hc] at h
    simp at h
  | ref s k p name rest ho hc ih =>
    obtain ⟨hs, hk⟩ := opens_eq_some ho
    rw [plain_opens ho hc] at h
    have hr : f ∈ plain group rest → RefAt (kindFor group) s f.1 f.2 := by
      intro hf
      rw [hs, cut_rest hc]
      exact (ih hf).append _
    split_ifs at h with hg
    · rcases mem_cons.mp h with rfl | h
      · rw [← hg, ← hk]
        exact ⟨[], p, rest, hs, by rw [hs], hc⟩
      · exact hr h
    · exact hr h

/-! ## What the expansion makes of the pieces -/

def Piece.value (tv : List Binding) : Piece → Text
  | .char c => [c]
  | .ref _ group _ name => (tdataGetValue tv name group).getD []
  | .unclosed rest => rest

def substitute (tv : List Binding) (ps : List Piece) : Text := ps.flatMap (Piece.value tv)

theorem expandPieces_done (tv : List Binding) (ps : List Piece) : (expandPieces tv ps).done = true ↔
    (∀ rest, .unclosed rest ∉ ps) ∧ ∀ key ∈ keysOf ps, (tdataGetValue tv key.1 key.2).isSome = true := by
  induction ps with
  | nil => simp [expandPieces, keysOf]
  | cons p ps ih =>
    cases p with
    | char c => simpa [expandPieces, Expansion.after, keysOf, Piece.key?] using ih
    | unclosed rest => exact ⟨fun h => (by cases h), fun h => absurd mem_cons_self (h.1 rest)⟩
    | ref place group sign name =>
      cases hv : tdataGetValue tv name group with
      | none => simp [expandPieces, keysOf, Piece.key?, hv]
      | some v => simpa [expandPieces, Expansion.after, Expansion.asking, keysOf, Piece.key?, hv] using ih

theorem expandPieces_of_done (h : (expandPieces tv ps).done = true) :
    (expandPieces tv ps).asked = keysOf ps ∧ (expandPieces tv ps).copied = substitute tv ps := by
  induction ps with
  | nil => exact ⟨rfl, rfl⟩
  | cons p ps ih =>
    cases p with
    | char c =>
      obtain ⟨ha, hc⟩ := ih h
      exact ⟨ha, by rw [expandPieces, Expansion.after, hc]; rfl⟩
    | unclosed rest => simp [expandPieces] at h
    | ref place group sign name =>
      cases hv : tdataGetValue tv name group with
      | none => simp [expandPieces, hv] at h
      | some v =>
        rw [expandPieces, hv] at h ⊢
        obtain ⟨ha, hc⟩ := ih h
        constructor
        · exact congrArg ((name, group) :: ·) ha
        · rw [substitute, flatMap_cons, Piece.value, hv]
          exact congrArg (v ++ ·) hc

theorem tdataGetValue_isSome_iff :
    (tdataGetValue tv name group).isSome = true ↔ (name, group) ∈ tv.map Binding.key := by
  rw [tdataGetValue, Option.isSome_map, find?_isSome, mem_map]
  simp [Binding.key, Prod.ext_iff]

/-! ## Agreement -/

/-- With a value for each reference that was detected, the expansion looks up these references and no others, and
returns the rule with all of them replaced. -/
def Agrees (rule : Text) : Prop :=
  ∀ tv : List Binding, tv.map Binding.key = (detectRefs rule).map refKey →
    (∀ key, key ∈ (ruleExpand tv rule).asked ↔ key ∈ (detectRefs rule).map refKey) ∧
      expand tv rule = some (substitute tv (pieces rule))

/-- Every reference has an end; one that begins inside a reference of the other kind has a namesake outside; and one
outside that does not begin for a reader of its kind alone has a namesake that does. -/
structure OneReading (rule : Text) : Prop where
  closed : ∀ rest, .unclosed rest ∉ pieces rule
  hidden : ∀ group, ∀ f ∈ alone (kindFor group) rule, f.1 ∉ (plain group rule).map Prod.fst →
    f.2 ∈ (plain group rule).map Prod.snd
  lost : ∀ group, ∀ f ∈ plain group rule, f.1 ∉ (alone (kindFor group) rule).map Prod.fst →
    f.2 ∈ (alone (kindFor group) rule).map Prod.snd

theorem OneReading.names (h : OneReading s) (group : Bool) (name : Text) :
    name ∈ (plain group s).map Prod.snd ↔ name ∈ (alone (kindFor group) s).map Prod.snd := by
  constructor
  · intro hn
    obtain ⟨f, hf, rfl⟩ := mem_map.mp hn
    by_cases hp : f.1 ∈ (alone (kindFor group) s).map Prod.fst
    · obtain ⟨f', hf', hs⟩ := mem_map.mp hp
      rw [(refAt_of_mem_plain hf).name_eq (hs ▸ refAt_of_mem_alone hf')]
      exact mem_map_of_mem hf'
    · exact h.lost group f hf hp
  · intro hn
    obtain ⟨f, hf, rfl⟩ := mem_map.mp hn
    by_cases hp : f.1 ∈ (plain group s).map Prod.fst
    · obtain ⟨f', hf', hs⟩ := mem_map.mp hp
      rw [(refAt_of_mem_alone hf).name_eq (hs ▸ refAt_of_mem_plain hf')]
      exact mem_map_of_mem hf'
    · exact h.hidden group f hf hp

/-- Detection and expansion read the same language on exactly these rules. -/
theorem detection_expansion_agree_iff (rule : Text) : Agrees rule ↔ OneReading rule := by
  constructor
  · intro h
    have hk : ((detectRefs rule).map fun r => (⟨r.value, isGroup r, []⟩ : Binding)).map Binding.key =
        (detectRefs rule).map refKey := by rw [map_map]; rfl
    obtain ⟨ha, hr⟩ := h _ hk
    rw [expand_eq_ruleExpand, ruleExpand_eq, Expansion.result] at hr
    split_ifs at hr with hd
    rw [ruleExpand_eq, (expandPieces_of_done hd).1] at ha
    have hn : ∀ group name, name ∈ (plain group rule).map Prod.snd ↔
        name ∈ (alone (kindFor group) rule).map Prod.snd := by
      intro group name
      rw [← mem_keysOf, ha, detectRefs_keys]
    refine ⟨((expandPieces_done _ _).mp hd).1, fun group f hf _ => ?_, fun group f hf _ => ?_⟩
    · exact (hn group f.2).mpr (mem_map_of_mem hf)
    · exact (hn group f.2).mp (mem_map_of_mem hf)
  · intro h tv hk
    have hal : ∀ key, key ∈ keysOf (pieces rule) ↔ key ∈ (detectRefs rule).map refKey := by
      intro key
      rw [detectRefs_keys, ← h.names]
      exact mem_keysOf
    have hd : (expandPieces tv (pieces rule)).done = true := by
      refine (expandPieces_done tv _).mpr ⟨h.closed, fun key hke => ?_⟩
      rw [tdataGetValue_isSome_iff, hk]
      exact (hal key).mp hke
    obtain ⟨ha, hc⟩ := expandPieces_of_done hd
    rw [expand_eq_ruleExpand, ruleExpand_eq, ha, Expansion.result, if_pos hd, hc]
    exact ⟨hal, rfl⟩

/-! ## Rules without overlaps -/

def Apart (rule : Text) : Prop :=
  ∀ place group sign name, .ref place group sign name ∈ pieces rule → ¬ ['$', (kindFor !group).opening] <:+: name

theorem alone_name {name b : Text} (h : ¬ ['$', k.opening] <:+: name) (hc : c ≠ k.opening) :
    alone k (name ++ c :: b) = alone k (c :: b) := by
  induction name with
  | nil => rfl
  | cons d name ih =>
    have ho : opensKind k (d :: (name ++ c :: b)) = none := by
      by_cases hd : d = '$'
      · subst hd
        cases name with
        | nil => simp [opensKind, hc]
        | cons e name =>
          have he : e ≠ k.opening := fun heq => h ⟨[], name, by simp [heq]⟩
          simp [opensKind, he]
      · exact opensKind_of_ne hd k _
    rw [cons_append, alone_cons ho, ih fun hs => h (hs.trans (suffix_cons d name).isInfix)]

theorem alone_other {p name rest : Text} (hc : cutAt (kindFor !group).closing (filterSign p).2 = some (name, rest))
    (h : ¬ ['$', (kindFor group).opening] <:+: name) :
    alone (kindFor group) ('$' :: (kindFor !group).opening :: p) = alone (kindFor group) rest := by
  have hs : ∀ b, alone (kindFor group) (signOf p ++ b) = alone (kindFor group) b := by
    intro b
    refine alone_append ?_ _ b
    unfold signOf
    split <;> simp
  have hb : (kindFor !group).opening ≠ (kindFor group).opening ∧ (kindFor !group).opening ≠ '$' ∧
      (kindFor !group).closing ≠ (kindFor group).opening ∧ (kindFor !group).closing ≠ '$' := by
    cases group <;> decide
  rw [← signOf_append p, (cutAt_eq_some hc).1, alone_cons (by simp [opensKind, hb.1]),
    alone_cons (opensKind_of_ne hb.2.1 _ _), hs, alone_name h hb.2.2.1,
    alone_cons (opensKind_of_ne hb.2.2.2 _ _)]

theorem alone_eq_plain (hc : ∀ rest, .unclosed rest ∉ pieces s) (h : Apart s) (group : Bool) :
    alone (kindFor group) s = plain group s := by
  induction s using pieces_induction with
  | nil => rw [alone, plain, pieces]; rfl
  | char c s ho ih =>
    have hno : opensKind (kindFor group) (c :: s) = none := by
      by_contra hso
      obtain ⟨t, ht⟩ := Option.ne_none_iff_exists'.mp hso
      rw [opensKind_eq_some ht] at ho
      simp [opens, kindOf_opening] at ho
    rw [Apart, pieces_cons_char ho] at h
    rw [pieces_cons_char ho] at hc
    rw [alone_cons hno, plain_cons_char ho, ih (fun rest hme => hc rest (mem_cons_of_mem _ hme))
      fun place g sign name hme => h place g sign name (mem_cons_of_mem _ hme)]
  | unclosed s k p ho hcu =>
    rw [pieces_opens ho, hcu] at hc
    exact absurd mem_cons_self (hc s)
  | ref s k p name rest ho hcu ih =>
    obtain ⟨hs, hki⟩ := opens_eq_some ho
    rw [pieces_opens ho, hcu] at hc
    rw [Apart, pieces_opens ho, hcu] at h
    have hr := ih (fun rest hme => hc rest (mem_cons_of_mem _ hme))
      fun place g sign name hme => h place g sign name (mem_cons_of_mem _ hme)
    rw [plain_opens ho hcu]
    by_cases hg : k.group = group
    · subst hg
      have hm : opensKind (kindFor k.group) s = some p := by rw [hs, ← hki]; simp [opensKind]
      rw [← hki] at hm hr ⊢
      rw [alone_opens hm, hcu, if_pos rfl]
      exact congrArg ((s.length, name) :: ·) hr
    · obtain hot : k.group = !group := Bool.eq_not.mpr hg
      have hk : k = kindFor !group := hot ▸ hki
      have hn := h _ _ _ _ mem_cons_self
      rw [hot, Bool.not_not] at hn
      rw [if_neg hg, hs, hk, alone_other (hk ▸ hcu) hn]
      exact hr

theorem oneReading_of_apart (hc : ∀ rest, .unclosed rest ∉ pieces s) (h : Apart s) : OneReading s := by
  refine ⟨hc, fun group f hf hp => ?_, fun group f hf hp => ?_⟩
  · rw [alone_eq_plain hc h] at hf
    exact absurd (mem_map_of_mem hf) hp
  · rw [alone_eq_plain hc h] at hp
    exact absurd (mem_map_of_mem hf) hp

/-- A tag inside a group is detected but not looked up, and a second reference without an end stops the expansion. -/
def nestedRule : Text := "$[a$\x7bb\x7d]".toList

def openRule : Text := "$\x7ba\x7d,$\x7bb".toList

theorem nested_open_disagree : (isTemplate nestedRule = true ∧ ¬ Agrees nestedRule) ∧
    isTemplate openRule = true ∧ ¬ Agrees openRule := by
  refine ⟨⟨by decide +kernel, fun h => ?_⟩, by decide +kernel, fun h => ?_⟩
  · have ha := (h [⟨"a$\x7bb\x7d".toList, true, []⟩, ⟨['b'], false, []⟩] (by decide +kernel)).1 (['b'], false)
    revert ha
    decide +kernel
  · have hr := (h [⟨['a'], false, []⟩] (by decide +kernel)).2
    revert hr
    decide +kernel

end OpenSync.Template
