import OpenSync.Tags

/-!
# Groups mirror their rows

The values of a group's tag are determined by its member references and the plain tags: a value is there
when a reference matches it, with the flags of all matching references together (`expected`). The code
recomputes a group whenever a plain tag changes that it names.
-/

namespace OpenSync.Tags
open List Option Keyed

/-! ## Flags taken together -/

def orAll (fs : List Flags) : Option Flags := if fs = [] then none else some (fs.foldr (· ||| ·) 0)

def orStep (x : Option Flags) (f : Flags) : Option Flags := some (x.elim f (· ||| f))

theorem foldl_orStep_some (fs : List Flags) (x : Flags) :
    fs.foldl orStep (some x) = some (x ||| fs.foldr (· ||| ·) 0) := by
  induction fs generalizing x with
  | nil => simp
  | cons f fs ih =>
    rw [foldl_cons, foldr_cons, orStep, elim_some, ih, UInt8.or_assoc]

theorem foldl_orStep (fs : List Flags) : fs.foldl orStep none = orAll fs := by
  cases fs with
  | nil => rfl
  | cons f fs =>
    rw [foldl_cons, orStep, elim_none, foldl_orStep_some, orAll, if_neg (by simp)]
    rfl

theorem or_foldr_of_mem {fs : List Flags} {f : Flags} (h : f ∈ fs) :
    f ||| fs.foldr (· ||| ·) 0 = fs.foldr (· ||| ·) 0 := by
  induction fs with
  | nil => cases h
  | cons g fs ih =>
    rw [foldr_cons]
    rcases mem_cons.mp h with rfl | h
    · rw [← UInt8.or_assoc, UInt8.or_self]
    · rw [← UInt8.or_assoc, UInt8.or_comm f g, UInt8.or_assoc, ih h]

variable {fs fs' : List Flags}

theorem foldr_or_of_subset (h : ∀ f ∈ fs, f ∈ fs') :
    fs.foldr (· ||| ·) 0 ||| fs'.foldr (· ||| ·) 0 = fs'.foldr (· ||| ·) 0 := by
  induction fs with
  | nil => simp
  | cons f fs ih =>
    rw [foldr_cons, UInt8.or_assoc, ih (forall_mem_cons.mp h).2]
    exact or_foldr_of_mem (h f mem_cons_self)

theorem orAll_congr (h : ∀ f, f ∈ fs ↔ f ∈ fs') : orAll fs = orAll fs' := by
  have hn : fs = [] ↔ fs' = [] := by
    simp [eq_nil_iff_forall_not_mem, h]
  have hor : fs.foldr (· ||| ·) 0 = fs'.foldr (· ||| ·) 0 := by
    rw [← foldr_or_of_subset fun f hf => (h f).mpr hf, UInt8.or_comm]
    exact foldr_or_of_subset fun f hf => (h f).mp hf
  rw [orAll, orAll, hor]
  exact if_congr hn rfl rfl

/-! ## The values a group should have -/

def contribution (tags : List Tag) (v : Text) (m : Entry) : Option Flags :=
  (tagFindByName tags m.value false).bind fun t => (look t.values v).filter (passes m.flags)

def expected (tags : List Tag) (members : List Entry) (v : Text) : Option Flags :=
  orAll (members.filterMap (contribution tags v))

theorem expected_congr {tags tags' : List Tag} {members : List Entry}
    (h : ∀ m ∈ members, tagFindByName tags' m.value false = tagFindByName tags m.value false)
    (v : Text) : expected tags' members v = expected tags members v := by
  rw [expected, expected]
  congr 1
  refine filterMap_congr fun m hm => ?_
  rw [contribution, contribution, h m hm]

theorem expected_mem_congr (tags : List Tag) {ms ms' : List Entry} (h : ∀ e, e ∈ ms ↔ e ∈ ms')
    (v : Text) : expected tags ms v = expected tags ms' v := by
  refine orAll_congr fun f => ?_
  simp [mem_filterMap, h]

def Valued (tags : List Tag) : Prop := ∀ n k t, tagFindByName tags n k = some t → Distinct t.values

variable (pick : Pick) {tags : List Tag}

theorem appendMember_spec (hv : Valued tags) {dest : List Entry}
    (hd : Distinct dest) (m : Entry) : Distinct (appendMember pick tags dest m) ∧
      ∀ v, look (appendMember pick tags dest m) v =
        (contribution tags v m).elim (look dest v) (orStep (look dest v)) := by
  rw [appendMember]
  cases ht : tagFindByName tags m.value false with
  | none =>
    refine ⟨hd, fun v => ?_⟩
    rw [contribution, ht]
    rfl
  | some t =>
    obtain ⟨hdi, hl⟩ := (appendStep_point m.flags).foldl (hv _ _ _ ht) hd
    refine ⟨hdi, fun v => (hl v).trans ?_⟩
    rw [contribution, ht, bind_some]
    cases look t.values v with
    | none => rfl
    | some f =>
      by_cases hp : passes m.flags f <;> simp [mergeFlags, Option.filter, hp, orStep]

theorem groupAppendMembers_spec (hv : Valued tags) (g : Group) : Distinct (groupAppendMembers pick tags g []) ∧
      ∀ v, look (groupAppendMembers pick tags g []) v = expected tags g.tags v := by
  have hf (ms dest : List Entry) (hd : Distinct dest) :
      Distinct (ms.foldl (appendMember pick tags) dest) ∧ ∀ v, look (ms.foldl (appendMember pick tags) dest) v =
          (ms.filterMap (contribution tags v)).foldl orStep (look dest v) := by
    induction ms generalizing dest with
    | nil => exact ⟨hd, fun v => rfl⟩
    | cons m ms ih =>
      obtain ⟨hd', hl⟩ := appendMember_spec pick hv hd m
      obtain ⟨hdi, hr⟩ := ih _ hd'
      refine ⟨hdi, fun v => (hr v).trans ?_⟩
      rw [hl]
      cases hc : contribution tags v m with
      | none => rw [filterMap_cons_none hc]; rfl
      | some f => rw [filterMap_cons_some hc]; rfl
  obtain ⟨hdi, hl⟩ := hf g.tags [] nodup_nil
  exact ⟨hdi, fun v => (hl v).trans (foldl_orStep _)⟩

/-! ## Changes of the table -/

/-- The table after a change of one tag, whose values have the map `m`. -/
structure Sets (tags tags' : List Tag) (n : Text) (k : Bool) (m : Text → Option Flags) : Prop where
  other : ∀ n' k', (n', k') ≠ (n, k) → tagFindByName tags' n' k' = tagFindByName tags n' k'
  self : ∃ t, tagFindByName tags' n k = some t ∧ Distinct t.values ∧ ∀ v, look t.values v = m v

variable {n : Text} {k : Bool}

theorem Sets.valued {tags tags' : List Tag} {m : Text → Option Flags}
    (h : Sets tags tags' n k m) (hv : Valued tags) : Valued tags' := by
  intro n' k' t ht
  by_cases he : (n', k') = (n, k)
  · obtain ⟨rfl, rfl⟩ := Prod.mk.inj he
    obtain ⟨t', ht', hd, -⟩ := h.self
    cases ht.symm.trans ht'
    exact hd
  · rw [h.other n' k' he] at ht
    exact hv n' k' t ht

theorem key_of_find {t : Tag} (h : tagFindByName tags n k = some t) : t.name = n ∧ t.group = k := by
  have hk : t.key = (n, k) := Keyed.key_of_find h
  exact Prod.mk.inj hk

theorem replace_find (tags : List Tag) (t : Tag) (n : Text) (k : Bool) :
    tagFindByName (Keyed.replace Tag.key t tags) n k =
      if (n, k) = t.key then (tagFindByName tags n k).map fun _ => t else tagFindByName tags n k :=
  find_replace

variable {s : Sys}

theorem tagReplace_sets {t : Tag} {new : List Entry}
    (hv : Valued s.tags) (ht : tagFindByName s.tags n k = some t) (hn : Distinct new) :
    Sets s.tags (tagReplace pick s t new).tags n k (look new) := by
  obtain ⟨rfl, rfl⟩ := key_of_find ht
  obtain ⟨hd, hl⟩ := applyDiff_spec pick (hv _ _ _ ht) hn
  have hf := replace_find s.tags { t with values := applyDiff pick t.values (listDiff pick t.values new) }
  refine ⟨fun n' k' he => (hf n' k').trans (if_neg he),
    { t with values := applyDiff pick t.values (listDiff pick t.values new) }, ?_, hd, hl⟩
  refine (hf t.name t.group).trans ((if_pos rfl).trans ?_)
  rw [ht]
  rfl

theorem put_sets (s : Sys) {t : Tag} (hd : Distinct t.values) :
    Sets s.tags (s.put t).tags t.name t.group (look t.values) := by
  have hf (n : Text) (k : Bool) : tagFindByName (s.put t).tags n k =
      if (n, k) = t.key then some t else tagFindByName s.tags n k :=
    find_insert fun a => strLt_irrefl a.1
  exact ⟨fun n' k' he => (hf n' k').trans (if_neg he), t, (hf t.name t.group).trans (if_pos rfl), hd, fun v => rfl⟩

theorem cut_find (s : Sys) (t : Tag) (n : Text) (k : Bool) : tagFindByName (s.cut t).tags n k =
    if (n, k) = t.key then none else tagFindByName s.tags n k := find_drop ..

theorem cut_valued (h : Valued s.tags) (t : Tag) : Valued (s.cut t).tags := by
  intro n k t' ht'
  rw [cut_find] at ht'
  split_ifs at ht'
  exact h n k t' ht'

/-! ## Recomputing groups -/

def Mirrors (tags : List Tag) (g : Group) : Prop :=
  ∃ t, tagFindByName tags g.name true = some t ∧ ∀ v, look t.values v = expected tags g.tags v

/-- What a pass over groups with the names `ns` leaves as it was. -/
structure Spares (s s' : Sys) (ns : List Text) : Prop where
  plain : ∀ n, tagFindByName s'.tags n false = tagFindByName s.tags n false
  group : ∀ n ∉ ns, tagFindByName s'.tags n true = tagFindByName s.tags n true
  isSome : ∀ n, (tagFindByName s'.tags n true).isSome = (tagFindByName s.tags n true).isSome
  valued : Valued s.tags → Valued s'.tags
  groups : s'.groups = s.groups

theorem Spares.refl (s : Sys) (ns : List Text) : Spares s s ns := ⟨fun _ => rfl, fun _ _ => rfl, fun _ => rfl, id, rfl⟩

theorem Spares.trans {s s' s'' : Sys} {ns ns' : List Text} (h : Spares s s' ns) (h' : Spares s' s'' ns') :
    Spares s s'' (ns ++ ns') where
  plain n := (h'.plain n).trans (h.plain n)
  group n hn := by
    rw [mem_append, not_or] at hn
    exact (h'.group n hn.2).trans (h.group n hn.1)
  isSome n := (h'.isSome n).trans (h.isSome n)
  valued hv := h'.valued (h.valued hv)
  groups := h'.groups.trans h.groups

theorem Spares.mirrors {s s' : Sys} {ns : List Text} (h : Spares s s' ns) {g : Group}
    (hg : Mirrors s.tags g) (hn : g.name ∉ ns) : Mirrors s'.tags g := by
  obtain ⟨t, ht, hl⟩ := hg
  refine ⟨t, (h.group _ hn).trans ht, fun v => ?_⟩
  rw [expected_congr fun m _ => h.plain m.value]
  exact hl v

theorem groupUpdate_spec (hv : Valued s.tags) (g : Group) : Spares s (groupUpdate pick s g) [g.name] ∧
      ((tagFindByName s.tags g.name true).isSome → Mirrors (groupUpdate pick s g).tags g) := by
  rw [groupUpdate]
  cases ht : tagFindByName s.tags g.name true with
  | none => exact ⟨Spares.refl s _, nofun⟩
  | some t =>
    obtain ⟨hd, hl⟩ := groupAppendMembers_spec pick hv g
    have hs := tagReplace_sets pick hv ht hd
    obtain ⟨t', ht', -, hl'⟩ := hs.self
    have hp (n : Text) : tagFindByName (tagReplace pick s t
        (groupAppendMembers pick s.tags g [])).tags n false = tagFindByName s.tags n false :=
      hs.other n false (by simp)
    refine ⟨⟨hp, fun n hn => hs.other n true (by simpa using hn), fun n => ?_,
      fun _ => hs.valued hv, rfl⟩, fun _ => ⟨t', ht', fun v => ?_⟩⟩
    · by_cases hn : n = g.name
      · rw [hn, ht', ht]
        rfl
      · rw [hs.other n true (by simpa using hn)]
    · rw [hl', hl, expected_congr fun m _ => hp m.value]

def Names (g : Group) (x : Text) : Prop := ∃ m ∈ g.tags, m.value = x

/-- A group that a change of the tag `x` may have left behind: it names `x`, or it is right already. -/
def Pending (x : Text) (s : Sys) (g : Group) : Prop :=
  (tagFindByName s.tags g.name true).isSome ∧ (¬ Names g x → Mirrors s.tags g)

theorem groupUpdateIf_spec (hv : Valued s.tags) (x : Text) (g : Group) :
    Spares s (groupUpdateIf pick x s g) [g.name] ∧ (Pending x s g → Mirrors (groupUpdateIf pick x s g).tags g) := by
  by_cases hx : Names g x
  · obtain ⟨hsp, hm⟩ := groupUpdate_spec pick hv g
    rw [groupUpdateIf, if_pos ((entryFindByValue_isSome pick g.tags x).mpr hx)]
    exact ⟨hsp, fun hp => hm hp.1⟩
  · rw [groupUpdateIf, if_neg fun h => hx ((entryFindByValue_isSome pick g.tags x).mp h)]
    exact ⟨Spares.refl s _, fun hp => hp.2 hx⟩

theorem Spares.pending {s s' : Sys} {ns : List Text} {x : Text} (h : Spares s s' ns) {g : Group}
    (hg : Pending x s g) (hn : g.name ∉ ns) : Pending x s' g :=
  ⟨(h.isSome g.name).trans hg.1, fun hx => h.mirrors (hg.2 hx) hn⟩

theorem foldl_groupUpdateIf (x : Text) {gs : List Group} (hv : Valued s.tags)
    (hgs : Keyed.Unique Group.name gs) (hp : ∀ g ∈ gs, Pending x s g) :
    Spares s (gs.foldl (groupUpdateIf pick x) s) (gs.map Group.name) ∧
      ∀ g ∈ gs, Mirrors (gs.foldl (groupUpdateIf pick x) s).tags g := by
  induction gs generalizing s with
  | nil => exact ⟨Spares.refl s _, nofun⟩
  | cons g gs ih =>
    obtain ⟨hg, hgs⟩ := nodup_cons.mp hgs
    obtain ⟨hsp, hm⟩ := groupUpdateIf_spec pick hv x g
    have hr : ∀ g' ∈ gs, Pending x (groupUpdateIf pick x s g) g' := by
      intro g' hg'
      refine hsp.pending (hp g' (mem_cons_of_mem _ hg')) ?_
      rw [mem_singleton]
      exact fun he => hg (he ▸ mem_map_of_mem hg')
    obtain ⟨hsp', hm'⟩ := ih (hsp.valued hv) hgs hr
    exact ⟨hsp.trans hsp', forall_mem_cons.mpr ⟨hsp'.mirrors (hm (hp g mem_cons_self)) hg, hm'⟩⟩

end OpenSync.Tags
