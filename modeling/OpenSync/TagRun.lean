import OpenSync.TagNotes

/-!
# Runs of tag and group events

Over a run the rows of the group table are kept beside the state, as the code has taken them over. As
long as no update replaces or brings a row that names a tag twice, every group's tag has the values its
row asks for. The difference of two member lists looks at names only, so an update that brings a tag
under two prefixes keeps one of them (`two_prefixes_lose_values`).
-/

namespace OpenSync.Tags
open List Option Function Keyed

/-! ## The invariant -/

theorem groupListFromSchema_perm (row : GroupRow) : (groupListFromSchema row).Perm (row.tags.map memberRef) := by
  have hp := foldl_entryAdd_perm (row.tags.map memberRef) []
  rwa [append_nil] at hp

/-- The rows of the group table, by name. -/
abbrev Rows := Text → Option (List Text)

structure Inv (rows : Rows) (s : Sys) : Prop where
  valued : Valued s.tags
  unique : Keyed.Unique Group.name s.groups
  mirrors : ∀ g ∈ s.groups, Mirrors s.tags g
  tagOnly : ∀ n, (tagFindByName s.tags n true).isSome → (groupFindByName s.groups n).isSome
  members : ∀ g ∈ s.groups, ∃ row, rows g.name = some row ∧ ∀ e, e ∈ g.tags ↔ e ∈ row.map memberRef
  rowsOnly : ∀ n row, rows n = some row → (groupFindByName s.groups n).isSome

theorem inv_empty : Inv (fun _ => none) empty where
  valued _ _ _ h := by cases h
  unique := nodup_nil
  mirrors _ h := by cases h
  tagOnly _ h := by cases h
  members _ h := by cases h
  rowsOnly _ _ h := by cases h

variable {rows : Rows} {s : Sys}

theorem Inv.notes (h : Inv rows s) (ns : List Note) : Inv rows { s with notes := ns } :=
  ⟨h.valued, h.unique, h.mirrors, h.tagOnly, h.members, h.rowsOnly⟩

variable (pick : Pick)

theorem Inv.cascade {s s₁ : Sys} {x : Text} (h : Inv rows s) (hgro : s₁.groups = s.groups) (hv : Valued s₁.tags)
    (hp : ∀ n, n ≠ x → tagFindByName s₁.tags n false = tagFindByName s.tags n false)
    (hgr : ∀ n, tagFindByName s₁.tags n true = tagFindByName s.tags n true) :
    Inv rows (groupUpdateByTag pick s₁ x) := by
  have hpe : ∀ g ∈ s₁.groups, Pending x s₁ g := by
    intro g hg
    rw [hgro] at hg
    obtain ⟨t, ht, hl⟩ := h.mirrors g hg
    have ht₁ := (hgr g.name).trans ht
    refine ⟨by rw [ht₁]; rfl, fun hx => ⟨t, ht₁, fun v => ?_⟩⟩
    rw [hl, expected_congr fun m hm => hp m.value fun he => hx ⟨m, hm, he⟩]
  obtain ⟨hsp, hmi⟩ := foldl_groupUpdateIf pick x hv (hgro.symm ▸ h.unique) hpe
  have hg' : (groupUpdateByTag pick s₁ x).groups = s.groups := hsp.groups.trans hgro
  refine ⟨hsp.valued hv, by rw [hg']; exact h.unique, fun g hg => ?_, fun n hn => ?_, ?_, ?_⟩
  · rw [hg', ← hgro] at hg
    exact hmi g hg
  · rw [hg']
    refine h.tagOnly n ?_
    rw [← hgr, ← hsp.isSome]
    exact hn
  · rw [hg']
    exact h.members
  · rw [hg']
    exact h.rowsOnly

variable {values : List Entry}

theorem Inv.plainAdd (h : Inv rows s) (name : Text)
    (hd : Distinct values) : Inv rows (plainAdd pick s name values).2 := by
  rw [Tags.plainAdd, tagAdd]
  cases hdu : (tagFindByName s.tags name false).isSome with
  | true => exact h
  | false =>
    have hs := put_sets s (t := ⟨name, false, values⟩) hd
    change Inv rows (groupUpdateByTag pick (s.put ⟨name, false, values⟩) name)
    exact h.cascade pick rfl (hs.valued h.valued) (fun n hn => hs.other n false (by simpa using hn))
      fun n => hs.other n true (by simp)

theorem Inv.plainRemove (h : Inv rows s) (name : Text) : Inv rows (plainRemove pick s name).2 := by
  rw [Tags.plainRemove]
  cases ht : tagFindByName s.tags name false with
  | none => exact h
  | some t =>
    obtain ⟨rfl, hk⟩ := key_of_find ht
    have hf (n : Text) (k : Bool) (hn : (n, k) ≠ (t.name, false)) :
        tagFindByName (s.cut t).tags n k = tagFindByName s.tags n k := by
      rw [cut_find, if_neg (by rwa [Tag.key, hk])]
    have hs : tagRemove pick s t = groupUpdateByTag pick (s.cut t) t.name := by
      rw [tagRemove, hk]
      rfl
    change Inv rows (tagRemove pick s t)
    rw [hs]
    exact h.cascade pick rfl (cut_valued h.valued t) (fun n hn => hf n false (by simpa using hn))
      fun n => hf n true (by simp)

theorem Inv.plainUpdate (h : Inv rows s) (name : Text)
    (hd : Distinct values) : Inv rows (plainUpdate pick s name values).2 := by
  rw [Tags.plainUpdate]
  cases ht : tagFindByName s.tags name false with
  | none => exact h
  | some t =>
    have hs := tagReplace_sets pick h.valued ht hd
    obtain ⟨rfl, hk⟩ := key_of_find ht
    have hst : tagUpdate pick s t values = groupUpdateByTag pick (tagReplace pick s t values) t.name := by
      rw [tagUpdate, hk]
      rfl
    change Inv rows (tagUpdate pick s t values)
    rw [hst]
    exact h.cascade pick rfl (hs.valued h.valued) (fun n hn => hs.other n false (by simpa using hn))
      fun n => hs.other n true (by simp)

/-! ## Group events -/

variable {groups : List Group} {g : Group}

theorem groupFind_of_mem (hu : Keyed.Unique Group.name groups)
    (hg : g ∈ groups) : groupFindByName groups g.name = some g := find_of_mem hu hg

theorem mem_of_groupFind {n : Text} (h : groupFindByName groups n = some g) : g ∈ groups ∧ g.name = n :=
  ⟨Keyed.mem_of_find h, Keyed.key_of_find h⟩

theorem mirrors_congr {tags tags' : List Tag} (h : Mirrors tags g)
    (hp : ∀ n, tagFindByName tags' n false = tagFindByName tags n false)
    (hs : tagFindByName tags' g.name true = tagFindByName tags g.name true) : Mirrors tags' g := by
  obtain ⟨t, ht, hl⟩ := h
  refine ⟨t, hs.trans ht, fun v => ?_⟩
  rw [hl, expected_congr fun m _ => hp m.value]

/-- One group was put into its place or taken away, along with its row. -/
structure Regrouped (s s' : Sys) (name : Text) (new : Option Group) (row : Option (List Text)) : Prop where
  valued : Valued s'.tags
  unique : Keyed.Unique Group.name s'.groups
  groups : ∀ n, groupFindByName s'.groups n = if n = name then new else groupFindByName s.groups n
  plain : ∀ n, tagFindByName s'.tags n false = tagFindByName s.tags n false
  others : ∀ n, n ≠ name → tagFindByName s'.tags n true = tagFindByName s.tags n true
  put : ∀ g ∈ new, Mirrors s'.tags g ∧ ∃ r, row = some r ∧ ∀ e, e ∈ g.tags ↔ e ∈ r.map memberRef
  gone : new = none → row = none ∧ tagFindByName s'.tags name true = none

theorem Inv.regroup {s s' : Sys} {name : Text} {new : Option Group} {row : Option (List Text)}
    (h : Inv rows s) (hr : Regrouped s s' name new row) : Inv (update rows name row) s' := by
  have hme (g : Group) (hg : g ∈ s'.groups) : (g.name = name ∧ new = some g) ∨ (g ∈ s.groups ∧ g.name ≠ name) := by
    have hf := groupFind_of_mem hr.unique hg
    rw [hr.groups] at hf
    split_ifs at hf with hn
    · exact .inl ⟨hn, hf⟩
    · exact .inr ⟨(mem_of_groupFind hf).1, hn⟩
  refine ⟨hr.valued, hr.unique, fun g hg => ?_, fun n hn => ?_, fun g hg => ?_, fun n r hro => ?_⟩
  · rcases hme g hg with ⟨-, hnew⟩ | ⟨hm, hne⟩
    · exact (hr.put g hnew).1
    · exact mirrors_congr (h.mirrors g hm) hr.plain (hr.others _ hne)
  · rw [hr.groups]
    split_ifs with he
    · cases hnew : new with
      | none =>
        rw [he, (hr.gone hnew).2] at hn
        exact hn
      | some g => rfl
    · exact h.tagOnly n (hr.others n he ▸ hn)
  · rcases hme g hg with ⟨hn, hnew⟩ | ⟨hm, hne⟩
    · rw [hn, update_self]
      exact (hr.put g hnew).2
    · rw [update_of_ne hne]
      exact h.members g hm
  · rw [hr.groups]
    split_ifs with he
    · rw [he, update_self] at hro
      cases hnew : new with
      | none => exact nomatch (hr.gone hnew).1.symm.trans hro
      | some g => rfl
    · rw [update_of_ne he] at hro
      exact h.rowsOnly n r hro

theorem Inv.groupAdd (h : Inv rows s) (row : GroupRow) : Inv (if (groupFindByName s.groups row.name).isSome then rows
      else update rows row.name (some row.tags)) (groupAddFromSchema pick s row).2 := by
  rw [groupAddFromSchema]
  cases hf : groupFindByName s.groups row.name with
  | some g => exact h
  | none =>
    set g : Group := ⟨row.name, groupListFromSchema row⟩ with hg
    obtain ⟨hd, hlo⟩ := groupAppendMembers_spec pick h.valued g
    have hno : (tagFindByName s.tags row.name true).isSome ≠ true := fun ht => by
      have hso := h.tagOnly row.name ht
      rw [hf] at hso
      cases hso
    set t : Tag := ⟨row.name, true, groupAppendMembers pick s.tags g []⟩ with ht
    set s₁ : Sys := { s with groups := insert Group.name strLt g s.groups } with hs₁
    have hs : Sets s.tags (s₁.put t).tags row.name true (look t.values) := put_sets s₁ hd
    have ha : (tagAdd pick s₁ t).2 = s₁.put t := by
      rw [tagAdd, if_neg hno]
      rfl
    change Inv _ (tagAdd pick s₁ t).2
    rw [ha]
    refine h.regroup ⟨hs.valued h.valued, h.unique.insert strLt hf, fun n => find_insert strLt_irrefl,
      fun n => hs.other n false (by simp), fun n hn => hs.other n true (by simpa using hn), fun g' hg' => ?_,
      fun h => by cases h⟩
    obtain rfl := some.inj hg'
    obtain ⟨t', ht', -, hl⟩ := hs.self
    refine ⟨⟨t', ht', fun v => ?_⟩, row.tags, rfl, fun e => (groupListFromSchema_perm row).mem_iff⟩
    rw [hl, hlo, expected_congr fun m _ => hs.other m.value false (by simp)]

theorem Inv.groupRemove (h : Inv rows s) (name : Text) :
    Inv (update rows name none) (groupRemoveFromSchema pick s name).2 := by
  rw [groupRemoveFromSchema]
  cases hf : groupFindByName s.groups name with
  | none =>
    have hro : rows name = none := by
      cases hr : rows name with
      | none => rfl
      | some row =>
        have := h.rowsOnly name row hr
        rw [hf] at this
        cases this
    rw [update_eq_self_iff.mpr hro.symm]
    exact h
  | some g =>
    obtain ⟨hg, rfl⟩ := mem_of_groupFind hf
    obtain ⟨t, ht, -⟩ := h.mirrors g hg
    obtain ⟨hn, hk⟩ := key_of_find ht
    set s₁ : Sys := { s with groups := drop Group.name g.name s.groups } with hs₁
    have hs : tagRemove pick s₁ t = s₁.cut t := by
      rw [tagRemove, hk]
      rfl
    have hfi (n : Text) (k : Bool) (hne : (n, k) ≠ (g.name, true)) :
        tagFindByName (s₁.cut t).tags n k = tagFindByName s.tags n k := by
      rw [cut_find, if_neg (by rwa [Tag.key, hn, hk])]
    have ht' : tagFindByName s₁.tags g.name true = some t := ht
    simp only [ht', hs]
    exact h.regroup ⟨cut_valued h.valued t, h.unique.drop _, fun n => find_drop .., fun n => hfi n false (by simp),
      fun n hne => hfi n true (by simpa using hne), fun _ h => (by cases h),
      fun _ => ⟨rfl, by rw [cut_find, if_pos (by rw [Tag.key, hn, hk])]⟩⟩

/-- Neither the member list that the update finds nor its row names a tag twice. -/
def RowSafe (s : Sys) (row : GroupRow) : Prop :=
  ∀ g, groupFindByName s.groups row.name = some g → Distinct g.tags ∧ Distinct (row.tags.map memberRef)

theorem Inv.groupUpdate (h : Inv rows s) {row : GroupRow} (hs : RowSafe s row) :
    Inv (if (groupFindByName s.groups row.name).isSome then update rows row.name (some row.tags)
      else rows) (groupUpdateFromSchema pick s row).2 := by
  rw [groupUpdateFromSchema]
  cases hf : groupFindByName s.groups row.name with
  | none => exact h
  | some g =>
    obtain ⟨ho, hr⟩ := hs g hf
    obtain ⟨hg, hna⟩ := mem_of_groupFind hf
    have hne : Distinct (groupListFromSchema row) := hr.perm (groupListFromSchema_perm row)
    obtain ⟨hd, hl⟩ := applyDiff_spec pick ho hne
    set g₁ : Group := { g with tags := applyDiff pick g.tags (listDiff pick g.tags (groupListFromSchema row)) }
      with hg₁
    set s₁ : Sys := { s with groups := replace Group.name g₁ s.groups } with hs₁
    have hm (e : Entry) : e ∈ g₁.tags ↔ e ∈ row.tags.map memberRef := by
      rw [← (groupListFromSchema_perm row).mem_iff, mem_iff_look hd, mem_iff_look hne, hl]
    obtain ⟨t, ht, -⟩ := h.mirrors g hg
    obtain ⟨hsp, hmi⟩ := groupUpdate_spec pick (s := s₁) h.valued g₁
    have hgf (n : Text) : groupFindByName s₁.groups n = if n = g.name then some g₁ else groupFindByName s.groups n := by
      refine (find_replace).trans ?_
      split_ifs with he
      · have hn : n = row.name := he.trans hna
        rw [hn, show find Group.name row.name s.groups = some g from hf]
        rfl
      · rfl
    simp only [isSome_some, if_true]
    rw [← hna]
    change Inv _ (Tags.groupUpdate pick s₁ g₁)
    refine h.regroup ⟨hsp.valued h.valued, hsp.groups ▸ h.unique.replace _,
      fun n => (congrArg (groupFindByName · n) hsp.groups).trans (hgf n), hsp.plain,
      fun n hn => hsp.group n (by simpa using hn), fun g' hg' => ?_, fun h => by cases h⟩
    obtain rfl := some.inj hg'
    exact ⟨hmi (by rw [show tagFindByName s₁.tags g₁.name true = some t from ht]; rfl), row.tags, rfl, hm⟩

/-! ## Runs -/

/-- The rows of the group table that the code has taken over. -/
def recordRow (s : Sys) (rows : Rows) : Event → Rows
  | .groupAdd row => if (groupFindByName s.groups row.name).isSome then rows
    else Function.update rows row.name (some row.tags)
  | .groupUpdate row => if (groupFindByName s.groups row.name).isSome then
      Function.update rows row.name (some row.tags)
    else rows
  | .groupRemove name => Function.update rows name none
  | _ => rows

def stepRows (w : Sys × Rows) (e : Pick × Event) : Sys × Rows :=
  (step e.1 w.1 e.2, recordRow w.1 w.2 e.2)

/-- The state after a run, and the rows. Each event comes with the choices of its lookups. -/
def run (es : List (Pick × Event)) : Sys × Rows := es.foldl stepRows (empty, fun _ => none)

def EventSafe (s : Sys) : Event → Prop
  | .groupUpdate row => RowSafe s row
  | _ => True

/-- Every group update of the run finds and brings rows that name no tag twice. -/
def RunSafe : Sys → List (Pick × Event) → Prop
  | _, [] => True
  | s, e :: es => EventSafe s e.2 ∧ RunSafe (step e.1 s e.2) es

theorem Inv.step (h : Inv rows s) {e : Event} (hs : EventSafe s e) : Inv (recordRow s rows e) (step pick s e) := by
  have h₀ := h.notes []
  cases e with
  | tagAdd row => exact h₀.plainAdd pick _ (tagListFromSchema_distinct pick row)
  | tagUpdate row => exact h₀.plainUpdate pick _ (tagListFromSchema_distinct pick row)
  | tagRemove name | localTagRemove name => exact h₀.plainRemove pick name
  | localTagAdd row => exact h₀.plainAdd pick _ (localTagListFromSchema_distinct row)
  | localTagUpdate row => exact h₀.plainUpdate pick _ (localTagListFromSchema_distinct row)
  | groupAdd row => exact h₀.groupAdd pick row
  | groupUpdate row => exact h₀.groupUpdate pick hs
  | groupRemove name => exact h₀.groupRemove pick name

theorem Inv.run {es : List (Pick × Event)} (h : Inv rows s)
    (hs : RunSafe s es) : Inv (es.foldl stepRows (s, rows)).2 (es.foldl stepRows (s, rows)).1 := by
  induction es generalizing s rows with
  | nil => exact h
  | cons e es ih => exact ih (h.step e.1 hs.1) hs.2

/-- After every run in which no group update meets a name twice, a group's tag has exactly the values
that its row asks for, with the flags of all matching references together. -/
theorem group_mirrors_row (es : List (Pick × Event)) (hsafe : RunSafe empty es) (name : Text)
    (row : List Text) (hrow : (run es).2 name = some row) :
    ∃ t, tagFindByName (run es).1.tags name true = some t ∧ Distinct t.values ∧
      ∀ v, look t.values v = expected (run es).1.tags (row.map memberRef) v := by
  have hin : Inv (run es).2 (run es).1 := inv_empty.run hsafe
  obtain ⟨g, hg⟩ := isSome_iff_exists.mp (hin.rowsOnly name row hrow)
  obtain ⟨hme, rfl⟩ := mem_of_groupFind hg
  obtain ⟨t, ht, hl⟩ := hin.mirrors g hme
  obtain ⟨row', hr', hm⟩ := hin.members g hme
  cases hrow.symm.trans hr'
  refine ⟨t, ht, hin.valued _ _ _ ht, fun v => (hl v).trans ?_⟩
  exact expected_mem_congr _ hm v

def firstPick : Pick := fun _ _ => 0

def updatedGroup (row : List Text) : List (Pick × Event) :=
  [(firstPick, .tagAdd ⟨['a'], [], [['v']], List.nodup_nil⟩), (firstPick, .groupAdd ⟨['g'], []⟩),
    (firstPick, .groupUpdate ⟨['g'], row⟩)]

theorem updatedGroup_mirrors : ∃ t, tagFindByName (run (updatedGroup [['#', 'a']])).1.tags ['g'] true =
    some t ∧ Distinct t.values ∧ ∀ v, look t.values v =
      expected (run (updatedGroup [['#', 'a']])).1.tags ([['#', 'a']].map memberRef) v := by
  refine group_mirrors_row (updatedGroup [['#', 'a']]) ⟨trivial, trivial, fun g hg => ?_, trivial⟩ ['g']
    [['#', 'a']] rfl
  cases hg
  exact ⟨nodup_nil, nodup_singleton _⟩

/-- Under two prefixes at once only one of the references is kept, and the value of the other is lost. -/
theorem two_prefixes_lose_values :
    (run (updatedGroup [['@', 'a'], ['#', 'a']])).2 ['g'] = some [['@', 'a'], ['#', 'a']] ∧
      tagFindByName (run (updatedGroup [['@', 'a'], ['#', 'a']])).1.tags ['g'] true = some ⟨['g'], true, []⟩ ∧
      expected (run (updatedGroup [['@', 'a'], ['#', 'a']])).1.tags
        ([['@', 'a'], ['#', 'a']].map memberRef) ['v'] = some flagCloud := by
  refine ⟨rfl, ?_, ?_⟩
  · decide
  · decide

end OpenSync.Tags
