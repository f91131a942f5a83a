import OpenSync.TagGroups

/-!
# What the services are told

Each report of an event describes one change of the tag table: the values of one tag before and after,
by their difference, while the service sees all other tags as they are. The reports of an event form a
chain from the table before to the table after it.
-/

namespace OpenSync.Tags
open List Keyed

def valuesOf (tags : List Tag) (n : Text) (k : Bool) : List Entry :=
  match tagFindByName tags n k with
  | some t => t.values
  | none => []

variable {n : Text} {k : Bool}

theorem valuesOf_congr {tags tags' : List Tag}
    (h : tagFindByName tags' n k = tagFindByName tags n k) : valuesOf tags' n k = valuesOf tags n k := by
  rw [valuesOf, valuesOf, h]

variable {tags : List Tag} {t : Tag}

theorem valuesOf_some (h : tagFindByName tags n k = some t) : valuesOf tags n k = t.values := by
  rw [valuesOf, h]

theorem valuesOf_none (h : tagFindByName tags n k = none) : valuesOf tags n k = [] := by
  rw [valuesOf, h]

theorem Valued.distinct (h : Valued tags) (n : Text) (k : Bool) : Distinct (valuesOf tags n k) := by
  cases ht : tagFindByName tags n k with
  | none =>
    rw [valuesOf_none ht]
    exact nodup_nil
  | some t =>
    rw [valuesOf_some ht]
    exact h n k t ht

/-- The note tells how the table changes from `tags` to `tags'`. -/
structure Changes (tags tags' : List Tag) (n : Note) : Prop where
  seen : ∀ m k, (m, k) ≠ n.tag.key → valuesOf n.tags m k = valuesOf tags m k
  other : ∀ m k, (m, k) ≠ n.tag.key → valuesOf tags' m k = valuesOf tags m k
  delta : DiffSpec (valuesOf tags n.tag.name n.tag.group) (valuesOf tags' n.tag.name n.tag.group)
    ⟨n.removed, n.added, n.updated⟩

def Chain : List Tag → List Note → List Tag → Prop
  | tags, [], tags' => tags' = tags
  | tags, n :: ns, tags' => ∃ mid, Changes tags mid n ∧ Valued mid ∧ Chain mid ns tags'

theorem Chain.append {tags mid tags' : List Tag} {ns ns' : List Note} (h : Chain tags ns mid)
    (h' : Chain mid ns' tags') : Chain tags (ns ++ ns') tags' := by
  induction ns generalizing tags with
  | nil =>
    obtain rfl : mid = tags := h
    exact h'
  | cons n ns ih =>
    obtain ⟨m, hc, hv, hr⟩ := h
    exact ⟨m, hc, hv, ih hr⟩

/-- The log grows by a chain of notes, and the values stay distinct. -/
def Logs (s s' : Sys) : Prop :=
  ∃ ns, s'.notes = s.notes ++ ns ∧ Chain s.tags ns s'.tags ∧ Valued s'.tags

variable {s : Sys}

theorem Logs.refl (h : Valued s.tags) : Logs s s := ⟨[], by simp, rfl, h⟩

theorem Logs.trans {s s' s'' : Sys} (h : Logs s s') (h' : Logs s' s'') : Logs s s'' := by
  obtain ⟨ns, hn, hc, -⟩ := h
  obtain ⟨ns', hn', hc', hv⟩ := h'
  exact ⟨ns ++ ns', by rw [hn', hn, append_assoc], hc.append hc', hv⟩

theorem Logs.valued {s s' : Sys} (h : Logs s s') : Valued s'.tags := by
  obtain ⟨-, -, -, hv⟩ := h
  exact hv

theorem logs_single {s s' : Sys} {n : Note} (hn : s'.notes = s.notes ++ [n])
    (hc : Changes s.tags s'.tags n) (hv : Valued s'.tags) : Logs s s' :=
  ⟨[n], hn, ⟨s'.tags, hc, hv, rfl⟩, hv⟩

theorem diffSpec_congr {old new new' : List Entry} {d : Diff} (h : DiffSpec old new d)
    (hl : ∀ v, look new' v = look new v) : DiffSpec old new' d where
  distinct := h.distinct
  removed v := by rw [hl, h.removed]
  added v := by rw [hl, h.added]
  updated v := by rw [hl, h.updated]

variable {l : List Entry}

theorem diffSpec_add (h : Distinct l) : DiffSpec [] l ⟨[], l, []⟩ where
  distinct := ⟨nodup_nil, h, nodup_nil⟩
  removed v := by split_ifs <;> rfl
  added v := (if_pos rfl).symm
  updated v := (if_pos rfl).symm

theorem diffSpec_remove (h : Distinct l) : DiffSpec l [] ⟨l, [], []⟩ where
  distinct := ⟨h, nodup_nil, nodup_nil⟩
  removed v := (if_pos rfl).symm
  added v := by split_ifs <;> rfl
  updated v := by split_ifs <;> rfl

variable (pick : Pick)

theorem tagReplace_logs {new : List Entry}
    (hv : Valued s.tags) (ht : tagFindByName s.tags n k = some t) (hn : Distinct new) :
    Logs s (tagReplace pick s t new) := by
  have hs := tagReplace_sets pick hv ht hn
  obtain ⟨rfl, rfl⟩ := key_of_find ht
  obtain ⟨t', ht', -, hl⟩ := hs.self
  refine logs_single rfl ⟨fun m k _ => rfl, fun m k hne => valuesOf_congr (hs.other m k hne), ?_⟩ (hs.valued hv)
  rw [valuesOf_some ht, valuesOf_some ht']
  exact diffSpec_congr (listDiff_spec pick (hv _ _ _ ht) hn) hl

theorem put_logs (hv : Valued s.tags) (hd : Distinct t.values)
    (hn : tagFindByName s.tags t.name t.group = none) : Logs s (s.put t) := by
  have hs := put_sets s hd
  have hse : tagFindByName (s.put t).tags t.name t.group = some t :=
    (find_insert fun a => strLt_irrefl a.1).trans (if_pos rfl)
  refine logs_single rfl ⟨fun m k hne => valuesOf_congr (hs.other m k hne),
    fun m k hne => valuesOf_congr (hs.other m k hne), ?_⟩ (hs.valued hv)
  rw [valuesOf_none hn, valuesOf_some hse]
  exact diffSpec_add hd

theorem cut_logs (hv : Valued s.tags) (ht : tagFindByName s.tags n k = some t) : Logs s (s.cut t) := by
  obtain ⟨rfl, rfl⟩ := key_of_find ht
  have ho (m : Text) (k : Bool) (hne : (m, k) ≠ t.key) : valuesOf (s.cut t).tags m k = valuesOf s.tags m k :=
    valuesOf_congr ((cut_find s t m k).trans (if_neg hne))
  have hs : tagFindByName (s.cut t).tags t.name t.group = none := (cut_find s t t.name t.group).trans (if_pos rfl)
  refine logs_single rfl ⟨ho, ho, ?_⟩ (cut_valued hv t)
  rw [valuesOf_some ht, valuesOf_none hs]
  exact diffSpec_remove (hv _ _ _ ht)

open Logs

section

variable (hv : Valued s.tags)
include hv

theorem groupUpdate_logs (g : Group) : Logs s (groupUpdate pick s g) := by
  rw [groupUpdate]
  cases ht : tagFindByName s.tags g.name true with
  | none => exact refl hv
  | some t => exact tagReplace_logs pick hv ht (groupAppendMembers_spec pick hv g).1

theorem groupUpdateByTag_logs (x : Text) : Logs s (groupUpdateByTag pick s x) := by
  rw [groupUpdateByTag]
  generalize s.groups = gs
  induction gs generalizing s with
  | nil => exact refl hv
  | cons g gs ih =>
    have hs : Logs s (groupUpdateIf pick x s g) := by
      rw [groupUpdateIf]
      split_ifs
      · exact groupUpdate_logs pick hv g
      · exact refl hv
    exact hs.trans (ih hs.valued)

omit hv in
theorem cascade_logs {s s' : Sys} (h : Logs s s') (k : Bool) (x : Text) :
    Logs s (if k then s' else groupUpdateByTag pick s' x) := by
  split_ifs
  · exact h
  · exact h.trans (groupUpdateByTag_logs pick h.valued x)

theorem tagAdd_logs (hd : Distinct t.values) : Logs s (tagAdd pick s t).2 := by
  rw [tagAdd]
  cases hf : tagFindByName s.tags t.name t.group with
  | some t' => exact refl hv
  | none => exact cascade_logs pick (put_logs hv hd hf) t.group t.name

theorem tagRemove_logs (ht : tagFindByName s.tags n k = some t) : Logs s (tagRemove pick s t) :=
  cascade_logs pick (cut_logs hv ht) t.group t.name

variable (name : Text)

theorem plainRemove_logs : Logs s (plainRemove pick s name).2 := by
  rw [plainRemove]
  cases ht : tagFindByName s.tags name false with
  | none => exact refl hv
  | some t => exact tagRemove_logs pick hv ht

theorem plainUpdate_logs
    {values : List Entry} (hd : Distinct values) : Logs s (plainUpdate pick s name values).2 := by
  rw [plainUpdate]
  cases ht : tagFindByName s.tags name false with
  | none => exact refl hv
  | some t => exact cascade_logs pick (tagReplace_logs pick hv ht hd) t.group t.name

omit hv in
theorem Logs.groups {s s' : Sys} (gs : List Group) (h : Logs { s with groups := gs } s') : Logs s s' := h

theorem groupAdd_logs (row : GroupRow) : Logs s (groupAddFromSchema pick s row).2 := by
  rw [groupAddFromSchema]
  cases hf : groupFindByName s.groups row.name with
  | some g => exact refl hv
  | none =>
    refine groups (insert Group.name strLt ⟨row.name, groupListFromSchema row⟩ s.groups) ?_
    exact tagAdd_logs pick hv (groupAppendMembers_spec pick hv _).1

theorem groupRemove_logs : Logs s (groupRemoveFromSchema pick s name).2 := by
  rw [groupRemoveFromSchema]
  cases hf : groupFindByName s.groups name with
  | none => exact refl hv
  | some g =>
    refine groups (drop Group.name name s.groups) ?_
    cases ht : tagFindByName s.tags g.name true with
    | none =>
      simp only [ht]
      exact refl hv
    | some t =>
      simp only [ht]
      exact tagRemove_logs pick hv ht

theorem groupUpdateFromSchema_logs (row : GroupRow) :
    Logs s (groupUpdateFromSchema pick s row).2 := by
  rw [groupUpdateFromSchema]
  cases hf : groupFindByName s.groups row.name with
  | none => exact refl hv
  | some g =>
    let g' : Group := ⟨g.name, applyDiff pick g.tags (listDiff pick g.tags (groupListFromSchema row))⟩
    exact groupUpdate_logs pick (s := { s with groups := replace Group.name g' s.groups }) hv g'

end

/-! ## The lists of rows -/

theorem foldl_add_distinct {vs : List Text} (h : vs.Nodup) (f : Flags) :
    Distinct (vs.foldl (fun l v => entryAdd l ⟨v, f⟩) []) := by
  have hf : vs.foldl (fun l v => entryAdd l ⟨v, f⟩) [] = (vs.map (Entry.mk · f)).foldl entryAdd [] := by
    rw [foldl_map]
  have hp := foldl_entryAdd_perm (vs.map (Entry.mk · f)) []
  rw [append_nil] at hp
  rw [hf]
  refine Distinct.perm ?_ hp
  rw [Distinct, Keyed.Unique, map_map]
  exact (map_id vs).symm ▸ h

theorem cloudStep_distinct (h : Distinct l) (v : Text) : Distinct (cloudStep pick l v) := by
  rw [cloudStep, isSome_find h]
  cases hf : look l v with
  | none => exact h.entryAdd hf
  | some f => exact (entrySetFlags_spec pick h (fun f => f ||| flagCloud) hf).1

theorem tagListFromSchema_distinct (row : TagRow) : Distinct (tagListFromSchema pick row) := by
  rw [tagListFromSchema]
  have hd := foldl_add_distinct row.device_nodup flagDevice
  generalize row.device.foldl (fun l v => entryAdd l ⟨v, flagDevice⟩) [] = l at hd
  induction row.cloud generalizing l with
  | nil => exact hd
  | cons v vs ih => exact ih _ (cloudStep_distinct pick hd v)

theorem localTagListFromSchema_distinct (row : LocalTagRow) : Distinct (localTagListFromSchema row) :=
  foldl_add_distinct row.nodup flagLocal

theorem step_chain (hv : Valued s.tags) (e : Event) :
    Chain s.tags (step pick s e).notes (step pick s e).tags ∧ Valued (step pick s e).tags := by
  have hl : Logs { s with notes := [] } (step pick s e) := by
    replace hv : Valued ({ s with notes := [] } : Sys).tags := hv
    cases e with
    | tagAdd row => exact tagAdd_logs pick hv (tagListFromSchema_distinct pick row)
    | tagUpdate row => exact plainUpdate_logs pick hv _ (tagListFromSchema_distinct pick row)
    | tagRemove name | localTagRemove name => exact plainRemove_logs pick hv name
    | localTagAdd row => exact tagAdd_logs pick hv (localTagListFromSchema_distinct row)
    | localTagUpdate row => exact plainUpdate_logs pick hv _ (localTagListFromSchema_distinct row)
    | groupAdd row => exact groupAdd_logs pick hv row
    | groupUpdate row => exact groupUpdateFromSchema_logs pick hv row
    | groupRemove name => exact groupRemove_logs pick hv name
  obtain ⟨ns, hn, hc, hv'⟩ := hl
  obtain rfl : (step pick s e).notes = ns := hn
  exact ⟨hc, hv'⟩

/-! ## Copies -/

def events (s : Sys) (es : List (Pick × Event)) : Sys := es.foldl (fun s e => step e.1 s e.2) s

def reports : Sys → List (Pick × Event) → List Note
  | _, [] => []
  | s, e :: es => (step e.1 s e.2).notes ++ reports (step e.1 s e.2) es

/-- The copy of a tag that a service keeps from the reports. -/
def heard (n : Text) (k : Bool) (l : List Entry) (note : Note) : List Entry :=
  if note.tag.key = (n, k) then applyDiff pick l ⟨note.removed, note.added, note.updated⟩ else l

theorem Chain.heard {ns : List Note} {tags' : List Tag} (h : Chain tags ns tags') (hd : Distinct l)
    (hl : ∀ v, look l v = look (valuesOf tags n k) v) (v : Text) :
    look (ns.foldl (heard pick n k) l) v = look (valuesOf tags' n k) v := by
  induction ns generalizing tags l with
  | nil =>
    cases h
    exact hl v
  | cons note ns ih =>
    obtain ⟨mid, hc, -, hr⟩ := h
    rw [foldl_cons, Tags.heard]
    split_ifs with hk
    · obtain ⟨rfl, rfl⟩ := Prod.mk.inj hk
      obtain ⟨hd', hl'⟩ := hc.delta.applied pick hd hl
      exact ih hr hd' hl'
    · exact ih hr hd fun v => by rw [hl, hc.other n k (Ne.symm hk)]

theorem reports_chain (hv : Valued s.tags) (es : List (Pick × Event)) :
    Chain s.tags (reports s es) (events s es).tags := by
  induction es generalizing s with
  | nil => rfl
  | cons e es ih =>
    obtain ⟨hc, hv'⟩ := step_chain e.1 hv e.2
    exact hc.append (ih hv')

/-- The reports of any events, applied in order, give the values of every tag and every group. -/
theorem reports_give_values (es : List (Pick × Event)) (n : Text) (k : Bool) (v : Text) :
    look ((reports empty es).foldl (heard pick n k) []) v = look (valuesOf (events empty es).tags n k) v := by
  have hv : Valued empty.tags := fun _ _ _ h => by cases h
  exact (reports_chain hv es).heard pick (l := []) nodup_nil (fun _ => rfl) v

end OpenSync.Tags
