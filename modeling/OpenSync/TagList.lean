import OpenSync.Keyed

/-!
# Tag lists

The lists of `policy_tag_list.c` are trees ordered by value; here they are the sequences of their
entries. An entry is inserted in front of its equals. When a list holds several entries with one value,
which of them a lookup finds depends on the shape of the tree: that choice is the parameter `Pick`. With
distinct values a list is a map from values to flags (`look`), and the difference of two lists turns the
one map into the other.
-/

namespace OpenSync.Tags
open List Option Keyed

abbrev Text := List Char

abbrev Flags := UInt8

def flagDevice : Flags := 1
def flagLocal : Flags := 2
def flagCloud : Flags := 4
def flagGroup : Flags := 8

/-- `OM_TLE_VAR_FLAGS` -/
def varFlags (f : Flags) : Flags := f &&& (flagLocal ||| flagDevice ||| flagCloud)

structure Entry where
  value : Text
  flags : Flags
  deriving DecidableEq

/-- `strcmp(a, b) < 0` -/
def strLt (a b : Text) : Bool := a < b

/-- Which of the equal entries of a list a lookup of the value finds. -/
abbrev Pick := List Entry → Text → ℕ

def entryAdd (l : List Entry) (e : Entry) : List Entry := Keyed.insert Entry.value strLt e l

section Lookup

variable (pick : Pick) (l : List Entry) (v : Text)

def rank : ℕ := pick l v % (l.filter (·.value = v)).length

def entryFindByValue : Option Entry := (l.filter (·.value = v))[rank pick l v]?

/-- The first entry with the value, among those that share a flag if flags are given. -/
def entryFindByValFlags (flags : Flags) : Option Entry :=
  l.find? fun e => (flags = 0 || e.flags &&& flags ≠ 0) && e.value = v

end Lookup

/-- The entry with number `j` among those with value `v` becomes the entries `g e`. -/
def onNth (v : Text) (g : Entry → List Entry) : ℕ → List Entry → List Entry
  | _, [] => []
  | j, e :: l =>
    if e.value = v then
      match j with
      | 0 => g e ++ l
      | j + 1 => e :: onNth v g j l
    else e :: onNth v g j l

def entryRemove (pick : Pick) (l : List Entry) (v : Text) : List Entry :=
  onNth v (fun _ => []) (rank pick l v) l

def entrySetFlags (pick : Pick) (l : List Entry) (v : Text) (g : Flags → Flags) : List Entry :=
  onNth v (fun e => [{ e with flags := g e.flags }]) (rank pick l v) l

/-- A new list of the entries that `g` makes out of the entries of a list. -/
def collect (g : Entry → Option Entry) (l : List Entry) : List Entry := (l.filterMap g).foldl entryAdd []

structure Diff where
  removed : List Entry
  added : List Entry
  updated : List Entry

def listDiff (pick : Pick) (old new : List Entry) : Diff where
  removed := collect (fun o => if (entryFindByValue pick new o.value).isNone then some o else none) old
  added := collect (fun n => if (entryFindByValue pick old n.value).isNone then some n else none) new
  updated := collect (fun o => (entryFindByValue pick new o.value).filter (·.flags ≠ o.flags)) old

def removeStep (pick : Pick) (l : List Entry) (d : Entry) : List Entry :=
  if (entryFindByValue pick l d.value).isSome then entryRemove pick l d.value else l

def addStep (pick : Pick) (l : List Entry) (d : Entry) : List Entry :=
  if (entryFindByValue pick l d.value).isNone then entryAdd l d else l

def updateStep (pick : Pick) (l : List Entry) (d : Entry) : List Entry :=
  if (entryFindByValue pick l d.value).isSome then entrySetFlags pick l d.value fun _ => d.flags else l

def applyDiff (pick : Pick) (l : List Entry) (diff : Diff) : List Entry :=
  let l := diff.removed.foldl (removeStep pick) l
  let l := diff.added.foldl (addStep pick) l
  diff.updated.foldl (updateStep pick) l

def passes (filter flags : Flags) : Bool := filter = 0 || flags &&& filter ≠ 0

def appendStep (pick : Pick) (filter : Flags) (dest : List Entry) (e : Entry) : List Entry :=
  if passes filter e.flags then
    if (entryFindByValue pick dest e.value).isSome then
      entrySetFlags pick dest e.value fun f => f ||| e.flags
    else entryAdd dest e
  else dest

def appendList (pick : Pick) (dest src : List Entry) (filter : Flags) : List Entry :=
  src.foldl (appendStep pick filter) dest

/-! ## Lists with distinct values -/

def Distinct (l : List Entry) : Prop := Keyed.Unique Entry.value l

def look (l : List Entry) (v : Text) : Option Flags := (Keyed.find Entry.value v l).map Entry.flags

theorem strLt_irrefl (a : Text) : strLt a a = false := by
  simp [strLt]

variable {pick : Pick} {l : List Entry} {v : Text}

open Entry

theorem find_eq_look : find Entry.value v l = (look l v).map (Entry.mk v) := by
  cases h : find value v l with
  | none => simp [look, h]
  | some e =>
    have hv : e.value = v := key_of_find h
    rw [look, h, ← hv]
    rfl

theorem look_cons (e : Entry) : look (e :: l) v = if e.value = v then some e.flags else look l v := by
  rw [look, find_cons]
  split_ifs <;> rfl

theorem look_eq_none : look l v = none ↔ ∀ e ∈ l, e.value ≠ v := by
  rw [look, map_eq_none_iff, find_eq_none]

variable {e : Entry}

theorem look_of_mem (h : Distinct l) (he : e ∈ l) : look l e.value = some e.flags := by
  rw [look, find_of_mem h he]
  rfl

variable {f : Flags}

theorem mem_of_look (h : look l v = some f) : ⟨v, f⟩ ∈ l := by
  have hf : find value v l = some ⟨v, f⟩ := by rw [find_eq_look, h]; rfl
  exact mem_of_find hf

section

variable (h : Distinct l)
include h

theorem mem_iff_look : e ∈ l ↔ look l e.value = some e.flags := ⟨look_of_mem h, mem_of_look⟩

theorem filter_distinct : l.filter (·.value = v) = (find Entry.value v l).toList := by
  induction l with
  | nil => rfl
  | cons e l ih =>
    obtain ⟨hne, hl⟩ := nodup_cons.mp h
    rw [find_cons]
    by_cases hv : e.value = v
    · have hn : find value v l = none := find_eq_none.mpr fun b hb he => hne (mem_map.mpr ⟨b, hb, he.trans hv.symm⟩)
      rw [filter_cons_of_pos (by simpa using hv), ih hl, if_pos hv, hn]
      rfl
    · rw [filter_cons_of_neg (by simpa using hv), ih hl, if_neg hv]

theorem rank_distinct : rank pick l v = 0 ∨ look l v = none := by
  rw [rank, filter_distinct h, look]
  cases find value v l with
  | none => exact .inr rfl
  | some e => exact .inl (Nat.mod_one _)

theorem entryFindByValue_eq : entryFindByValue pick l v = find Entry.value v l := by
  rw [entryFindByValue, rank, filter_distinct h]
  cases find value v l with
  | none => rfl
  | some e => simp [Nat.mod_one]

omit h in
theorem entryFindByValue_isSome (pick : Pick) (l : List Entry) (x : Text) :
    (entryFindByValue pick l x).isSome ↔ ∃ m ∈ l, m.value = x := by
  rw [entryFindByValue, isSome_iff_ne_none, ne_eq, getElem?_eq_none_iff, not_le, rank]
  constructor
  · intro h
    obtain ⟨m, hm⟩ := exists_mem_of_length_pos (Nat.lt_of_le_of_lt (Nat.zero_le _) h)
    rw [mem_filter] at hm
    exact ⟨m, hm.1, by simpa using hm.2⟩
  · rintro ⟨m, hm, hx⟩
    refine Nat.mod_lt _ (length_pos_of_mem (a := m) ?_)
    exact mem_filter.mpr ⟨hm, by simpa using hx⟩

theorem onNth_remove : onNth v (fun _ => []) 0 l = Keyed.drop Entry.value v l := by
  induction l with
  | nil => rfl
  | cons e l ih =>
    obtain ⟨hne, hl⟩ := nodup_cons.mp h
    rw [onNth, Keyed.drop]
    by_cases hv : e.value = v
    · rw [if_pos hv, filter_cons_of_neg (by simpa using hv)]
      refine (filter_eq_self.mpr fun b hb => ?_).symm
      have hbv : b.value ≠ v := fun he => hne (mem_map.mpr ⟨b, hb, he.trans hv.symm⟩)
      simpa using hbv
    · rw [if_neg hv, filter_cons_of_pos (by simpa using hv), ih hl]
      rfl

theorem onNth_set (g : Flags → Flags) (hf : look l v = some f) :
    onNth v (fun e => [{ e with flags := g e.flags }]) 0 l = Keyed.replace value ⟨v, g f⟩ l := by
  induction l with
  | nil => rfl
  | cons e l ih =>
    obtain ⟨hne, hl⟩ := nodup_cons.mp h
    rw [onNth, Keyed.replace, map_cons]
    rw [look, Keyed.find_cons] at hf
    by_cases hv : e.value = v
    · rw [if_pos hv, if_pos hv]
      rw [if_pos hv] at hf
      obtain rfl : e.flags = f := some.inj hf
      have hr : l.map (fun b => if b.value = v then ⟨v, g e.flags⟩ else b) = l := by
        refine (map_congr_left fun b hb => if_neg fun he => ?_).trans (map_id l)
        exact hne (mem_map.mpr ⟨b, hb, he.trans hv.symm⟩)
      rw [hr, hv]
      rfl
    · rw [if_neg hv] at hf
      rw [if_neg hv, if_neg hv, ih hl hf]
      rfl

end

/-! ## Steps that change one value -/

/-- A step that changes only the flags of the value of its entry, by `k`. -/
def PointStep (st : List Entry → Entry → List Entry) (k : Flags → Option Flags → Option Flags) : Prop :=
  ∀ l d, Distinct l → Distinct (st l d) ∧ ∀ v, look (st l d) v = if v = d.value then k d.flags (look l v) else look l v

theorem PointStep.foldl {st : List Entry → Entry → List Entry} {k : Flags → Option Flags → Option Flags}
    (h : PointStep st k) {ds : List Entry} (hds : Distinct ds) (hl : Distinct l) :
    Distinct (ds.foldl st l) ∧ ∀ v, look (ds.foldl st l) v = match look ds v with
        | some f => k f (look l v)
        | none => look l v := by
  induction ds generalizing l with
  | nil => exact ⟨hl, fun v => rfl⟩
  | cons d ds ih =>
    obtain ⟨hd, hds⟩ := nodup_cons.mp hds
    obtain ⟨hl', hlo⟩ := h l d hl
    obtain ⟨hdi, hr⟩ := ih hds hl'
    refine ⟨hdi, fun v => (hr v).trans ?_⟩
    rw [hlo v, look_cons]
    by_cases hv : d.value = v
    · have hn : look ds v = none := look_eq_none.mpr fun e he hev => hd (mem_map.mpr ⟨e, he, hev.trans hv.symm⟩)
      rw [hn, if_pos hv.symm, if_pos hv]
    · rw [if_neg fun he => hv he.symm, if_neg hv]

theorem isSome_find (h : Distinct l) : (entryFindByValue pick l v).isSome = (look l v).isSome := by
  rw [entryFindByValue_eq h, look, isSome_map]

theorem isNone_find (h : Distinct l) : (entryFindByValue pick l v).isNone = (look l v).isNone := by
  rw [entryFindByValue_eq h, look, isNone_map]

theorem look_drop : look (drop Entry.value v l) = fun w => if w = v then none else look l w := by
  funext w
  rw [look, find_drop]
  split_ifs <;> rfl

theorem look_entryAdd (e : Entry) (w : Text) :
    look (entryAdd l e) w = if w = e.value then some e.flags else look l w := by
  rw [look, entryAdd, find_insert strLt_irrefl]
  split_ifs <;> rfl

theorem Distinct.entryAdd (h : Distinct l) (he : look l e.value = none) : Distinct (entryAdd l e) :=
  Unique.insert h strLt (by rw [find_eq_look, he]; rfl)

theorem point_self {d : Entry} {x : Option Flags} (h : Distinct l) (hx : look l d.value = x) :
    Distinct l ∧ ∀ v, look l v = if v = d.value then x else look l v := by
  refine ⟨h, fun v => ?_⟩
  split_ifs with hv
  · rw [hv, hx]
  · rfl

theorem removeStep_point : PointStep (removeStep pick) fun _ _ => none := by
  intro l d h
  cases hf : look l d.value with
  | none =>
    have hst : removeStep pick l d = l := by rw [removeStep, isSome_find h, hf]; rfl
    rw [hst]
    exact point_self h hf
  | some f =>
    have hr : rank pick l d.value = 0 := (rank_distinct h).resolve_right (by simp [hf])
    have hst : removeStep pick l d = drop value d.value l := by
      rw [removeStep, isSome_find h, hf, ← onNth_remove h, ← hr]
      rfl
    rw [hst, look_drop]
    exact ⟨Unique.drop h _, fun v => rfl⟩

theorem addStep_point : PointStep (addStep pick) fun f x => some (x.getD f) := by
  intro l d h
  cases hf : look l d.value with
  | none =>
    have hst : addStep pick l d = entryAdd l d := by rw [addStep, isNone_find h, hf]; rfl
    rw [hst]
    refine ⟨h.entryAdd hf, fun v => (look_entryAdd d v).trans ?_⟩
    split_ifs with hv
    · rw [hv, hf]
      rfl
    · rfl
  | some f =>
    have hst : addStep pick l d = l := by rw [addStep, isNone_find h, hf]; rfl
    rw [hst]
    refine ⟨h, fun v => ?_⟩
    split_ifs with hv
    · rw [hv, hf]
      rfl
    · rfl

theorem entrySetFlags_spec (pick : Pick) (h : Distinct l) (g : Flags → Flags)
    (hf : look l v = some f) : Distinct (entrySetFlags pick l v g) ∧
      ∀ w, look (entrySetFlags pick l v g) w = if w = v then some (g f) else look l w := by
  have hr : rank pick l v = 0 := (rank_distinct h).resolve_right (by simp [hf])
  rw [entrySetFlags, hr, onNth_set h g hf]
  refine ⟨Unique.replace h _, fun w => ?_⟩
  rw [look, find_replace]
  split_ifs with hw
  · have hw' : w = v := hw
    rw [hw', find_eq_look, hf]
    rfl
  · rfl

theorem updateStep_point : PointStep (updateStep pick) fun f x => x.map fun _ => f := by
  intro l d h
  cases hf : look l d.value with
  | none =>
    have hst : updateStep pick l d = l := by rw [updateStep, isSome_find h, hf]; rfl
    rw [hst]
    refine ⟨h, fun v => ?_⟩
    split_ifs with hv
    · rw [hv, hf]
      rfl
    · rfl
  | some f =>
    have hst : updateStep pick l d = entrySetFlags pick l d.value fun _ => d.flags := by
      rw [updateStep, isSome_find h, hf]
      rfl
    obtain ⟨hd, hl⟩ := entrySetFlags_spec pick h (fun _ => d.flags) hf
    rw [hst]
    refine ⟨hd, fun v => (hl v).trans ?_⟩
    split_ifs with hv
    · rw [hv, hf]
      rfl
    · rfl

/-- What one entry adds to the flags of its value. -/
def mergeFlags (filter f : Flags) (x : Option Flags) : Option Flags :=
  if passes filter f then some (x.elim f (· ||| f)) else x

theorem appendStep_point (filter : Flags) : PointStep (appendStep pick filter) (mergeFlags filter) := by
  intro l e h
  by_cases hp : passes filter e.flags
  · cases hf : look l e.value with
    | none =>
      have hst : appendStep pick filter l e = entryAdd l e := by
        rw [appendStep, if_pos hp, isSome_find h, hf]
        rfl
      rw [hst]
      refine ⟨h.entryAdd hf, fun v => (look_entryAdd e v).trans ?_⟩
      split_ifs with hv
      · rw [hv, hf, mergeFlags, if_pos hp]
        rfl
      · rfl
    | some f =>
      have hst : appendStep pick filter l e = entrySetFlags pick l e.value fun f => f ||| e.flags := by
        rw [appendStep, if_pos hp, isSome_find h, hf]
        rfl
      obtain ⟨hd, hl⟩ := entrySetFlags_spec pick h (fun f => f ||| e.flags) hf
      rw [hst]
      refine ⟨hd, fun v => (hl v).trans ?_⟩
      split_ifs with hv
      · rw [hv, hf, mergeFlags, if_pos hp]
        rfl
      · rfl
  · have hst : appendStep pick filter l e = l := by rw [appendStep, if_neg hp]
    rw [hst]
    refine ⟨h, fun v => ?_⟩
    split_ifs
    · rw [mergeFlags, if_neg hp]
    · rfl

/-! ## Differences -/

theorem foldl_entryAdd_perm (ds : List Entry) (l : List Entry) : (ds.foldl entryAdd l).Perm (ds ++ l) := by
  induction ds generalizing l with
  | nil => exact Perm.refl l
  | cons d ds ih =>
    refine (ih (entryAdd l d)).trans ?_
    exact ((insert_perm strLt d l).append_left ds).trans perm_middle

theorem Distinct.perm {l' : List Entry} (h : Distinct l) (hp : l'.Perm l) : Distinct l' :=
  (hp.map value).nodup_iff.mpr h

theorem look_perm {l' : List Entry} (h : Distinct l) (hp : l'.Perm l) (v : Text) : look l' v = look l v := by
  refine ext fun f => ?_
  have h₁ := mem_iff_look (h.perm hp) (e := ⟨v, f⟩)
  have h₂ := mem_iff_look h (e := ⟨v, f⟩)
  exact h₁.symm.trans ((hp.mem_iff).trans h₂)

variable {g : Entry → Option Entry}

theorem look_filterMap (hg : ∀ e e', g e = some e' → e'.value = e.value) (h : Distinct l) : Distinct (l.filterMap g) ∧
      ∀ v, look (l.filterMap g) v = (look l v).bind fun f => (g ⟨v, f⟩).map Entry.flags := by
  induction l with
  | nil => exact ⟨nodup_nil, fun v => rfl⟩
  | cons e l ih =>
    obtain ⟨hne, hl⟩ := nodup_cons.mp h
    obtain ⟨hd, hlo⟩ := ih hl
    have hn : look l e.value = none := look_eq_none.mpr fun b hb hbe => hne (mem_map.mpr ⟨b, hb, hbe⟩)
    cases hge : g e with
    | none =>
      rw [filterMap_cons_none hge]
      refine ⟨hd, fun v => (hlo v).trans ?_⟩
      rw [look_cons]
      split_ifs with hv
      · rw [← hv, hn]
        simp [hge]
      · rfl
    | some e' =>
      have hv' := hg e e' hge
      have hn' : look (l.filterMap g) e'.value = none := by rw [hlo, hv', hn]; rfl
      rw [filterMap_cons_some hge]
      refine ⟨nodup_cons.mpr ⟨fun hm => ?_, hd⟩, fun v => ?_⟩
      · obtain ⟨b, hb, hbe⟩ := mem_map.mp hm
        exact look_eq_none.mp hn' b hb hbe
      · rw [look_cons, look_cons, hv']
        split_ifs with hv
        · rw [← hv]
          simp [hge]
        · exact hlo v

theorem collect_spec (hg : ∀ e e', g e = some e' → e'.value = e.value) (h : Distinct l) : Distinct (collect g l) ∧
      ∀ v, look (collect g l) v = (look l v).bind fun f => (g ⟨v, f⟩).map Entry.flags := by
  have hp : (collect g l).Perm (l.filterMap g) := by
    have := foldl_entryAdd_perm (l.filterMap g) []
    rwa [append_nil] at this
  obtain ⟨hd, hl⟩ := look_filterMap hg h
  exact ⟨hd.perm hp, fun v => (look_perm hd hp v).trans (hl v)⟩

/-- What the three lists of a difference hold, as maps. -/
structure DiffSpec (old new : List Entry) (d : Diff) : Prop where
  distinct : Distinct d.removed ∧ Distinct d.added ∧ Distinct d.updated
  removed : ∀ v, look d.removed v = if look new v = none then look old v else none
  added : ∀ v, look d.added v = if look old v = none then look new v else none
  updated : ∀ v, look d.updated v = if look old v = none then none
    else (look new v).filter fun n => some n ≠ look old v

variable {old new : List Entry}

theorem listDiff_spec (pick : Pick) (ho : Distinct old) (hn : Distinct new) :
    DiffSpec old new (listDiff pick old new) := by
  have hr := collect_spec (l := old) (g := fun o => if (entryFindByValue pick new o.value).isNone then some o else none)
    (fun e e' h => by split_ifs at h; cases h; rfl) ho
  have ha := collect_spec (l := new) (g := fun n => if (entryFindByValue pick old n.value).isNone then some n else none)
    (fun e e' h => by split_ifs at h; cases h; rfl) hn
  have hu := collect_spec (l := old) (g := fun o => (entryFindByValue pick new o.value).filter (·.flags ≠ o.flags))
    (fun e e' h => by
      rw [entryFindByValue_eq hn, filter_eq_some_iff] at h
      exact key_of_find h.1) ho
  refine ⟨⟨hr.1, ha.1, hu.1⟩, fun v => (hr.2 v).trans ?_, fun v => (ha.2 v).trans ?_, fun v => (hu.2 v).trans ?_⟩
  · simp only [isNone_find hn]
    cases look old v <;> cases look new v <;> simp
  · simp only [isNone_find ho]
    cases look old v <;> cases look new v <;> simp
  · simp only [entryFindByValue_eq hn, find_eq_look]
    cases look old v with
    | none => simp
    | some o =>
      cases look new v with
      | none => simp
      | some n => by_cases hno : n = o <;> simp [Option.filter, hno]

/-- A difference brings any list with the old values to the new ones. -/
theorem DiffSpec.applied {d : Diff} (hd : DiffSpec old new d) (pick : Pick) (h : Distinct l)
    (hl : ∀ v, look l v = look old v) :
    Distinct (applyDiff pick l d) ∧ ∀ v, look (applyDiff pick l d) v = look new v := by
  obtain ⟨hr, ha, hu⟩ := hd.distinct
  obtain ⟨h₁, hl₁⟩ := removeStep_point.foldl hr h
  obtain ⟨h₂, hl₂⟩ := addStep_point.foldl ha h₁
  obtain ⟨h₃, hl₃⟩ := updateStep_point.foldl hu h₂
  refine ⟨h₃, fun v => (hl₃ v).trans ?_⟩
  rw [hl₂, hl₁, hl, hd.removed, hd.added, hd.updated]
  cases look old v with
  | none => cases look new v <;> simp
  | some o =>
    cases look new v with
    | none => simp
    | some n => by_cases hno : n = o <;> simp [Option.filter, hno]

theorem applyDiff_spec (pick : Pick) (ho : Distinct old) (hn : Distinct new) :
    Distinct (applyDiff pick old (listDiff pick old new)) ∧
      ∀ v, look (applyDiff pick old (listDiff pick old new)) v = look new v :=
  (listDiff_spec pick ho hn).applied pick ho fun _ => rfl

end OpenSync.Tags
