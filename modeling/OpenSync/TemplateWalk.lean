import OpenSync.TagNotes
import OpenSync.TemplateRefs

/-!
# What a walk does

A walk runs its last step on every choice of values for the references of the template, unless there are
too many references; a reference to a missing tag leaves no choice. When one tag is overridden, only its
reference takes other values.
-/

namespace OpenSync.Template
open Walk
open List hiding choose

open Tags Product

variable {σ : Type*}

def bind (r e : Entry) : Binding := ⟨r.value, isGroup r, e.value⟩

def chosen (refs values : List Entry) (flt : Filter) (r : Entry) : List Binding :=
  (values.filter fun e => flt.keeps (filterFlags refs r) e.flags).map (bind r)

def current (tags : List Tag) (refs : List Entry) (r : Entry) : List Binding :=
  chosen refs (valuesOf tags r.value (isGroup r)) .normal r

def Walk.items (w : Walk σ) (r : Entry) : List Binding :=
  match w.source r with
  | some (values, flt) => chosen w.refs values flt r
  | none => []

variable (w : Walk σ) {r : Entry}

theorem applyTag_cons (hr : r ∈ w.refs) (rest : List Entry) (tv : List Binding) (s : σ) : applyTag w (r :: rest) tv s =
      if (w.source r).isNone then (w.missing, s)
      else tryAll (fun s b => if rest ≠ [] ∧ maxTagsPerRule ≤ tv.length + 1 then (false, s)
        else applyTag w rest (tv ++ [b]) s) (w.items r) s := by
  obtain ⟨f, -, -, hf⟩ := find_isSome hr
  rw [applyTag, items]
  cases hs : w.source r with
  | none => rfl
  | some p =>
    simp only [hf, Option.isNone_some, Bool.false_eq_true, if_false]
    rw [chosen, tryAll_map, filterFlags, hf]
    rfl

variable {tv : List Binding} {rest : List Entry}

theorem applyTag_resolved (s : σ) (hr : ∀ r ∈ rest, r ∈ w.refs) (hs : ∀ r ∈ rest, w.source r ≠ none)
    (hl : tv.length + rest.length ≤ maxTagsPerRule) :
    applyTag w rest tv s = tryAll (fun s b => w.finish s (tv ++ b)) (choose w.items rest) s := by
  induction rest generalizing tv s with
  | nil => rw [choose, tryAll_singleton, append_nil, applyTag]
  | cons r rest ih =>
    have hn : (w.source r).isNone = false :=
      Option.isNone_eq_false_iff.mpr (Option.isSome_iff_ne_none.mpr (hs r mem_cons_self))
    rw [applyTag_cons w (hr r mem_cons_self), hn, choose, tryAll_flatMap]
    apply tryAll_congr
    intro s b _
    have hro : ¬ (rest ≠ [] ∧ maxTagsPerRule ≤ tv.length + 1) := by
      rintro ⟨hne, hle⟩
      have := length_pos_of_ne_nil hne
      rw [length_cons] at hl
      omega
    rw [if_neg hro, tryAll_map, ih _ (forall_mem_cons.mp hr).2 (forall_mem_cons.mp hs).2 (by simp at hl ⊢; omega)]
    simp

theorem applyTag_missing (s : σ) (hre : ∀ r ∈ rest, r ∈ w.refs) (hr : r ∈ rest) (hsr : w.source r = none) :
    (applyTag w rest tv s).2 = s := by
  induction rest generalizing tv with
  | nil => simp at hr
  | cons r' rest ih =>
    rw [applyTag_cons w (hre r' mem_cons_self)]
    split
    · rfl
    rename_i hs
    have hr' : r ∈ rest := by
      rcases mem_cons.mp hr with rfl | hr
      · simp [hsr] at hs
      · exact hr
    apply tryAll_same
    intro b _
    split_ifs
    · rfl
    · exact ih (forall_mem_cons.mp hre).2 hr'

theorem applyTag_tooMany (s : σ) (hr : ∀ r ∈ rest, r ∈ w.refs) (htv : tv.length < maxTagsPerRule)
    (hl : maxTagsPerRule < tv.length + rest.length) : (applyTag w rest tv s).2 = s := by
  induction rest generalizing tv with
  | nil => simp at hl; omega
  | cons r rest ih =>
    rw [applyTag_cons w (hr r mem_cons_self)]
    rw [length_cons] at hl
    have hne : rest ≠ [] := by
      rintro rfl
      simp at hl
      omega
    split
    · rfl
    apply tryAll_same
    intro b _
    split_ifs with hf
    · rfl
    · have hro : tv.length + 1 < maxTagsPerRule := Nat.lt_of_not_le fun hle => hf ⟨hne, hle⟩
      apply ih (forall_mem_cons.mp hr).2
      · simpa using hro
      · simp
        omega

theorem applyTag_run (s : σ) : (applyTag w w.refs [] s).2 =
    if w.refs.length ≤ maxTagsPerRule then (tryAll w.finish (choose w.items w.refs) s).2 else s := by
  split_ifs with hl
  · by_cases hs : ∀ r ∈ w.refs, w.source r ≠ none
    · rw [applyTag_resolved w s (fun _ h => h) hs (by simpa using hl)]
      simp
    · push Not at hs
      obtain ⟨r, hr, hn⟩ := hs
      have hit : w.items r = [] := by rw [items, hn]
      rw [applyTag_missing w s (fun _ h => h) hr hn, choose_eq_nil hr hit]
      rfl
  · exact applyTag_tooMany w s (fun _ h => h) (by decide) (by simpa using hl)

/-! ## The values of a reference -/

theorem items_override {o : Override} (ho : w.override = some o)
    (hr : r.value = o.name) : w.items r = chosen w.refs o.values o.filter r := by
  have hs : w.source r = some (o.values, o.filter) := by
    simp [source, ho, Option.filter, hr]
  rw [items, hs]

theorem items_table (hr : ∀ o ∈ w.override, r.value ≠ o.name) : w.items r = current w.tags w.refs r := by
  have hov : w.override.filter (fun o => r.value = o.name) = none := by
    cases ho : w.override with
    | none => rfl
    | some o => simp [Option.filter, hr o ho]
  have hs : w.source r = (tagFindByName w.tags r.value (isGroup r)).map
      fun t => (t.values, Filter.normal) := by
    rw [source, hov]
  rw [items, hs, current, valuesOf]
  cases tagFindByName w.tags r.value (isGroup r) <;> rfl

variable {refs values : List Entry} {b : Binding}

theorem key_of_mem_chosen {flt : Filter} (h : b ∈ chosen refs values flt r) : b.key = refKey r := by
  obtain ⟨e, -, rfl⟩ := mem_map.mp h
  rfl

theorem key_of_mem_items (h : b ∈ w.items r) : b.key = refKey r := by
  unfold items at h
  split at h
  · exact key_of_mem_chosen h
  · simp at h

theorem keys_of_mem_choose {f : Entry → List Binding} {refs : List Entry}
    (hf : ∀ r, ∀ b ∈ f r, b.key = refKey r) (h : tv ∈ choose f refs) : tv.map Binding.key = refs.map refKey := by
  have ha := mem_choose.mp h
  clear h
  induction ha with
  | nil => rfl
  | cons hb _ ih => rw [map_cons, map_cons, hf _ _ hb, ih]

/-- The value stands for a reference under a filter: it is there with flags that the filter keeps. -/
def Kept (F : Flags) (flt : Filter) (values : List Entry) (v : Text) : Prop :=
  ∃ f, look values v = some f ∧ flt.keeps F f = true

theorem mem_chosen (hd : Distinct values) {flt : Filter}
    : b ∈ chosen refs values flt r ↔ b.key = refKey r ∧ Kept (filterFlags refs r) flt values b.value := by
  constructor
  · intro h
    refine ⟨key_of_mem_chosen h, ?_⟩
    obtain ⟨e, he, rfl⟩ := mem_map.mp h
    obtain ⟨hm, hk⟩ := mem_filter.mp he
    exact ⟨e.flags, look_of_mem hd hm, hk⟩
  · rintro ⟨hke, f, hl, hk⟩
    obtain ⟨hn, hg⟩ := Prod.mk.inj hke
    refine mem_map.mpr ⟨⟨b.value, f⟩, mem_filter.mpr ⟨mem_of_look hl, hk⟩, ?_⟩
    cases b
    simp_all [bind]

theorem kept_net (F : Flags) {old new : List Entry} {d : Diff} (h : DiffSpec old new d) (v : Text) :
    (((Kept F .normal old v ∧ ¬ Kept F .normal d.removed v) ∨ Kept F .normal d.added v) ∧
      ¬ Kept F .mismatch d.updated v) ∨ Kept F .matching d.updated v ↔ Kept F .normal new v := by
  simp only [Kept, h.removed, h.added, h.updated]
  cases ho : look old v with
  | none => simp
  | some f =>
    cases hn : look new v with
    | none => simp
    | some g =>
      by_cases hfg : g = f
      · simp [hfg]
      · by_cases hF : F = 0
        · simp [hF, Filter.keeps]
        · simp [hfg, hF, Filter.keeps]

/-! ## Expansion depends on the values only in its text -/

theorem tdataGetValue_isSome {tv tv' : List Binding} (h : tv.map Binding.key = tv'.map Binding.key)
    (name : Text) (group : Bool) : (tdataGetValue tv name group).isSome = (tdataGetValue tv' name group).isSome := by
  have ha (tv : List Binding) : (tdataGetValue tv name group).isSome =
      (tv.map Binding.key).any fun k => k = (name, group) := by
    rw [tdataGetValue, Option.isSome_map, Bool.eq_iff_iff, find?_isSome, any_eq_true]
    simp [Binding.key]
  rw [ha, ha, h]

theorem expand_isSome {tv tv' : List Binding} (h : tv.map Binding.key = tv'.map Binding.key) (s : Text) :
    (expand tv s).isSome = (expand tv' s).isSome := by
  have hg := tdataGetValue_isSome h
  fun_induction expand tv s with
  | case1 s hs => rw [expand, hs]
  | case2 s pre hs => rw [expand, hs]
  | case3 s pre c t hs hk ih =>
    rw [expand.eq_def tv' s, hs]
    simp only [hk, Option.isSome_map, ih]
  | case4 s pre c t hs k hk ht =>
    rw [expand.eq_def tv' s, hs]
    simp only [hk]
    rw [ht]
  | case5 s pre c t hs k hk name rest ht hv =>
    have hv' : tdataGetValue tv' name (k.base ≠ 0) = none := by
      rw [← Option.not_isSome_iff_eq_none, ← hg, hv]
      simp
    rw [expand.eq_def tv' s, hs]
    simp only [hk]
    rw [ht]
    simp only [hv']
  | case6 s pre c t hs k hk name rest ht v hv ih =>
    obtain ⟨v', hv'⟩ : ∃ v', tdataGetValue tv' name (k.base ≠ 0) = some v' :=
      Option.isSome_iff_exists.mp (by rw [← hg, hv, Option.isSome_some])
    rw [expand.eq_def tv' s, hs]
    simp only [hk]
    rw [ht]
    simp only [hv', Option.isSome_map, ih]

def expandable (rule : Text) (refs : List Entry) : Bool :=
  (expand (refs.map fun r => ⟨r.value, isGroup r, []⟩) rule).isSome

theorem expandable_eq {rule : Text} {refs : List Entry}
    (h : tv.map Binding.key = refs.map refKey) : (expand tv rule).isSome = expandable rule refs := by
  apply expand_isSome
  rw [h, map_map]
  rfl

end OpenSync.Template
