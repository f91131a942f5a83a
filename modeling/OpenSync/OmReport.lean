import OpenSync.OmTemplate

/-!
# A report to a template flow

The flows of a template are maintained by differences: a report of a changed tag deletes and adds the flows
of the changed values. If the template refers to the tag by references of its own kind only, its flows are
then those of the new values.
-/

namespace OpenSync.Om
open List Option Function

open Tags Product Template

/-! ## One walk -/

def Works (tflow : Tflow) : Prop :=
  tflow.tags.length ≤ maxTagsPerRule ∧ expandable tflow.rule tflow.tags = true

/-- What an action makes of the installed flows, for a flow that it meets or not. -/
def After (type : Action) (was hit : Prop) : Prop :=
  match type with
  | .add => was ∨ hit
  | .delete => was ∧ ¬ hit

theorem After.of_not {type : Action} {was hit : Prop} (h : ¬ hit) : After type was hit ↔ was := by
  cases type <;> simp [After, h]

theorem mem_changeFlow (type : Action) (flows : List Flow) (f g : Flow) :
    f ∈ changeFlow type flows g ↔ After type (f ∈ flows) (f = g) := by
  cases type with
  | add =>
    rw [changeFlow, addFlow, After]
    split_ifs with hm
    · constructor
      · exact .inl
      · rintro (h | rfl)
        · exact h
        · exact hm
    · rw [mem_cons, or_comm]
  | delete => simp [changeFlow, delFlow, After]

open After

theorem mem_foldl_changeFlow (type : Action) (token : Text) (tvs : List (List Binding)) (flows : List Flow)
    (f : Flow) : f ∈ tvs.foldl (fun s tv => changeFlow type s (token, tv)) flows ↔
      After type (f ∈ flows) (f.1 = token ∧ f.2 ∈ tvs) := by
  induction tvs generalizing flows with
  | nil => rw [foldl_nil, of_not (by simp)]
  | cons tv tvs ih =>
    have hf : f = (token, tv) ↔ f.1 = token ∧ f.2 = tv := Prod.ext_iff
    rw [foldl_cons, ih, mem_changeFlow, hf, mem_cons]
    cases type <;> simp only [After] <;> tauto

theorem mem_templateApplyTags (tags : List Tag) (tflow : Tflow) (type : Action) (ign : Bool)
    (o : Option Override) (flows : List Flow) (f : Flow) :
    f ∈ templateApplyTags tags tflow type ign o flows ↔ After type (f ∈ flows) (f.1 = tflow.token ∧ Works tflow ∧
        f.2 ∈ choose (tflowWalk tags tflow type ign o).items tflow.tags) := by
  set w := tflowWalk tags tflow type ign o with hw
  have hru : templateApplyTags tags tflow type ign o flows =
      if tflow.tags.length ≤ maxTagsPerRule then (tryAll w.finish (choose w.items tflow.tags) flows).2
      else flows := applyTag_run w flows
  have hk {tv : List Binding} (h : tv ∈ choose w.items tflow.tags) :
      (expand tv tflow.rule).isSome = expandable tflow.rule tflow.tags :=
    expandable_eq (keys_of_mem_choose (fun r b => key_of_mem_items w) h)
  rw [hru]
  split_ifs with hl
  · by_cases hex : expandable tflow.rule tflow.tags = true
    · have hb (s : List Flow) (tv) (h : tv ∈ choose w.items tflow.tags) :
          w.finish s tv = (true, changeFlow type s (tflow.token, tv)) := by
        obtain ⟨r, hr⟩ := isSome_iff_exists.mp ((hk h).trans hex)
        simp [hw, tflowWalk, Walk.finish, templateApply, hr]
      have hwo : Works tflow := ⟨hl, hex⟩
      rw [tryAll_foldl hb, mem_foldl_changeFlow]
      simp [hwo]
    · have hb (tv) (h : tv ∈ choose w.items tflow.tags) : (w.finish flows tv).2 = flows := by
        have hn : expand tv tflow.rule = none := not_isSome_iff_eq_none.mp (by rw [hk h]; exact hex)
        simp [hw, tflowWalk, Walk.finish, templateApply, hn]
      rw [tryAll_same hb, of_not fun h => hex h.2.1.2]
  · rw [of_not fun h => hl h.2.1.1]

/-! ## One report -/

/-- The template refers to the reported tag by references of its kind only. -/
def KindSafe (n : Note) (tflow : Tflow) : Prop :=
  ∀ r ∈ tflow.tags, r.value = n.tag.name → isGroup r = n.tag.group

def Gives (tags : List Tag) (tflow : Tflow) (tv : List Binding) : Prop :=
  Works tflow ∧ tv ∈ choose (current tags tflow.tags) tflow.tags

def Holds (tags : List Tag) (flows : List Flow) (tflow : Tflow) : Prop :=
  ∀ tv, (tflow.token, tv) ∈ flows ↔ Gives tags tflow tv

section Report

variable {tags tags' : List Tag} {n : Note} {tflow : Tflow}

theorem current_other (hc : Changes tags tags' n) (refs : List Entry) {r : Entry} (h : refKey r ≠ n.tag.key) :
    current n.tags refs r = current tags refs r ∧ current tags' refs r = current tags refs r := by
  unfold current
  rw [hc.seen _ _ h, hc.other _ _ h]
  exact ⟨rfl, rfl⟩

theorem gives_unnamed (hc : Changes tags tags' n) (h : ∀ r ∈ tflow.tags, r.value ≠ n.tag.name)
    (tv : List Binding) : Gives tags' tflow tv ↔ Gives tags tflow tv := by
  have hcu : choose (current tags' tflow.tags) tflow.tags = choose (current tags tflow.tags) tflow.tags :=
    choose_congr fun r hr => (current_other hc _ fun he => h r hr (congrArg Prod.fst he)).2
  rw [Gives, Gives, hcu]

theorem choose_override {r₀ : Entry} (hr₀ : r₀.value = n.tag.name)
    (honly : ∀ r ∈ tflow.tags, r.value = n.tag.name → r = r₀) (type : Action) (ign : Bool)
    (values : List Entry) (flt : Filter) :
    choose (tflowWalk n.tags tflow type ign (some ⟨n.tag.name, values, flt⟩)).items tflow.tags =
      choose (Function.update (current n.tags tflow.tags) r₀ (chosen tflow.tags values flt r₀))
        tflow.tags := by
  set w := tflowWalk n.tags tflow type ign (some ⟨n.tag.name, values, flt⟩)
  apply choose_congr
  intro r hr
  by_cases hname : r.value = n.tag.name
  · rw [honly r hr hname, update_self]
    exact items_override w rfl hr₀
  have hne : r ≠ r₀ := by
    rintro rfl
    exact hname hr₀
  rw [update_of_ne hne]
  apply items_table w
  intro o hm
  obtain rfl : (⟨n.tag.name, values, flt⟩ : Override) = o := by
    simpa [w, tflowWalk] using hm
  exact hname

/-- The flow has the current values for all references but one, for which it has the value of `b`. -/
structure Through (n : Note) (tflow : Tflow) (r₀ : Entry) (f : Flow) (b : Binding) : Prop where
  token : f.1 = tflow.token
  works : Works tflow
  others : Others (current n.tags tflow.tags) tflow.tags r₀ f.2
  value : at? tflow.tags f.2 r₀ = some b
  key : b.key = refKey r₀

theorem through_iff {r₀ : Entry} {values : List Entry} (hd : Distinct values) {flt : Filter} {f : Flow} :
    (f.1 = tflow.token ∧ Works tflow ∧ Others (current n.tags tflow.tags) tflow.tags r₀ f.2 ∧
      ∃ b ∈ chosen tflow.tags values flt r₀, at? tflow.tags f.2 r₀ = some b) ↔
    ∃ b, Through n tflow r₀ f b ∧ Kept (filterFlags tflow.tags r₀) flt values b.value := by
  constructor
  · rintro ⟨ht, hw, ho, b, hb, hv⟩
    obtain ⟨hke, hk⟩ := (mem_chosen hd).mp hb
    exact ⟨b, ⟨ht, hw, ho, hv, hke⟩, hk⟩
  · rintro ⟨b, h, hk⟩
    exact ⟨h.token, h.works, h.others, b, (mem_chosen hd).mpr ⟨h.key, hk⟩, h.value⟩

variable {r₀ : Entry} (hr₀ : r₀ ∈ tflow.tags) (hnd : tflow.tags.Nodup)
  (hname : r₀.value = n.tag.name) (honly : ∀ r ∈ tflow.tags, r.value = n.tag.name → r = r₀)
include hr₀ hnd hname honly

/-- A walk with an overridden tag meets the flows through the values that it keeps. Without values it
changes nothing, so it does not matter whether it is left out then. -/
theorem mem_applyTags_override (type : Action) (ign : Bool) {values : List Entry} (hd : Distinct values)
    (flt : Filter) (flows : List Flow) (f : Flow) :
    f ∈ tagPass (fun type ign o => templateApplyTags n.tags tflow type ign (some o)) n type ign values flt
        flows ↔ After type (f ∈ flows) (∃ b, Through n tflow r₀ f b ∧
        Kept (filterFlags tflow.tags r₀) flt values b.value) := by
  unfold tagPass
  split_ifs with hn
  · rw [of_not]
    rintro ⟨b, -, g, hl, -⟩
    simp [hn, look] at hl
  · rw [mem_templateApplyTags, choose_override hname honly, mem_choose_update hr₀ hnd, through_iff hd]

theorem gives_iff (hg : isGroup r₀ = n.tag.group) {table : List Tag} (hv : Valued table)
    (hs : ∀ m k, (m, k) ≠ n.tag.key → valuesOf n.tags m k = valuesOf table m k) (tv : List Binding) :
    Gives table tflow tv ↔ ∃ b, Through n tflow r₀ (tflow.token, tv) b ∧
      Kept (filterFlags tflow.tags r₀) .normal (valuesOf table n.tag.name n.tag.group) b.value := by
  have hc : current table tflow.tags r₀ = chosen tflow.tags (valuesOf table n.tag.name n.tag.group) .normal r₀ := by
    rw [current, hname, hg]
  have ho : Others (current table tflow.tags) tflow.tags r₀ tv ↔
      Others (current n.tags tflow.tags) tflow.tags r₀ tv := by
    apply others_congr
    intro r hr hne
    have hk : (r.value, isGroup r) ≠ n.tag.key := fun he => hne (honly r hr (congrArg Prod.fst he))
    rw [current, current, hs _ _ hk]
  rw [Gives, ← update_eq_self r₀ (current table tflow.tags), mem_choose_update hr₀ hnd, ho,
    hc, ← through_iff (hv.distinct _ _)]
  simp

theorem mem_tagPasses (hgr : isGroup r₀ = n.tag.group) (hc : Changes tags tags' n) (hv : Valued tags)
    (hv' : Valued tags') {flows : List Flow} (h : Holds tags flows tflow) (f : Flow) :
    f ∈ tagPasses (fun type ign o => templateApplyTags n.tags tflow type ign (some o)) n flows ↔
      if f.1 = tflow.token then Gives tags' tflow f.2 else f ∈ flows := by
  obtain ⟨hr, ha, hup⟩ := hc.delta.distinct
  have hp := mem_applyTags_override hr₀ hnd hname honly
  have ho := gives_iff hr₀ hnd hname honly hgr hv hc.seen
  have hnew := gives_iff hr₀ hnd hname honly hgr hv' fun m k hne => (hc.seen m k hne).trans (hc.other m k hne).symm
  simp only [tagPasses, hp _ _ hup, hp _ _ ha, hp _ _ hr]
  by_cases ht : ∃ b, Through n tflow r₀ f b
  · obtain ⟨b, hb⟩ := ht
    have hu (flt : Filter) (values : List Entry) :
        (∃ b, Through n tflow r₀ f b ∧ Kept (filterFlags tflow.tags r₀) flt values b.value) ↔
          Kept (filterFlags tflow.tags r₀) flt values b.value := by
      constructor
      · rintro ⟨b', hb', hk⟩
        obtain rfl : b' = b := some.inj (hb'.value.symm.trans hb.value)
        exact hk
      · exact fun hk => ⟨b, hb, hk⟩
    have hf : f = (tflow.token, f.2) := Prod.ext hb.token rfl
    have hw : f ∈ flows ↔ Kept (filterFlags tflow.tags r₀) .normal
        (valuesOf tags n.tag.name n.tag.group) b.value := by
      rw [hf, h, ho, ← hf, hu]
    have hnet := kept_net (filterFlags tflow.tags r₀) hc.delta b.value
    rw [if_pos hb.token, hnew, ← hf, hu, hu, hu, hu, hu, hw]
    exact hnet
  · have hn (flt : Filter) (values : List Entry) :
        ¬ ∃ b, Through n tflow r₀ f b ∧ Kept (filterFlags tflow.tags r₀) flt values b.value :=
      fun ⟨b, hb, _⟩ => ht ⟨b, hb⟩
    rw [of_not (hn _ _), of_not (hn _ _), of_not (hn _ _), of_not (hn _ _)]
    split_ifs with hto
    · have hf : f = (tflow.token, f.2) := Prod.ext hto rfl
      rw [hf, h, ho, hnew, ← hf]
      exact ⟨fun hg => absurd hg (hn _ _), fun hg => absurd hg (hn _ _)⟩
    · exact Iff.rfl

end Report

theorem mem_tflowTagUpdate (pick : Pick) {tags tags' : List Tag} {n : Note} {tflow : Tflow}
    (ho : OneRefEach tflow.tags) (hs : KindSafe n tflow) (hc : Changes tags tags' n)
    (hv : Valued tags) (hv' : Valued tags') {flows : List Flow} (h : Holds tags flows tflow) (f : Flow) :
    f ∈ tflowTagUpdate pick n flows tflow ↔ if f.1 = tflow.token then Gives tags' tflow f.2 else f ∈ flows := by
  unfold tflowTagUpdate
  by_cases hn : ∃ r ∈ tflow.tags, r.value = n.tag.name
  · have hfi := (entryFindByValue_isSome pick tflow.tags n.tag.name).mpr hn
    obtain ⟨r₀, hr₀, hname⟩ := hn
    have honly (r) (hr : r ∈ tflow.tags) (hrn : r.value = n.tag.name) : r = r₀ := by
      apply inj_on_of_nodup_map ho hr hr₀
      exact Prod.ext (hrn.trans hname.symm) ((hs r hr hrn).trans (hs r₀ hr₀ hname).symm)
    rw [if_neg (by simp [isSome_iff_ne_none.mp hfi])]
    exact mem_tagPasses hr₀ ho.nodup hname honly (hs r₀ hr₀ hname) hc hv hv' h f
  · have hfi : (entryFindByValue pick tflow.tags n.tag.name).isNone := by
      rw [← not_isSome, Bool.not_eq_true', Bool.eq_false_iff]
      exact fun hso => hn ((entryFindByValue_isSome pick _ _).mp hso)
    split_ifs with ht
    · have hf : f = (tflow.token, f.2) := Prod.ext ht rfl
      rw [hf, h, gives_unnamed hc fun r hr he => hn ⟨r, hr, he⟩]
    · exact Iff.rfl

end OpenSync.Om
