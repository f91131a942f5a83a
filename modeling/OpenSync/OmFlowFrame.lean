import OpenSync.OmFlow

/-!
# What a changed tag touches

When a tag changes, the templates that refer to it are expanded with the values that came and went. The templates are
looked for by the name of the tag, and so is the reference that takes these values; a tag and a group of one name are
mixed up in every template that refers to the one of them that did not change, if it is ever expanded.
-/

namespace OpenSync.OmFlow
open List

open Tags Product Template

variable {P Q : Call → Prop} {log log' : Log} {switch : Switch} {tags : List Tag} {tflow : Tflow} {rule : Text}

/-! ## Calls that are made -/

/-- All that was handed to the switch meanwhile has the property. -/
def Grows (P : Call → Prop) (log log' : Log) : Prop := ∃ new, log' = log ++ new ∧ ∀ c ∈ new, P c.1

theorem Grows.refl (log : Log) : Grows P log log := ⟨[], (append_nil _).symm, by simp⟩

theorem Grows.trans {log'' : Log} (h : Grows P log log') (h' : Grows P log' log'') : Grows P log log'' := by
  obtain ⟨new, rfl, hn⟩ := h
  obtain ⟨new', rfl, hn'⟩ := h'
  refine ⟨new ++ new', append_assoc _ _ _, fun c hc => ?_⟩
  rcases mem_append.mp hc with hc | hc
  · exact hn c hc
  · exact hn' c hc

theorem Grows.mono (h : Grows P log log') (hPQ : ∀ c, P c → Q c) : Grows Q log log' := by
  obtain ⟨new, heq, hn⟩ := h
  exact ⟨new, heq, fun c hc => hPQ c.1 (hn c hc)⟩

theorem Grows.foldl {α : Type*} {f : Log → α → Log} {as : List α} (h : ∀ a ∈ as, ∀ log, Grows P log (f log a))
    (log : Log) : Grows P log (as.foldl f log) :=
  foldlRecOn (motive := Grows P log) as f (.refl log) fun log' hl a ha => hl.trans (h a ha log')

theorem Grows.tryAll {α : Type*} {body : Log → α → Bool × Log} {as : List α}
    (h : ∀ a ∈ as, ∀ log, Grows P log (body log a).2) (log : Log) : Grows P log (tryAll body as log).2 :=
  tryAll_kept (P := Grows P log) (fun a ha log' hl => hl.trans (h a ha log')) log (.refl log)

variable {override : Option Override}

theorem finish_grows {type : Action} {ignoreErr : Bool} {tv : List Binding}
    (h : ∀ flow, expandedFlow tflow tv = some flow → P (.expanded type tflow tv flow)) (log : Log) :
    Grows P log ((tflowWalk switch tags tflow type ignoreErr override).finish log tv).2 := by
  simp only [Walk.finish, tflowWalk, templateApply]
  cases hf : expandedFlow tflow tv with
  | none => exact .refl log
  | some flow =>
    refine ⟨_, rfl, fun c hc => ?_⟩
    rw [mem_singleton.mp hc]
    exact h flow hf

/-- A call that a walk of a template may make. -/
def Walked (tflow : Tflow) (type : Action) (items : Entry → List Binding) : Call → Prop
  | .static .. => False
  | .expanded type' tflow' tv flow =>
    (type' = type ∧ tflow' = tflow) ∧ tv ∈ choose items tflow.tags ∧ tflow.tags.length ≤ maxTagsPerRule ∧
      expandedFlow tflow tv = some flow

theorem templateApplyTags_grows (type : Action) (ignoreErr : Bool) (override : Option Override) (log : Log) :
    Grows (Walked tflow type (tflowWalk switch tags tflow type ignoreErr override).items) log
      (templateApplyTags switch tags tflow type ignoreErr override log) := by
  have hr := applyTag_run (tflowWalk switch tags tflow type ignoreErr override) log
  unfold templateApplyTags
  rw [show tflow.tags = (tflowWalk switch tags tflow type ignoreErr override).refs from rfl, hr]
  split_ifs with hl
  · exact Grows.tryAll (fun tv htv => finish_grows fun flow hf => ⟨⟨rfl, rfl⟩, htv, hl, hf⟩) log
  · exact .refl log

theorem templateApplyTags_calls {type : Action} {ignoreErr : Bool}
    (hl : tflow.tags.length ≤ maxTagsPerRule) (hex : expandable tflow.rule tflow.tags = true)
    (hit : ∀ r ∈ tflow.tags, (tflowWalk switch tags tflow type ignoreErr override).items r ≠ []) (log : Log) :
    ∃ tv flow ok, (.expanded type tflow tv flow, ok) ∈ templateApplyTags switch tags tflow type ignoreErr override log ∧
      tv ∈ choose (tflowWalk switch tags tflow type ignoreErr override).items tflow.tags := by
  set w := tflowWalk switch tags tflow type ignoreErr override with hw
  have hru : templateApplyTags switch tags tflow type ignoreErr override log =
      (tryAll w.finish (choose w.items tflow.tags) log).2 := (applyTag_run w log).trans (if_pos hl)
  rw [hru]
  cases hc : choose w.items tflow.tags with
  | nil =>
    obtain ⟨r, hr, hn⟩ := exists_eq_nil hc
    exact absurd hn (hit r hr)
  | cons tv tvs =>
    have hm : tv ∈ choose w.items tflow.tags := hc ▸ mem_cons_self
    have hk : tv.map Binding.key = tflow.tags.map refKey := keys_of_mem_choose (fun r b hb => key_of_mem_items w hb) hm
    obtain ⟨erule, her⟩ := Option.isSome_iff_exists.mp ((expandable_eq hk).trans hex)
    have hf : expandedFlow tflow tv = some (tflowToSchema tflow erule) := by rw [expandedFlow, her, Option.map_some]
    have hfi : (w.finish log tv).2 = log ++ [(.expanded type tflow tv (tflowToSchema tflow erule),
        switch log (.expanded type tflow tv (tflowToSchema tflow erule)))] := by
      simp only [Walk.finish, hw, tflowWalk, templateApply, hf]
      rfl
    have hg : Grows (fun _ => True) (w.finish log tv).2 (tryAll w.finish (tv :: tvs) log).2 := by
      rw [tryAll_cons]
      split_ifs
      · exact Grows.tryAll (fun tv _ => finish_grows fun _ _ => trivial) _
      · exact .refl _
    obtain ⟨new, heq, -⟩ := hg
    refine ⟨tv, tflowToSchema tflow erule, switch log (.expanded type tflow tv (tflowToSchema tflow erule)), ?_,
      mem_cons_self⟩
    rw [heq, hfi]
    exact mem_append_left _ (mem_append_right _ mem_cons_self)

/-! ## Right calls -/

structure Pass where
  type : Action
  values : List Entry
  filter : Filter

def passes (n : Note) : List Pass :=
  [⟨.delete, n.removed, .normal⟩, ⟨.add, n.added, .normal⟩, ⟨.delete, n.updated, .mismatch⟩, ⟨.add, n.updated, .matching⟩]

/-- References to the changed tag take values of the walk, all others those of their own tag; each obeys its sign. -/
def RightBinding (n : Note) (p : Pass) (r : Entry) (b : Binding) : Prop :=
  if refKey r = n.tag.key then ∃ e ∈ p.values, p.filter.keeps (varFlags r.flags) e.flags = true ∧ b = bind r e
  else ∃ e ∈ valuesOf n.tags r.value (isGroup r), Filter.normal.keeps (varFlags r.flags) e.flags = true ∧ b = bind r e

/-- The call is for a template that refers to the changed tag, and only these references take the values of the change. -/
def RightCall (tflows : List Tflow) (n : Note) : Call → Prop
  | .static .. => False
  | .expanded type tflow tv flow =>
    (tflow ∈ tflows ∧ n.tag.key ∈ tflow.tags.map refKey) ∧ expandedFlow tflow tv = some flow ∧
      ∃ p ∈ passes n, type = p.type ∧ List.Forall₂ (RightBinding n p) tflow.tags tv

def otherKey (tag : Tag) : Text × Bool := (tag.name, !tag.group)

/-- The template is expanded as soon as there are values for the references with the name. -/
structure Expands (tags : List Tag) (name : Text) (tflow : Tflow) : Prop where
  few : tflow.tags.length ≤ maxTagsPerRule
  expandable : expandable tflow.rule tflow.tags = true
  valued : ∀ r ∈ tflow.tags, r.value ≠ name → current tags tflow.tags r ≠ []

variable {n : Note} {p : Pass} {r : Entry} {b : Binding}

def itemsOf (n : Note) (refs : List Entry) (p : Pass) (r : Entry) : List Binding :=
  if r.value = n.tag.name then chosen refs p.values p.filter r else current n.tags refs r

theorem items_eq (ignoreErr : Bool) (p : Pass) (tflow : Tflow) :
    (tflowWalk switch n.tags tflow p.type ignoreErr (some ⟨n.tag.name, p.values, p.filter⟩)).items =
      itemsOf n tflow.tags p := by
  funext r
  rw [itemsOf]
  split_ifs with hn
  · exact items_override _ (o := ⟨n.tag.name, p.values, p.filter⟩) rfl hn
  · exact items_table _ fun o ho => Option.mem_some_iff.mp ho ▸ hn

theorem tagPasses_grows (log : Log) :
    Grows (fun c => ∃ p ∈ passes n, Walked tflow p.type (itemsOf n tflow.tags p) c) log
      (tagPasses (fun type ign o => templateApplyTags switch n.tags tflow type ign (some o)) n log) := by
  have hpa : ∀ p ∈ passes n, ∀ (ign : Bool) (log : Log),
      Grows (fun c => ∃ p ∈ passes n, Walked tflow p.type (itemsOf n tflow.tags p) c) log
        (tagPass (fun type ign o => templateApplyTags switch n.tags tflow type ign (some o)) n p.type ign p.values
          p.filter log) := by
    intro p hp ign log
    unfold tagPass
    split_ifs
    · exact .refl log
    · refine (templateApplyTags_grows p.type ign _ log).mono fun c hc => ⟨p, hp, ?_⟩
      rwa [items_eq] at hc
  refine (hpa ⟨.delete, n.removed, .normal⟩ (by simp [passes]) false _).trans ?_
  refine (hpa ⟨.add, n.added, .normal⟩ (by simp [passes]) false _).trans ?_
  refine (hpa ⟨.delete, n.updated, .mismatch⟩ (by simp [passes]) true _).trans ?_
  exact hpa ⟨.add, n.updated, .matching⟩ (by simp [passes]) false _

/-! ## Without the other kind -/

theorem mem_chosen_iff {refs values : List Entry} {flt : Filter} :
    b ∈ chosen refs values flt r ↔ ∃ e ∈ values, flt.keeps (filterFlags refs r) e.flags = true ∧ b = bind r e := by
  rw [chosen, mem_map]
  constructor
  · rintro ⟨e, he, rfl⟩
    obtain ⟨hm, hk⟩ := mem_filter.mp he
    exact ⟨e, hm, hk, rfl⟩
  · rintro ⟨e, hm, hk, rfl⟩
    exact ⟨e, mem_filter.mpr ⟨hm, hk⟩, rfl⟩

theorem keeps_normal_zero (f : Flags) : Filter.normal.keeps 0 f = true := rfl

variable {tag : Tag}

theorem rightBinding_of_mem (ht : n.tag = tag) (ho : otherKey tag ∉ (detectRefs rule).map refKey)
    (hr : r ∈ detectRefs rule) (hb : b ∈ itemsOf n (detectRefs rule) p r) : RightBinding n p r b := by
  have hkey : ∀ r' ∈ detectRefs rule, r'.value = tag.name → refKey r' = tag.key := by
    intro r' hr' hn
    by_contra hne
    refine ho (mem_map.mpr ⟨r', hr', Prod.ext hn ?_⟩)
    exact Bool.eq_not.mpr fun hg => hne (Prod.ext hn hg)
  rw [itemsOf, ht] at hb
  rw [RightBinding, ht]
  by_cases hn : r.value = tag.name
  · rw [if_pos hn, mem_chosen_iff] at hb
    rw [if_pos (hkey r hr hn)]
    have hk : ∀ r' ∈ detectRefs rule, r'.value = r.value → isGroup r' = isGroup r := by
      intro r' hr' hv
      exact congrArg Prod.snd ((hkey r' hr' (hv.trans hn)).trans (hkey r hr hn).symm)
    rwa [filterFlags_eq (detectRefs_oneRefEach rule) hr hk] at hb
  · rw [if_neg hn, current, mem_chosen_iff] at hb
    rw [if_neg fun heq => hn (congrArg Prod.fst heq)]
    obtain ⟨e, he, hke, rfl⟩ := hb
    refine ⟨e, he, ?_, rfl⟩
    rcases filterFlags_detectRefs hr with hown | hz
    · exact hown ▸ hke
    · rw [hz]
      exact keeps_normal_zero e.flags

theorem expands_of_walked {tv : List Binding} {flow : FlowConfig} (htv : tv ∈ choose (itemsOf n tflow.tags p) tflow.tags)
    (hl : tflow.tags.length ≤ maxTagsPerRule) (hf : expandedFlow tflow tv = some flow) :
    Expands n.tags n.tag.name tflow := by
  refine ⟨hl, ?_, fun r hr hn hni => ?_⟩
  · have hk : tv.map Binding.key = tflow.tags.map refKey := by
      refine keys_of_mem_choose (fun r b hb => ?_) htv
      rw [itemsOf] at hb
      split_ifs at hb <;> exact key_of_mem_chosen hb
    obtain ⟨erule, her, -⟩ := Option.map_eq_some_iff.mp hf
    rw [← expandable_eq hk, her, Option.isSome_some]
  · have hem : itemsOf n tflow.tags p r = [] := by rw [itemsOf, if_neg hn, hni]
    rw [choose_eq_nil hr hem] at htv
    exact absurd htv not_mem_nil

variable {pick : Pick}

theorem entryFindByValue_mem {l : List Entry} {v : Text} (h : (entryFindByValue pick l v).isNone = false) :
    ∃ r ∈ l, r.value = v := by
  obtain ⟨r, hr⟩ := Option.isSome_iff_exists.mp (by rw [← Option.not_isNone, h]; rfl)
  have hm := mem_of_getElem? hr
  exact ⟨r, (mem_filter.mp hm).1, by simpa using (mem_filter.mp hm).2⟩

theorem forall₂_imp_mem {α β : Type*} {R S : α → β → Prop} {as : List α} {bs : List β} (h : List.Forall₂ R as bs)
    (hRS : ∀ a ∈ as, ∀ b, R a b → S a b) : List.Forall₂ S as bs := by
  induction h with
  | nil => exact .nil
  | cons hab _ ih =>
    exact .cons (hRS _ mem_cons_self _ hab) (ih (forall_mem_cons.mp hRS).2)

variable {rows : List FlowConfig}

theorem tagUpdate_grows (h : ∀ row ∈ rows, otherKey n.tag ∈ (detectRefs row.rule).map refKey →
      ¬ Expands n.tags n.tag.name (tflowAllocFromSchema row)) (log : Log) :
    Grows (RightCall (rows.map tflowAllocFromSchema) n) log
      (templateTagUpdate switch pick (rows.map tflowAllocFromSchema) n log) := by
  refine Grows.foldl (fun tflow ht log => ?_) log
  obtain ⟨row, hro, rfl⟩ := mem_map.mp ht
  unfold tflowTagUpdate
  cases hfi : (entryFindByValue pick (tflowAllocFromSchema row).tags n.tag.name).isNone with
  | true => exact .refl log
  | false =>
    refine (tagPasses_grows log).mono fun c hc => ?_
    obtain ⟨p, hp, hw⟩ := hc
    cases c with
    | static => exact hw
    | expanded type tflow tv flow =>
      obtain ⟨⟨rfl, rfl⟩, htv, hl, hf⟩ := hw
      have ho : otherKey n.tag ∉ (detectRefs row.rule).map refKey := fun hm =>
        h row hro hm (expands_of_walked htv hl hf)
      refine ⟨⟨ht, ?_⟩, hf, p, hp, rfl, ?_⟩
      · obtain ⟨r, hr, hn⟩ := entryFindByValue_mem hfi
        by_contra hk
        refine ho (mem_map.mpr ⟨r, hr, Prod.ext hn (Bool.eq_not.mpr fun hg => hk ?_)⟩)
        exact mem_map.mpr ⟨r, hr, Prod.ext hn hg⟩
      · exact forall₂_imp_mem (mem_choose.mp htv) fun r hr b hb => rightBinding_of_mem rfl ho hr hb

/-! ## With the other kind -/

theorem keeps_normal_all {refs : List Entry} (r : Entry) (f : Flags)
    (hf : f = flagLocal ||| flagDevice ||| flagCloud) : Filter.normal.keeps (filterFlags refs r) f = true := by
  have hv : ∀ g : Flags, Filter.normal.keeps (varFlags g) (flagLocal ||| flagDevice ||| flagCloud) = true := by
    decide +kernel
  subst hf
  unfold filterFlags
  split
  · exact hv _
  · exact hv 0

theorem forall₂_both {α β : Type*} {R S : α → β → Prop} {as : List α} {bs : List β} (h : List.Forall₂ R as bs)
    (h' : List.Forall₂ S as bs) {a : α} (ha : a ∈ as) : ∃ b, R a b ∧ S a b := by
  induction h with
  | nil => exact absurd ha not_mem_nil
  | cons hab _ ih =>
    cases h' with
    | cons hab' ht =>
      rcases mem_cons.mp ha with rfl | ha
      · exact ⟨_, hab, hab'⟩
      · exact ih ht ha

theorem entryFindByValue_isNone_of_mem {l : List Entry} (hr : r ∈ l) :
    (entryFindByValue pick l r.value).isNone = false := by
  have hm : r ∈ l.filter (·.value = r.value) := mem_filter.mpr ⟨hr, by simp⟩
  have hlt : rank pick l r.value < (l.filter (·.value = r.value)).length := Nat.mod_lt _ (length_pos_of_mem hm)
  rw [entryFindByValue, getElem?_eq_getElem hlt]
  rfl

theorem tflowTagUpdate_grows (pick : Pick) (n : Note) (log : Log) (tflow : Tflow) :
    Grows (fun _ => True) log (tflowTagUpdate switch pick n log tflow) := by
  unfold tflowTagUpdate
  split_ifs
  · exact .refl log
  · exact (tagPasses_grows log).mono fun _ _ => trivial

theorem tagPasses_removed (tag : Tag) (e : Entry) (log : Log) :
    tagPasses (fun type ign o => templateApplyTags switch tags tflow type ign (some o)) ⟨tags, tag, [e], [], []⟩ log =
      templateApplyTags switch tags tflow .delete false (some ⟨tag.name, [e], .normal⟩) log := by
  simp [tagPasses, tagPass]

def removal (e : Entry) : Pass := ⟨.delete, [e], .normal⟩

theorem tflowTagUpdate_calls (switch : Switch) (pick : Pick) {e : Entry} (hr : r ∈ tflow.tags)
    (hn : r.value = tag.name) (he : e.flags = flagLocal ||| flagDevice ||| flagCloud)
    (hex : Expands tags tag.name tflow) (log : Log) :
    ∃ tv flow ok, (.expanded .delete tflow tv flow, ok) ∈ tflowTagUpdate switch pick ⟨tags, tag, [e], [], []⟩ log tflow ∧
      tv ∈ choose (itemsOf ⟨tags, tag, [e], [], []⟩ tflow.tags (removal e)) tflow.tags := by
  have hf : (entryFindByValue pick tflow.tags tag.name).isNone = false := hn ▸ entryFindByValue_isNone_of_mem hr
  have heq : (tflowWalk switch tags tflow .delete false (some ⟨tag.name, [e], .normal⟩)).items =
      itemsOf ⟨tags, tag, [e], [], []⟩ tflow.tags (removal e) :=
    items_eq (n := ⟨tags, tag, [e], [], []⟩) false (removal e) tflow
  have hit : ∀ r ∈ tflow.tags, itemsOf ⟨tags, tag, [e], [], []⟩ tflow.tags (removal e) r ≠ [] := by
    intro r' hr'
    rw [itemsOf]
    split_ifs with hn'
    · exact ne_nil_of_mem (mem_chosen_iff.mpr ⟨e, mem_cons_self, keeps_normal_all r' _ he, rfl⟩)
    · exact hex.valued r' hr' hn'
  rw [← heq] at hit ⊢
  rw [tflowTagUpdate, hf, if_neg Bool.false_ne_true, tagPasses_removed]
  exact templateApplyTags_calls hex.few hex.expandable hit log

theorem exists_mem_templateTagUpdate {tflows : List Tflow} {R : Call × Bool → Prop} (ht : tflow ∈ tflows)
    (h : ∀ log, ∃ c ∈ tflowTagUpdate switch pick n log tflow, R c) (log : Log) :
    ∃ c ∈ templateTagUpdate switch pick tflows n log, R c := by
  obtain ⟨pre, post, rfl⟩ := append_of_mem ht
  obtain ⟨c, hc, hR⟩ := h (pre.foldl (tflowTagUpdate switch pick n) log)
  have hp : ∀ log, Grows (fun _ => True) log (post.foldl (tflowTagUpdate switch pick n) log) :=
    Grows.foldl fun tflow _ log => tflowTagUpdate_grows pick n log tflow
  obtain ⟨new, heq, -⟩ := hp (tflowTagUpdate switch pick n (pre.foldl (tflowTagUpdate switch pick n) log) tflow)
  refine ⟨c, ?_, hR⟩
  rw [templateTagUpdate, foldl_append, foldl_cons, heq]
  exact mem_append_left _ hc

theorem wrong_call (switch : Switch) (pick : Pick) {row : FlowConfig} (hro : row ∈ rows)
    (ho : otherKey tag ∈ (detectRefs row.rule).map refKey) (hex : Expands tags tag.name (tflowAllocFromSchema row)) :
    ∃ removed, ¬ Grows (RightCall (rows.map tflowAllocFromSchema) ⟨tags, tag, removed, [], []⟩) []
      (templateTagUpdate switch pick (rows.map tflowAllocFromSchema) ⟨tags, tag, removed, [], []⟩ []) := by
  obtain ⟨r, hr, hk⟩ := mem_map.mp ho
  obtain ⟨hn, hg⟩ : r.value = tag.name ∧ isGroup r = !tag.group := Prod.mk.inj hk
  obtain ⟨fresh, hf⟩ := Infinite.exists_notMem_finset ((valuesOf tags tag.name !tag.group).map Entry.value).toFinset
  refine ⟨[⟨fresh, flagLocal ||| flagDevice ||| flagCloud⟩], ?_⟩
  rintro ⟨new, heq, hne⟩
  obtain ⟨⟨c, ok⟩, hc, tv, flow, rfl, htv⟩ := exists_mem_templateTagUpdate (mem_map_of_mem hro)
    (R := fun c => ∃ tv flow, c.1 = .expanded .delete (tflowAllocFromSchema row) tv flow ∧
      tv ∈ choose (itemsOf ⟨tags, tag, [⟨fresh, flagLocal ||| flagDevice ||| flagCloud⟩], [], []⟩ (detectRefs row.rule)
        (removal ⟨fresh, flagLocal ||| flagDevice ||| flagCloud⟩)) (detectRefs row.rule))
    (fun log => by
      obtain ⟨tv, flow, ok, hca, htv⟩ := tflowTagUpdate_calls switch pick
        (e := ⟨fresh, flagLocal ||| flagDevice ||| flagCloud⟩) hr hn rfl hex log
      exact ⟨_, hca, tv, flow, rfl, htv⟩) []
  rw [heq, nil_append] at hc
  obtain ⟨-, -, p, -, -, hri⟩ := hne _ hc
  obtain ⟨b, hb, hit⟩ := forall₂_both hri (mem_choose.mp htv) hr
  rw [RightBinding, if_neg fun hown => Bool.not_ne_self tag.group (hg.symm.trans (congrArg Prod.snd hown))] at hb
  rw [itemsOf, if_pos hn, mem_chosen_iff] at hit
  obtain ⟨e, he, -, rfl⟩ := hb
  obtain ⟨e', he', -, hs⟩ := hit
  have hv : e.value = fresh := (congrArg Binding.value hs).trans (congrArg Entry.value (mem_singleton.mp he'))
  rw [hn, hg] at he
  exact hf (mem_toFinset.mpr (hv ▸ mem_map_of_mem he))

/-- A changed tag touches only its own references, whatever changed, if and only if no template is expanded that refers
to its namesake of the other kind. -/
theorem tag_update_frame_iff (pick : Pick) (tags : List Tag) (rows : List FlowConfig) (tag : Tag) :
    (∀ switch removed added updated log,
      Grows (RightCall (rows.map tflowAllocFromSchema) ⟨tags, tag, removed, added, updated⟩) log
        (templateTagUpdate switch pick (rows.map tflowAllocFromSchema) ⟨tags, tag, removed, added, updated⟩ log)) ↔
      ∀ row ∈ rows, otherKey tag ∈ (detectRefs row.rule).map refKey →
        ¬ Expands tags tag.name (tflowAllocFromSchema row) := by
  constructor
  · intro h row hr ho hex
    obtain ⟨removed, hw⟩ := wrong_call (fun _ _ => true) pick hr ho hex
    exact hw (h _ removed [] [] [])
  · intro h switch removed added updated log
    exact tagUpdate_grows h log

/-- A template that refers to the group `a` only, and one that refers to both the tag and the group. -/
def groupFlow : FlowConfig := ⟨['t'], "br-home".toList, 0, 1, "in_port=$[a]".toList, "drop".toList⟩

def bothFlow : FlowConfig := ⟨['u'], "br-home".toList, 0, 1, "dl_src=$\x7ba\x7d,dl_dst=$[a]".toList, "drop".toList⟩

/-- The tag `a` loses a value; the group `a` has another one. -/
def lostValue : Note := ⟨[⟨['a'], true, [⟨['g'], 0⟩]⟩], ⟨['a'], false, []⟩, [⟨['v'], 0⟩], [], []⟩

theorem namesake_not_framed : ¬ Grows (RightCall [tflowAllocFromSchema groupFlow] lostValue) []
        (templateTagUpdate (fun _ _ => true) (fun _ _ => 0) [tflowAllocFromSchema groupFlow] lostValue []) ∧
      ¬ Grows (RightCall [tflowAllocFromSchema bothFlow] lostValue) []
        (templateTagUpdate (fun _ _ => true) (fun _ _ => 0) [tflowAllocFromSchema bothFlow] lostValue []) := by
  have hg : templateTagUpdate (fun _ _ => true) (fun _ _ => 0) [tflowAllocFromSchema groupFlow] lostValue [] =
      [(.expanded .delete (tflowAllocFromSchema groupFlow) [⟨['a'], true, ['v']⟩]
        { groupFlow with rule := "in_port=v".toList }, true)] := by decide +kernel
  have hbo : templateTagUpdate (fun _ _ => true) (fun _ _ => 0) [tflowAllocFromSchema bothFlow] lostValue [] =
      [(.expanded .delete (tflowAllocFromSchema bothFlow) [⟨['a'], true, ['v']⟩, ⟨['a'], false, ['v']⟩]
        { bothFlow with rule := "dl_src=v,dl_dst=v".toList }, true)] := by decide +kernel
  constructor
  · rintro ⟨new, heq, hn⟩
    have hr := hn _ (heq ▸ hg ▸ mem_cons_self)
    exact absurd hr.1.2 (by decide +kernel)
  · rintro ⟨new, heq, hn⟩
    obtain ⟨-, -, p, -, -, ha⟩ := hn _ (heq ▸ hbo ▸ mem_cons_self)
    have ht : (tflowAllocFromSchema bothFlow).tags = [⟨['a'], flagGroup⟩, ⟨['a'], 0⟩] := by decide +kernel
    rw [ht] at ha
    cases ha with
    | cons hb =>
      obtain ⟨e, he, -, hs⟩ := hb
      have hv : valuesOf lostValue.tags ['a'] (isGroup ⟨['a'], flagGroup⟩) = [⟨['g'], 0⟩] := by decide +kernel
      rw [hv, mem_singleton] at he
      subst he
      exact absurd hs (by decide +kernel)

end OpenSync.OmFlow
