import OpenSync.OmReport

/-!
# Runs of template flows

Over every run of events, the installed flows are those that the templates give by the walk itself, as long
as no template refers to a reported tag by the other kind of reference.
-/

namespace OpenSync.Om
open List Keyed

open Tags Product Template

structure OmInv (tags : List Tag) (om : State) : Prop where
  unique : Keyed.Unique Tflow.token om.tflows
  template : ∀ t ∈ om.tflows, isTemplate t.rule = true ∧ t.tags = detectRefs t.rule
  flows : ∀ t ∈ om.tflows, Holds tags om.flows t
  only : ∀ f ∈ om.flows, ∃ t ∈ om.tflows, t.token = f.1

variable {tags : List Tag} {om : State}

theorem OmInv.oneRefEach (h : OmInv tags om) {t : Tflow} (ht : t ∈ om.tflows) : OneRefEach t.tags := by
  rw [(h.template t ht).2]
  exact detectRefs_oneRefEach t.rule

variable (pick : Pick)

theorem foldl_tflowTagUpdate {tags tags' : List Tag} {n : Note} (hc : Changes tags tags' n)
    (hv : Valued tags) (hv' : Valued tags') {ts : List Tflow} (hu : Keyed.Unique Tflow.token ts)
    (hon : ∀ t ∈ ts, OneRefEach t.tags) (hsa : ∀ t ∈ ts, KindSafe n t) {flows : List Flow}
    (h : ∀ t ∈ ts, Holds tags flows t) :
    (∀ t ∈ ts, Holds tags' (ts.foldl (tflowTagUpdate pick n) flows) t) ∧
      ∀ f, (∀ t ∈ ts, t.token ≠ f.1) → (f ∈ ts.foldl (tflowTagUpdate pick n) flows ↔ f ∈ flows) := by
  induction ts generalizing flows with
  | nil => simp
  | cons t ts ih =>
    obtain ⟨hn, hu⟩ := nodup_cons.mp hu
    have ho (t') (ht' : t' ∈ ts) : t'.token ≠ t.token := fun he => hn (he ▸ mem_map_of_mem ht')
    have hs := mem_tflowTagUpdate pick (hon t mem_cons_self) (hsa t mem_cons_self) hc hv hv' (h t mem_cons_self)
    have hr (t') (ht' : t' ∈ ts) : Holds tags (tflowTagUpdate pick n flows t) t' := by
      intro tv
      rw [hs, if_neg (ho t' ht'), h t' (mem_cons_of_mem _ ht') tv]
    obtain ⟨ha, hfr⟩ := ih hu (forall_mem_cons.mp hon).2 (forall_mem_cons.mp hsa).2 hr
    rw [foldl_cons]
    constructor
    · refine forall_mem_cons.mpr ⟨fun tv => ?_, ha⟩
      rw [hfr _ ho, hs, if_pos rfl]
    · intro f hf
      rw [hfr f (forall_mem_cons.mp hf).2, hs, if_neg (hf t mem_cons_self).symm]

theorem OmInv.report {tags tags' : List Tag} (h : OmInv tags om) {n : Note}
    (hc : Changes tags tags' n) (hv : Valued tags) (hv' : Valued tags')
    (hs : ∀ t ∈ om.tflows, KindSafe n t) : OmInv tags' (templateTagUpdate pick om n) := by
  obtain ⟨hfl, hfr⟩ := foldl_tflowTagUpdate pick hc hv hv' h.unique (fun t => h.oneRefEach) hs h.flows
  refine ⟨h.unique, h.template, hfl, ?_⟩
  intro f hf
  by_contra hn
  push Not at hn
  obtain ⟨t, ht, hto⟩ := h.only f ((hfr f hn).mp hf)
  exact hn t ht hto

theorem OmInv.reports {tags tags' : List Tag} (h : OmInv tags om) {ns : List Note}
    (hc : Chain tags ns tags') (hv : Valued tags) (hs : ∀ n ∈ ns, ∀ t ∈ om.tflows, KindSafe n t) :
    OmInv tags' (ns.foldl (templateTagUpdate pick) om) := by
  induction ns generalizing tags om with
  | nil =>
    obtain rfl : tags' = tags := hc
    exact h
  | cons n ns ih =>
    obtain ⟨mid, hch, hm, hr⟩ := hc
    apply ih (h.report pick hch hv hm (hs n mem_cons_self)) hr hm
    exact (forall_mem_cons.mp hs).2

/-! ## Templates come and go -/

theorem items_none (tags : List Tag) (t : Tflow) (type : Action) (ign : Bool) :
    choose (tflowWalk tags t type ign none).items t.tags = choose (current tags t.tags) t.tags :=
  choose_congr fun _ _ => items_table (tflowWalk tags t type ign none) (by simp [tflowWalk])

theorem mem_templateTflowUpdate (tags : List Tag) (type : Action) {t : Tflow} (hne : t.tags ≠ [])
    (flows : List Flow) (f : Flow) : f ∈ templateTflowUpdate tags type t flows ↔
      After type (f ∈ flows) (f.1 = t.token ∧ Gives tags t f.2) := by
  rw [templateTflowUpdate, if_neg hne, mem_templateApplyTags, items_none]
  rfl

theorem OmInv.tflowAdd (h : OmInv tags om) (row : FlowRow) : OmInv tags (tflowAddFromSchema tags om row).2 := by
  unfold tflowAddFromSchema
  split_ifs with hd
  · exact h
  have hn : find Tflow.token row.token om.tflows = none := by simpa [tflowFindByToken] using hd
  have hne := find_eq_none.mp hn
  have hm (t : Tflow) : t ∈ insert Tflow.token strLt (tflowAllocFromSchema row) om.tflows ↔
      t = tflowAllocFromSchema row ∨ t ∈ om.tflows := by
    rw [(insert_perm strLt _ om.tflows).mem_iff, mem_cons]
  have hfl := mem_templateTflowUpdate tags .add (t := tflowAllocFromSchema row)
    (detectRefs_ne_nil row.is_template) om.flows
  refine ⟨h.unique.insert strLt hn, ?_, ?_, ?_⟩
  · intro t ht
    rcases (hm t).mp ht with rfl | ht
    · exact ⟨row.is_template, rfl⟩
    · exact h.template t ht
  · intro t ht tv
    rw [hfl]
    rcases (hm t).mp ht with rfl | ht
    · -- no flow of the new template is installed yet
      have hno : ((tflowAllocFromSchema row).token, tv) ∉ om.flows := by
        intro hf
        obtain ⟨t', ht', hto⟩ := h.only _ hf
        exact hne t' ht' hto
      simp [After, hno]
    · have ho : t.token ≠ (tflowAllocFromSchema row).token := hne t ht
      rw [After.of_not fun hg => ho hg.1]
      exact h.flows t ht tv
  · intro f hf
    rcases (hfl f).mp hf with hol | hgi
    · obtain ⟨t, ht, hto⟩ := h.only f hol
      exact ⟨t, (hm t).mpr (.inr ht), hto⟩
    · exact ⟨_, (hm _).mpr (.inl rfl), hgi.1.symm⟩

theorem OmInv.tflowRemove (h : OmInv tags om) (token : Text) : OmInv tags (tflowRemoveFromSchema tags om token).2 := by
  unfold tflowRemoveFromSchema
  cases hfi : tflowFindByToken om.tflows token with
  | none => exact h
  | some t =>
    obtain rfl : t.token = token := key_of_find hfi
    have ht : t ∈ om.tflows := mem_of_find hfi
    have hm (t' : Tflow) : t' ∈ Keyed.drop Tflow.token t.token om.tflows ↔ t' ∈ om.tflows ∧ t'.token ≠ t.token := by
      simp [Keyed.drop]
    have hne : t.tags ≠ [] := by
      rw [(h.template t ht).2]
      exact detectRefs_ne_nil (h.template t ht).1
    have hfl := mem_templateTflowUpdate tags .delete hne om.flows
    refine ⟨h.unique.drop _, fun t' ht' => h.template t' ((hm t').mp ht').1, ?_, ?_⟩
    · intro t' ht' tv
      obtain ⟨ht', ho⟩ := (hm t').mp ht'
      rw [hfl, After.of_not fun hg => ho hg.1]
      exact h.flows t' ht' tv
    · intro f hf
      obtain ⟨hol, hgo⟩ := (hfl f).mp hf
      obtain ⟨t', ht', hto⟩ := h.only f hol
      refine ⟨t', (hm t').mpr ⟨ht', ?_⟩, hto⟩
      intro he
      -- a flow of the removed template has been deleted
      have hf' : f = (t.token, f.2) := Prod.ext (hto.symm.trans he) rfl
      rw [hf'] at hol
      exact hgo ⟨hto.symm.trans he, (h.flows t ht f.2).mp hol⟩

/-! ## Runs -/

structure Inv (w : World) : Prop where
  valued : Valued w.sys.tags
  om : OmInv w.sys.tags w.om

theorem inv_empty : Inv World.empty where
  valued _ _ _ h := by simp [World.empty, Tags.empty, tagFindByName] at h
  om := ⟨nodup_nil, by simp [World.empty], by simp [World.empty], by simp [World.empty]⟩

/-- No report of the event meets a template that refers to the tag by the other kind. -/
def EventSafe (pick : Pick) (w : World) : OmEvent → Prop
  | .tag e => ∀ n ∈ (Tags.step pick w.sys e).notes, ∀ t ∈ w.om.tflows, KindSafe n t
  | _ => True

theorem Inv.step {w : World} (h : Inv w) {e : OmEvent} (hs : EventSafe pick w e) :
    Inv (w.step pick e) := by
  cases e with
  | tag e =>
    obtain ⟨hc, hv⟩ := step_chain pick h.valued e
    exact ⟨hv, h.om.reports pick hc h.valued hs⟩
  | tflowAdd row => exact ⟨h.valued, h.om.tflowAdd row⟩
  | tflowRemove token => exact ⟨h.valued, h.om.tflowRemove token⟩

/-- No group has the name of a plain tag. -/
def NoClash (tags : List Tag) : Prop := ∀ t ∈ tags, ∀ t' ∈ tags, t.name = t'.name → t.group = t'.group

/-- All events of a run are safe, and no state on its way has a group with the name of a tag. -/
def RunSafe : World → List (Pick × OmEvent) → Prop
  | w, [] => NoClash w.sys.tags
  | w, e :: es => NoClash w.sys.tags ∧ EventSafe e.1 w e.2 ∧ RunSafe (w.step e.1 e.2) es

theorem Inv.run {es : List (Pick × OmEvent)} {w : World} (h : Inv w) (hs : RunSafe w es) :
    Inv (es.foldl (fun w e => w.step e.1 e.2) w) ∧ NoClash (es.foldl (fun w e => w.step e.1 e.2) w).sys.tags := by
  induction es generalizing w with
  | nil => exact ⟨h, hs⟩
  | cons e es ih => exact ih (h.step e.1 hs.2.1) hs.2.2

end OpenSync.Om
