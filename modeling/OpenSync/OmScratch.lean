import OpenSync.OmTemplateRun
import OpenSync.TagRun

/-!
# Incremental flows equal flows from scratch

What a template gives from scratch is said without the walk: each reference takes one of the current values
of its tag that passes its own filter.
-/

namespace OpenSync.Om
open List

open Tags Product Template

/-- A value that a reference may take: one of its tag's values that passes its filter. -/
def Choice (tags : List Tag) (r : Entry) (b : Binding) : Prop :=
  b.key = refKey r ∧ ∃ e ∈ valuesOf tags r.value (isGroup r),
    passes (varFlags r.flags) e.flags = true ∧ e.value = b.value

/-- The flows that the registered templates give from the current values, with at most five references
each. -/
def FromScratch (w : World) (f : Flow) : Prop :=
  ∃ t ∈ w.om.tflows, t.token = f.1 ∧ (detectRefs t.rule).length ≤ maxTagsPerRule ∧
    (expand f.2 t.rule).isSome = true ∧ List.Forall₂ (Choice w.sys.tags) (detectRefs t.rule) f.2

/-- The values that a reference may take by its own filter. -/
def own (tags : List Tag) (r : Entry) : List Binding :=
  ((valuesOf tags r.value (isGroup r)).filter fun e => passes (varFlags r.flags) e.flags).map
    (Template.bind r)

variable {tags : List Tag}

theorem mem_own {r : Entry} {b : Binding} : b ∈ own tags r ↔ Choice tags r b := by
  constructor
  · intro h
    obtain ⟨e, he, rfl⟩ := mem_map.mp h
    obtain ⟨hm, hp⟩ := mem_filter.mp he
    exact ⟨rfl, e, hm, hp, rfl⟩
  · rintro ⟨hk, e, hm, hp, hv⟩
    refine mem_map.mpr ⟨e, mem_filter.mpr ⟨hm, hp⟩, ?_⟩
    obtain ⟨hn, hg⟩ := Prod.mk.inj hk
    cases b
    simp_all [Template.bind]

theorem keeps_normal (F f : Flags) : Filter.normal.keeps F f = passes F f := by
  by_cases hF : F = 0 <;> simp [Filter.keeps, passes, hF]

theorem current_eq_own {refs : List Entry} {r : Entry}
    (h : filterFlags refs r = varFlags r.flags) : current tags refs r = own tags r := by
  unfold current chosen own
  simp [keeps_normal, h]

theorem exists_of_valuesOf {n : Text} {k : Bool} (h : valuesOf tags n k ≠ []) :
    ∃ t ∈ tags, t.name = n ∧ t.group = k := by
  cases hf : tagFindByName tags n k with
  | none => exact absurd (valuesOf_none hf) h
  | some t =>
    obtain ⟨hn, hg⟩ := Tags.key_of_find hf
    exact ⟨t, Keyed.mem_of_find hf, hn, hg⟩

/-- Where a template refers to a tag and to a group of one name, one of the two has no values, so the
filter of the one never acts on the other. -/
theorem choose_current_eq_own (hc : NoClash tags) {refs : List Entry}
    (ho : OneRefEach refs) : choose (current tags refs) refs = choose (own tags) refs := by
  by_cases hk : ∀ r ∈ refs, ∀ r' ∈ refs, r'.value = r.value → isGroup r' = isGroup r
  · exact choose_congr fun r hr => current_eq_own (filterFlags_eq ho hr (hk r hr))
  push Not at hk
  obtain ⟨r, hr, r', hr', hn, hg⟩ := hk
  obtain ⟨s, hs, hni⟩ : ∃ s ∈ refs, valuesOf tags s.value (isGroup s) = [] := by
    by_contra ha
    push Not at ha
    obtain ⟨t, ht, htn, htg⟩ := exists_of_valuesOf (ha r hr)
    obtain ⟨t', ht', htn', htg'⟩ := exists_of_valuesOf (ha r' hr')
    have hsa := hc t ht t' ht' (by rw [htn, htn', hn])
    exact hg (by rw [← htg', ← htg, hsa])
  rw [choose_eq_nil hs (by simp [current, chosen, hni]), choose_eq_nil hs (by simp [own, hni])]

theorem gives_iff_scratch (hc : NoClash tags) {t : Tflow}
    (ht : t.tags = detectRefs t.rule) (tv : List Binding) : Gives tags t tv ↔
      (detectRefs t.rule).length ≤ maxTagsPerRule ∧ (expand tv t.rule).isSome = true ∧
        List.Forall₂ (Choice tags) (detectRefs t.rule) tv := by
  have ho : OneRefEach t.tags := ht ▸ detectRefs_oneRefEach t.rule
  have hm : tv ∈ choose (current tags t.tags) t.tags ↔ Forall₂ (Choice tags) t.tags tv := by
    rw [choose_current_eq_own hc ho, mem_choose]
    simp [mem_own]
  have hexp (h : Forall₂ (Choice tags) t.tags tv) : (expand tv t.rule).isSome = expandable t.rule t.tags :=
    expandable_eq (keys_of_mem_choose (fun r b hb => (mem_own.mp hb).1)
      (mem_choose.mpr (h.imp fun r b hb => mem_own.mpr hb)))
  rw [Gives, Works, hm, ← ht]
  constructor
  · rintro ⟨⟨hl, hex⟩, ha⟩
    exact ⟨hl, (hexp ha).trans hex, ha⟩
  · rintro ⟨hl, hex, ha⟩
    exact ⟨⟨hl, (hexp ha).symm.trans hex⟩, ha⟩

/-- After every run without kind confusion, the installed flows are those made from scratch. -/
theorem flows_eq_fromScratch (es : List (Pick × OmEvent)) (hsafe : RunSafe World.empty es) (f : Flow) :
    f ∈ (run es).om.flows ↔ FromScratch (run es) f := by
  obtain ⟨hin, hc⟩ := inv_empty.run hsafe
  constructor
  · intro hf
    obtain ⟨t, ht, hto⟩ := hin.om.only f hf
    have hf' : (t.token, f.2) ∈ (run es).om.flows := by rwa [hto]
    have hg := (hin.om.flows t ht f.2).mp hf'
    exact ⟨t, ht, hto, (gives_iff_scratch hc (hin.om.template t ht).2 f.2).mp hg⟩
  · rintro ⟨t, ht, hto, hs⟩
    have hg := (gives_iff_scratch hc (hin.om.template t ht).2 f.2).mpr hs
    have hf' := (hin.om.flows t ht f.2).mpr hg
    rwa [hto] at hf'

/-- A template with one reference to `x`, and then a plain tag `x` with the device value `v`. -/
def templateThenTag (row : FlowRow) : List (Pick × OmEvent) :=
  [(firstPick, .tflowAdd row), (firstPick, .tag (.tagAdd ⟨['x'], [['v']], [], List.nodup_singleton _⟩))]

def tagTemplate : FlowRow := ⟨['T'], ['$', '{', '@', 'x', '}'], by decide +kernel⟩

def groupTemplate : FlowRow := ⟨['T'], ['$', '[', 'x', ']'], by decide +kernel⟩

theorem tagTemplate_flows : (['T'], [⟨['x'], false, ['v']⟩]) ∈ (run (templateThenTag tagTemplate)).om.flows ↔
    FromScratch (run (templateThenTag tagTemplate)) (['T'], [⟨['x'], false, ['v']⟩]) := by
  apply flows_eq_fromScratch (templateThenTag tagTemplate)
  unfold templateThenTag RunSafe RunSafe RunSafe
  refine ⟨?_, trivial, ?_, ?_, ?_⟩
  · unfold NoClash; decide +kernel
  · unfold NoClash; decide +kernel
  · unfold EventSafe KindSafe; decide +kernel
  · unfold NoClash; decide +kernel

/-- A reference to the group `x` is given the value of the plain tag `x`; there is no group `x`. -/
theorem group_reference_takes_tag_values : NoClash (run (templateThenTag groupTemplate)).sys.tags ∧
      (['T'], [⟨['x'], true, ['v']⟩]) ∈ (run (templateThenTag groupTemplate)).om.flows ∧
      ¬ FromScratch (run (templateThenTag groupTemplate)) (['T'], [⟨['x'], true, ['v']⟩]) := by
  have htf : (run (templateThenTag groupTemplate)).om.tflows =
      [⟨['T'], ['$', '[', 'x', ']'], [⟨['x'], flagGroup⟩]⟩] := by decide +kernel
  have hr : detectRefs ['$', '[', 'x', ']'] = [⟨['x'], flagGroup⟩] := by decide +kernel
  have hv : valuesOf (run (templateThenTag groupTemplate)).sys.tags ['x'] true = [] := by
    decide +kernel
  refine ⟨?_, by decide +kernel, ?_⟩
  · unfold NoClash; decide +kernel
  · rintro ⟨t, ht, -, -, -, ha⟩
    rw [htf, mem_singleton] at ht
    subst ht
    rw [hr] at ha
    obtain ⟨-, e, he, -⟩ := (forall₂_cons.mp ha).1
    rw [show isGroup ⟨['x'], flagGroup⟩ = true by decide, hv] at he
    simp at he

end OpenSync.Om
