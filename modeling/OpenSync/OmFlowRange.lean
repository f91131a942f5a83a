import OpenSync.OmFlowFrame
import OpenSync.OmRangeRun

/-!
# Rules made of ranges

A row with a range stands for many rules. Each of them should be tried, whatever becomes of the others, and a template
should be registered for each of them. The loop ends with the first rule that fails, a template ends with the first
expansion that fails, and all templates of a row would have its token, which only one can have.
-/

namespace OpenSync.OmFlow
open List Option Keyed Bool

open Tags Product Template

variable {switch : Switch} {tags : List Tag} {type : Action} {tflow : Tflow} {log : Log} {cs : List Call}

/-! ## Calls one after the other -/

/-- Calls up to the first that fails. -/
@[grind =] def handUntil (switch : Switch) : Log → List Call → Log
  | log, [] => log
  | log, c :: cs => if switch log c then handUntil switch (log ++ [(c, true)]) cs else log ++ [(c, false)]

@[grind =] def handed (switch : Switch) : Log → List Call → Log
  | log, [] => log
  | log, c :: cs => handed switch (log ++ [(c, switch log c)]) cs

/-- No call but the last fails. -/
def Unbroken (switch : Switch) : Log → List Call → Prop
  | _, [] => True
  | log, c :: cs => (cs ≠ [] → switch log c = true) ∧ Unbroken switch (log ++ [(c, switch log c)]) cs

def callsIn (log : Log) : List Call := log.map Prod.fst

theorem callsIn_snoc (log : Log) (c : Call) (ok : Bool) : callsIn (log ++ [(c, ok)]) = callsIn log ++ [c] := by
  rw [callsIn, map_append]
  rfl

theorem handUntil_of_unbroken (h : Unbroken switch log cs) : handUntil switch log cs = handed switch log cs := by
  induction cs generalizing log with
  | nil => rfl
  | cons c cs ih =>
    rw [handUntil, handed]
    cases hok : switch log c with
    | true =>
      have hr := h.2
      rw [hok] at hr
      exact ih hr
    | false =>
      have hn : cs = [] := by
        by_contra hne
        exact false_ne_true (hok.symm.trans (h.1 hne))
      subst hn
      rfl

theorem callsIn_handed (switch : Switch) (log : Log) (cs : List Call) :
    callsIn (handed switch log cs) = callsIn log ++ cs := by
  induction cs generalizing log with
  | nil => exact (append_nil _).symm
  | cons c cs ih => rw [handed, ih, callsIn_snoc, append_assoc, singleton_append]

theorem length_handUntil_lt (h : ¬ Unbroken switch log cs) :
    (handUntil switch log cs).length < log.length + cs.length := by
  induction cs generalizing log with
  | nil => exact absurd trivial h
  | cons c cs ih =>
    rw [handUntil]
    cases hok : switch log c with
    | true =>
      have hr : ¬ Unbroken switch (log ++ [(c, true)]) cs := fun hr => h ⟨fun _ => hok, hok.symm ▸ hr⟩
      have hlt := ih hr
      rw [length_append, length_singleton] at hlt
      rw [if_pos rfl, length_cons]
      omega
    | false =>
      have hne : cs ≠ [] := by
        rintro rfl
        exact h ⟨fun hne => absurd rfl hne, trivial⟩
      have hp := length_pos_of_ne_nil hne
      rw [if_neg Bool.false_ne_true, length_append, length_singleton, length_cons]
      omega

theorem length_handUntil_le (switch : Switch) (log : Log) (cs : List Call) :
    (handUntil switch log cs).length ≤ log.length + cs.length := by
  by_cases h : Unbroken switch log cs
  · have hl := congrArg length (callsIn_handed switch log cs)
    rw [handUntil_of_unbroken h]
    simp only [callsIn, length_append, length_map] at hl
    exact hl.le
  · exact (length_handUntil_lt h).le

/-! ## Expansions -/

/-- The calls for all expansions of a template; there are none if it has too many references. -/
def expansionCalls (tags : List Tag) (type : Action) (tflow : Tflow) : List Call :=
  if tflow.tags.length ≤ maxTagsPerRule then
    (choose (current tags tflow.tags) tflow.tags).filterMap fun tv =>
      (expandedFlow tflow tv).map (Call.expanded type tflow tv)
  else []

theorem tryAll_handUntil {tvs : List (List Binding)} {override : Option Override}
    (h : ∀ tv ∈ tvs, (expandedFlow tflow tv).isSome = true) (log : Log) :
    (tryAll (tflowWalk switch tags tflow type false override).finish tvs log).2 =
      handUntil switch log (tvs.filterMap fun tv => (expandedFlow tflow tv).map (Call.expanded type tflow tv)) := by
  induction tvs generalizing log with
  | nil => rfl
  | cons tv tvs ih =>
    obtain ⟨flow, hf⟩ := isSome_iff_exists.mp (h tv mem_cons_self)
    have hfi : (tflowWalk switch tags tflow type false override).finish log tv =
        (switch log (.expanded type tflow tv flow),
          log ++ [(.expanded type tflow tv flow, switch log (.expanded type tflow tv flow))]) := by
      simp [Walk.finish, tflowWalk, templateApply, hf, Switch.call]
    rw [tryAll, hfi, filterMap_cons, hf, map_some, handUntil]
    cases hok : switch log (.expanded type tflow tv flow) with
    | true => exact ih (forall_mem_cons.mp h).2 _
    | false => rfl

theorem expandedFlow_isSome {tv : List Binding} (htv : tv ∈ choose (current tags tflow.tags) tflow.tags) :
    (expandedFlow tflow tv).isSome = expandable tflow.rule tflow.tags := by
  have hk : tv.map Binding.key = tflow.tags.map refKey := keys_of_mem_choose (fun r b hb => key_of_mem_chosen hb) htv
  rw [expandedFlow, isSome_map, expandable_eq hk]

theorem templateTflowUpdate_eq (ht : tflow.tags ≠ []) (log : Log) :
    templateTflowUpdate switch tags type tflow log = handUntil switch log (expansionCalls tags type tflow) := by
  have hru := applyTag_run (tflowWalk switch tags tflow type false none) log
  have hit : (tflowWalk switch tags tflow type false none).items = current tags tflow.tags := by
    funext r
    exact items_table _ fun o ho => nomatch ho
  have hr : (tflowWalk switch tags tflow type false none).refs = tflow.tags := rfl
  rw [hit, hr] at hru
  rw [templateTflowUpdate, if_neg ht, templateApplyTags, expansionCalls]
  refine hru.trans ?_
  by_cases hl : tflow.tags.length ≤ maxTagsPerRule
  · rw [if_pos hl, if_pos hl]
    cases hex : expandable tflow.rule tflow.tags with
    | true => exact tryAll_handUntil (fun tv htv => (expandedFlow_isSome htv).trans hex) log
    | false =>
      have hn : ∀ tv ∈ choose (current tags tflow.tags) tflow.tags, expandedFlow tflow tv = none := fun tv htv =>
        not_isSome_iff_eq_none.mp (by rw [expandedFlow_isSome htv, hex]; exact false_ne_true)
      have hem : (choose (current tags tflow.tags) tflow.tags).filterMap
          (fun tv => (expandedFlow tflow tv).map (Call.expanded type tflow tv)) = [] :=
        filterMap_eq_nil_iff.mpr fun tv htv => by rw [hn tv htv]; rfl
      rw [hem]
      refine tryAll_same fun tv htv => ?_
      simp [Walk.finish, tflowWalk, templateApply, hn tv htv]
  · rw [if_neg hl, if_neg hl]
    rfl

/-! ## Rules -/

variable {rules : List FlowConfig} {rule : FlowConfig} {s s' : State}

def callsOf (tags : List Tag) (type : Action) (rule : FlowConfig) : List Call :=
  if isTemplate rule.rule then expansionCalls tags type (tflowAllocFromSchema rule) else [.static type rule]

def templates (rules : List FlowConfig) : List Tflow :=
  (rules.filter fun rule => isTemplate rule.rule).map tflowAllocFromSchema

/-- The templates came into the registry, or went out of it. -/
def Registers : Action → List Tflow → List Tflow → List Tflow → Prop
  | .add, ts, tflows, tflows' => tflows'.Perm (ts ++ tflows)
  | .delete, ts, tflows, tflows' => tflows.Perm (ts ++ tflows')

/-- Everything was tried: all calls for all rules were made, and all templates came or went. -/
structure Complete (tags : List Tag) (type : Action) (rules : List FlowConfig) (s s' : State) : Prop where
  calls : callsIn s'.log = callsIn s.log ++ rules.flatMap (callsOf tags type)
  registry : Registers type (templates rules) s.tflows s'.tflows

/-- When the calls for all rules are made in turn, no rule but the last fails, and no expansion of a template but its
last. -/
def RulesUnbroken (switch : Switch) (tags : List Tag) (type : Action) : Log → List FlowConfig → Prop
  | _, [] => True
  | log, rule :: rules =>
    (if isTemplate rule.rule then Unbroken switch log (callsOf tags type rule)
      else rules ≠ [] → switch log (.static type rule) = true) ∧
      RulesUnbroken switch tags type (handed switch log (callsOf tags type rule)) rules

theorem templates_cons_static (h : isTemplate rule.rule = false) : templates (rule :: rules) = templates rules := by
  rw [templates, filter_cons_of_neg (by rw [h]; exact false_ne_true)]
  rfl

theorem templates_cons_template (h : isTemplate rule.rule = true) :
    templates (rule :: rules) = tflowAllocFromSchema rule :: templates rules := by
  simp [templates, h]

theorem rules_eq_nil (hc : rules.flatMap (callsOf tags type) = []) (hte : templates rules = []) : rules = [] := by
  cases rules with
  | nil => rfl
  | cons rule rules =>
    cases ht : isTemplate rule.rule with
    | true => rw [templates_cons_template ht] at hte; exact nomatch hte
    | false => simp [flatMap_cons, callsOf, ht] at hc

/-! ## One rule -/

theorem updateFlowsParsed_static (h : isTemplate rule.rule = false) (s : State) :
    updateFlowsParsed switch tags type s rule =
      (switch s.log (.static type rule), ⟨s.tflows, s.log ++ [(.static type rule, switch s.log (.static type rule))]⟩) := by
  unfold updateFlowsParsed
  rw [if_neg (by rw [h]; exact false_ne_true)]
  rfl

section

variable (h : isTemplate rule.rule = true)
include h

theorem tflowAlloc_tags_ne_nil : (tflowAllocFromSchema rule).tags ≠ [] := detectRefs_ne_nil h

theorem updateFlowsParsed_add (hf : tflowFindByToken s.tflows rule.token = none) :
    updateFlowsParsed switch tags .add s rule = (true, ⟨Keyed.insert Tflow.token strLt (tflowAllocFromSchema rule) s.tflows,
      handUntil switch s.log (callsOf tags .add rule)⟩) := by
  unfold updateFlowsParsed
  rw [if_pos h]
  simp only [tflowAddFromSchema, hf, isSome_none, false_eq_true, if_false]
  rw [templateTflowUpdate_eq (tflowAlloc_tags_ne_nil h), callsOf, if_pos h]

theorem updateFlowsParsed_duplicate
    (ht : tflowFindByToken s.tflows rule.token ≠ none) : updateFlowsParsed switch tags .add s rule = (false, s) := by
  unfold updateFlowsParsed
  rw [if_pos h]
  simp [tflowAddFromSchema, isSome_iff_ne_none.mpr ht]

theorem updateFlowsParsed_delete (hf : tflowFindByToken s.tflows rule.token = some (tflowAllocFromSchema rule)) :
    updateFlowsParsed switch tags .delete s rule =
      (true, ⟨Keyed.drop Tflow.token rule.token s.tflows, handUntil switch s.log (callsOf tags .delete rule)⟩) := by
  unfold updateFlowsParsed
  rw [if_pos h]
  simp only [tflowRemoveFromSchema, hf]
  rw [templateTflowUpdate_eq (tflowAlloc_tags_ne_nil h), callsOf, if_pos h]

end

/-! ## All rules -/

/-- There is one template at most, whose token is free when it is to be added, and its own when it is to be deleted. -/
structure Ready (type : Action) (token : Text) (rules : List FlowConfig) (tflows : List Tflow) : Prop where
  one : (templates rules).length ≤ 1
  token : ∀ t ∈ templates rules, match type with
    | .add => tflowFindByToken tflows token = none
    | .delete => tflowFindByToken tflows token = some t ∧ tflows.Perm (t :: Keyed.drop Tflow.token token tflows)

variable {token : Text}

theorem Ready.static (h : Ready type token (rule :: rules) s.tflows) (hs : isTemplate rule.rule = false) :
    Ready type token rules s.tflows := by
  obtain ⟨ho, ht⟩ := h
  rw [templates_cons_static hs] at ho ht
  exact ⟨ho, ht⟩

variable {tflows : List Tflow}

theorem Ready.rest (h : Ready type token (rule :: rules) s.tflows)
    (ht : isTemplate rule.rule = true) : templates rules = [] ∧ Ready type token rules tflows := by
  have hn : templates rules = [] := by
    have ho := h.one
    rw [templates_cons_template ht, length_cons] at ho
    exact length_eq_zero_iff.mp (by omega)
  exact ⟨hn, by rw [hn]; exact Nat.zero_le _, by simp [hn]⟩

theorem updateFlowsParsed_ready (switch : Switch) (tags : List Tag) (h : Ready type token (rule :: rules) s.tflows) (ht : rule.token = token)
    (hte : isTemplate rule.rule = true) :
    ∃ tflows, updateFlowsParsed switch tags type s rule = (true, ⟨tflows, handUntil switch s.log (callsOf tags type rule)⟩) ∧
      Registers type [tflowAllocFromSchema rule] s.tflows tflows := by
  have hr := h.token (tflowAllocFromSchema rule) (by rw [templates_cons_template hte]; exact mem_cons_self)
  cases type with
  | add => exact ⟨_, updateFlowsParsed_add hte (ht ▸ hr), insert_perm strLt _ _⟩
  | delete => exact ⟨_, updateFlowsParsed_delete hte (ht ▸ hr.1), ht ▸ hr.2⟩

theorem length_updateRules_le (switch : Switch) (tags : List Tag) (h : Ready type token rules s.tflows) (hto : ∀ rule ∈ rules, rule.token = token) :
    (updateRules switch tags type rules s).2.log.length ≤ s.log.length + (rules.flatMap (callsOf tags type)).length := by
  induction rules generalizing s with
  | nil => exact le_rfl
  | cons rule rules ih =>
    obtain ⟨hr, ht'⟩ := forall_mem_cons.mp hto
    rw [updateRules, flatMap_cons, length_append]
    cases ht : isTemplate rule.rule with
    | true =>
      obtain ⟨tflows, heq, -⟩ := updateFlowsParsed_ready switch tags h hr ht
      have hle := ih (s := ⟨tflows, handUntil switch s.log (callsOf tags type rule)⟩) (h.rest ht).2 ht'
      have hle' := length_handUntil_le switch s.log (callsOf tags type rule)
      rw [heq]
      simp only at hle ⊢
      omega
    | false =>
      have hc : (callsOf tags type rule).length = 1 := by rw [callsOf, ht]; rfl
      rw [updateFlowsParsed_static ht, hc]
      cases hok : switch s.log (.static type rule) with
      | true =>
        have hle := ih (s := ⟨s.tflows, s.log ++ [(.static type rule, true)]⟩) (h.static ht) ht'
        simp only [length_append, length_singleton] at hle ⊢
        omega
      | false =>
        simp only [length_append, length_singleton]
        omega

theorem registers_append_iff {ts ts₁ ts₂ tflows tflows₁ tflows₂ : List Tflow} (hts : ts = ts₁ ++ ts₂)
    (h : Registers type ts₁ tflows tflows₁) : Registers type ts tflows tflows₂ ↔ Registers type ts₂ tflows₁ tflows₂ := by
  subst hts
  cases type with
  | add =>
    have hp : (ts₁ ++ ts₂ ++ tflows).Perm (ts₂ ++ tflows₁) := by
      rw [append_assoc]
      exact (perm_append_comm_assoc _ _ _).trans ((perm_append_left_iff _).mpr h.symm)
    exact ⟨fun h' => h'.trans hp, fun h' => h'.trans hp.symm⟩
  | delete =>
    rw [Registers, append_assoc]
    exact ⟨fun h' => (perm_append_left_iff _).mp (h.symm.trans h'), fun h' => h.trans ((perm_append_left_iff _).mpr h')⟩

theorem complete_cons_iff (hc : callsIn log = callsIn s.log ++ callsOf tags type rule)
    (hr : Registers type (templates [rule]) s.tflows tflows) :
    Complete tags type (rule :: rules) s s' ↔ Complete tags type rules ⟨tflows, log⟩ s' := by
  have ht : templates (rule :: rules) = templates [rule] ++ templates rules := by
    rw [templates, templates, templates, ← map_append, ← filter_append, singleton_append]
  have hc' : callsIn s'.log = callsIn s.log ++ (rule :: rules).flatMap (callsOf tags type) ↔
      callsIn s'.log = callsIn log ++ rules.flatMap (callsOf tags type) := by
    rw [hc, flatMap_cons, append_assoc]
  refine ⟨fun h => ⟨hc'.mp h.calls, ?_⟩, fun h => ⟨hc'.mpr h.calls, ?_⟩⟩
  · exact (registers_append_iff ht hr).mp h.registry
  · exact (registers_append_iff ht hr).mpr h.registry

theorem complete_self_iff : Complete tags type rules s s ↔ rules = [] := by
  constructor
  · intro h
    have hc : rules.flatMap (callsOf tags type) = [] := (append_right_eq_self.mp h.calls.symm)
    refine rules_eq_nil hc ?_
    have hl : s.tflows.length = (templates rules ++ s.tflows).length := by
      have hr := h.registry
      cases type <;> exact hr.length_eq
    rw [length_append] at hl
    exact length_eq_zero_iff.mp (by omega)
  · rintro rfl
    refine ⟨(append_nil _).symm, ?_⟩
    cases type <;> exact Perm.refl _

theorem complete_iff (h : Ready type token rules s.tflows) (hto : ∀ rule ∈ rules, rule.token = token) :
    Complete tags type rules s (updateRules switch tags type rules s).2 ↔ RulesUnbroken switch tags type s.log rules := by
  induction rules generalizing s with
  | nil => exact iff_of_true (complete_self_iff.mpr rfl) trivial
  | cons rule rules ih =>
    obtain ⟨hr, ht'⟩ := forall_mem_cons.mp hto
    rw [updateRules, RulesUnbroken]
    cases ht : isTemplate rule.rule with
    | true =>
      obtain ⟨tflows, heq, hre⟩ := updateFlowsParsed_ready switch tags h hr ht
      rw [heq, if_pos rfl]
      have ho : templates [rule] = [tflowAllocFromSchema rule] := templates_cons_template ht
      by_cases hu : Unbroken switch s.log (callsOf tags type rule)
      · rw [handUntil_of_unbroken hu]
        have hc : Complete tags type (rule :: rules) s (updateRules switch tags type rules
            ⟨tflows, handed switch s.log (callsOf tags type rule)⟩).2 ↔ _ :=
          complete_cons_iff (callsIn_handed switch s.log (callsOf tags type rule)) (by rw [ho]; exact hre)
        rw [hc, ih (s := ⟨tflows, handed switch s.log (callsOf tags type rule)⟩) (h.rest ht).2 ht']
        exact (and_iff_right hu).symm
      · refine iff_of_false (fun hco => ?_) fun hb => hu hb.1
        have hlt := length_handUntil_lt hu
        have hle := length_updateRules_le switch tags (s := ⟨tflows, handUntil switch s.log (callsOf tags type rule)⟩)
          (h.rest ht).2 ht'
        have hl := congrArg length hco.calls
        simp only [callsIn, length_map, length_append, flatMap_cons] at hl hle
        omega
    | false =>
      have hca : callsOf tags type rule = [.static type rule] := by rw [callsOf, ht]; rfl
      have hn : templates [rule] = [] := templates_cons_static ht
      have hc : ∀ s', Complete tags type (rule :: rules) s s' ↔ Complete tags type rules
          ⟨s.tflows, s.log ++ [(.static type rule, switch s.log (.static type rule))]⟩ s' := fun s' =>
        complete_cons_iff (by rw [callsIn_snoc, hca]) (by cases type <;> rw [hn] <;> exact Perm.refl _)
      rw [updateFlowsParsed_static ht, if_neg Bool.false_ne_true, hca]
      cases hok : switch s.log (.static type rule) with
      | true =>
        simp only [hc, hok]
        have hres := ih (s := ⟨s.tflows, s.log ++ [(.static type rule, true)]⟩) (h.static ht) ht'
        rw [handed, handed, hok, hres]
        exact (and_iff_right fun _ => trivial).symm
      | false =>
        simp only [hc, hok]
        rw [complete_self_iff]
        constructor
        · rintro rfl
          exact ⟨fun hne => absurd rfl hne, trivial⟩
        · rintro ⟨hla, -⟩
          by_contra hne
          exact Bool.false_ne_true (hla hne)

/-! ## Rows with ranges -/

theorem length_tflows_le (switch : Switch) (tags : List Tag) (s : State) (ht : ∀ rule ∈ rules, rule.token = token) :
    (updateRules switch tags .add rules s).2.tflows.length ≤
      s.tflows.length + if tflowFindByToken s.tflows token = none then 1 else 0 := by
  induction rules generalizing s with
  | nil => exact Nat.le_add_right _ _
  | cons rule rules ih =>
    obtain ⟨hr, ht'⟩ := forall_mem_cons.mp ht
    rw [updateRules]
    cases hte : isTemplate rule.rule with
    | true =>
      by_cases hf : tflowFindByToken s.tflows rule.token = none
      · have hfi : tflowFindByToken (insert Tflow.token strLt (tflowAllocFromSchema rule) s.tflows) token ≠ none := by
          rw [tflowFindByToken, find_insert strLt_irrefl, if_pos (by exact hr.symm)]
          exact some_ne_none _
        rw [updateFlowsParsed_add hte hf]
        refine (ih _ ht').trans (le_of_eq ?_)
        rw [if_neg hfi, if_pos (hr ▸ hf), (insert_perm strLt _ _).length_eq, length_cons]
      · rw [updateFlowsParsed_duplicate hte hf]
        exact Nat.le_add_right _ _
    | false =>
      rw [updateFlowsParsed_static hte]
      cases switch s.log (.static .add rule) with
      | true => exact ih _ ht'
      | false => exact Nat.le_add_right _ _

theorem ready_of_complete (hto : ∀ rule ∈ rules, rule.token = token)
    (h : Complete tags .add rules s (updateRules switch tags .add rules s).2) : Ready .add token rules s.tflows := by
  have hl := h.registry.length_eq
  rw [length_append] at hl
  have hle := length_tflows_le switch tags s hto
  refine ⟨by split_ifs at hle <;> omega, fun t ht => ?_⟩
  by_contra hta
  have hp := length_pos_of_mem ht
  rw [if_neg hta] at hle
  omega

theorem Ready.added {tflows tflows' : List Tflow} (h : Ready .add token rules tflows)
    (hto : ∀ rule ∈ rules, rule.token = token) (hr : Registers .add (templates rules) tflows tflows') :
    Ready .delete token rules tflows' := by
  refine ⟨h.one, fun t ht => ?_⟩
  have ho : templates rules = [t] := by
    obtain ⟨t', hte⟩ := length_eq_one_iff.mp (le_antisymm h.one (length_pos_of_mem ht))
    rw [hte, mem_singleton] at ht
    rw [hte, ht]
  have hk : t.token = token := by
    obtain ⟨rule, hru, rfl⟩ := mem_map.mp ht
    exact hto rule (mem_filter.mp hru).1
  have hfr := find_eq_none.mp (h.token t ht)
  rw [ho] at hr
  have hp : tflows'.Perm (t :: tflows) := hr
  have hd : (drop Tflow.token token tflows').Perm tflows := by
    refine (hp.filter _).trans ?_
    rw [filter_cons_of_neg (by simp [hk]), filter_eq_self.mpr fun t' ht' => by simpa using hfr t' ht']
  refine ⟨?_, hp.trans (hd.symm.cons t)⟩
  cases hf : tflowFindByToken tflows' token with
  | none => exact absurd hk (find_eq_none.mp hf t (hp.mem_iff.mpr mem_cons_self))
  | some t' =>
    rcases mem_cons.mp (hp.mem_iff.mp (mem_of_find hf)) with rfl | hm
    · rfl
    · exact absurd (key_of_find hf) (hfr t' hm)

def rulesOf (ofconf : FlowConfig) (texts : List Text) : List FlowConfig :=
  texts.map fun text => { ofconf with rule := text }

theorem updateFlows_eq {lib : OmRange.Libc} {fuel : Nat} {ofconf : FlowConfig} {texts : List Text}
    (hr : OmRange.isRangeSpecified ofconf.rule = true)
    (hg : OmRange.omRangeGenerateRangeRules lib fuel ofconf.rule [] = some (true, texts)) :
    updateFlows lib fuel switch tags type s ofconf = some (updateRules switch tags type (rulesOf ofconf texts) s) := by
  rw [updateFlows, if_pos hr, hg]
  rfl

/-- A row with a range is added and deleted with all its rules if and only if no operation fails before the last, and at
most one of the rules is a template, whose token is free. -/
theorem range_rules_tried_iff {lib : OmRange.Libc} {fuel : Nat} {ofconf : FlowConfig} {texts : List Text}
    (hrange : OmRange.isRangeSpecified ofconf.rule = true)
    (hgen : OmRange.omRangeGenerateRangeRules lib fuel ofconf.rule [] = some (true, texts)) (switch : Switch)
    (tags : List Tag) (s : State) (log : Log) :
    (∃ ret s₁, updateFlows lib fuel switch tags .add s ofconf = some (ret, s₁) ∧
        Complete tags .add (rulesOf ofconf texts) s s₁ ∧
        ∃ ret' s₂, updateFlows lib fuel switch tags .delete ⟨s₁.tflows, log⟩ ofconf = some (ret', s₂) ∧
          Complete tags .delete (rulesOf ofconf texts) ⟨s₁.tflows, log⟩ s₂) ↔
      Ready .add ofconf.token (rulesOf ofconf texts) s.tflows ∧
        RulesUnbroken switch tags .add s.log (rulesOf ofconf texts) ∧
        RulesUnbroken switch tags .delete log (rulesOf ofconf texts) := by
  have ht : ∀ rule ∈ rulesOf ofconf texts, rule.token = ofconf.token := by
    intro rule hru
    obtain ⟨text, -, rfl⟩ := mem_map.mp hru
    rfl
  simp only [updateFlows_eq hrange hgen, some.injEq]
  constructor
  · rintro ⟨ret, s₁, heq, ha, ret', s₂, heq', hd⟩
    obtain rfl : (updateRules switch tags .add (rulesOf ofconf texts) s).2 = s₁ := congrArg Prod.snd heq
    obtain rfl := congrArg Prod.snd heq'
    have hr := ready_of_complete ht ha
    exact ⟨hr, (complete_iff hr ht).mp ha, (complete_iff (s := ⟨_, log⟩) (hr.added ht ha.registry) ht).mp hd⟩
  · rintro ⟨hr, ha, hd⟩
    have hc := (complete_iff hr ht).mpr ha
    exact ⟨_, _, rfl, hc, _, _, rfl, (complete_iff (s := ⟨_, log⟩) (hr.added ht hc.registry) ht).mpr hd⟩

instance decidableUnbroken (switch : Switch) : (log : Log) → (cs : List Call) → Decidable (Unbroken switch log cs)
  | _, [] => isTrue trivial
  | log, c :: cs =>
    have := decidableUnbroken switch (log ++ [(c, switch log c)]) cs
    inferInstanceAs (Decidable ((cs ≠ [] → switch log c = true) ∧ _))

instance decidableRulesUnbroken (switch : Switch) (tags : List Tag) (type : Action) :
    (log : Log) → (rules : List FlowConfig) → Decidable (RulesUnbroken switch tags type log rules)
  | _, [] => isTrue trivial
  | log, rule :: rules =>
    have := decidableRulesUnbroken switch tags type (handed switch log (callsOf tags type rule)) rules
    inferInstanceAs (Decidable ((if isTemplate rule.rule then Unbroken switch log (callsOf tags type rule)
      else rules ≠ [] → switch log (.static type rule) = true) ∧ _))

def portRow (rule : Text) : FlowConfig := ⟨['t'], "br-home".toList, 0, 10, rule, "drop".toList⟩

def threePorts : FlowConfig := portRow "tcp,tp_dst=$<1-3>".toList

def threeTexts : List Text := ["tcp,tp_dst=3".toList, "tcp,tp_dst=2".toList, "tcp,tp_dst=1".toList]

def refuseOne : Switch := fun _ c => decide (c ≠ .static .add (portRow "tcp,tp_dst=1".toList))

theorem threePorts_tried : ∃ ret s₁,
    updateFlows OmRange.plainLibc 9 refuseOne [] .add ⟨[], []⟩ threePorts = some (ret, s₁) ∧
      Complete [] .add (rulesOf threePorts threeTexts) ⟨[], []⟩ s₁ ∧
      ∃ ret' s₂, updateFlows OmRange.plainLibc 9 refuseOne [] .delete ⟨s₁.tflows, []⟩ threePorts = some (ret', s₂) ∧
        Complete [] .delete (rulesOf threePorts threeTexts) ⟨s₁.tflows, []⟩ s₂ :=
  (range_rules_tried_iff (by decide +kernel) (by decide +kernel) refuseOne [] ⟨[], []⟩ []).mpr
    ⟨⟨by decide +kernel, by
      have hn : templates (rulesOf threePorts threeTexts) = [] := by decide +kernel
      simp [hn]⟩, by decide +kernel, by decide +kernel⟩

def refuseThree : Switch := fun _ c => decide (c ≠ .static .add (portRow "tcp,tp_dst=3".toList))

def taggedPorts : FlowConfig := portRow "tcp,nw_src=$\x7ba\x7d,tp_dst=$<1-3>".toList

def taggedTexts : List Text := ["tcp,nw_src=$\x7ba\x7d,tp_dst=3".toList, "tcp,nw_src=$\x7ba\x7d,tp_dst=2".toList,
  "tcp,nw_src=$\x7ba\x7d,tp_dst=1".toList]

theorem failure_ends_range :
    (OmRange.omRangeGenerateRangeRules OmRange.plainLibc 9 threePorts.rule [] = some (true, threeTexts) ∧
      (updateFlows OmRange.plainLibc 9 refuseThree [] .add ⟨[], []⟩ threePorts).map (fun r => callsIn r.2.log) =
        some [.static .add (portRow "tcp,tp_dst=3".toList)]) ∧
      OmRange.omRangeGenerateRangeRules OmRange.plainLibc 9 taggedPorts.rule [] = some (true, taggedTexts) ∧
      (updateFlows OmRange.plainLibc 9 (fun _ _ => true) [] .add ⟨[], []⟩ taggedPorts).map (fun r => r.2.tflows) =
        some [tflowAllocFromSchema (portRow "tcp,nw_src=$\x7ba\x7d,tp_dst=3".toList)] := by
  decide +kernel

end OpenSync.OmFlow
