import OpenSync.OmRange
import OpenSync.TemplateLength

/-!
# Flows of the Openflow manager

Rows of `Openflow_Config` become flows: directly, as one flow for each value of a range, or through templates that are
kept by their token. Here the flows are handed to the switch with all their columns, and each time the switch may
succeed or fail; what it says is a parameter, which may depend on everything that was handed to it before.
-/

namespace OpenSync.OmFlow
open List Option

open Tags Template

structure FlowConfig where
  token : Text
  bridge : Text
  table : Int
  priority : Int
  rule : Text
  action : Text
  deriving DecidableEq

def maxToken : Nat := 64
def maxBridge : Nat := 16
def maxRule : Nat := 255
def maxAction : Nat := 128

/-- A row, with the columns as the schema of the database allows them. -/
structure Row extends FlowConfig where
  token_le : token.length ≤ maxToken
  bridge_le : bridge.length ≤ maxBridge
  rule_le : rule.length ≤ maxRule
  action_le : action.length ≤ maxAction

def toInt (n : Int) : Int := n.bmod (2 ^ 32)

/-- `schema_Openflow_Config_from_json` -/
def fromJson (row : Row) : FlowConfig :=
  { row.toFlowConfig with table := toInt row.table, priority := toInt row.priority }

structure Tflow where
  token : Text
  bridge : Text
  rule : Text
  action : Text
  tableId : BitVec 8
  priority : BitVec 8
  tags : List Entry
  deriving DecidableEq

def tflowAllocFromSchema (sflow : FlowConfig) : Tflow :=
  ⟨sflow.token, sflow.bridge, sflow.rule, sflow.action, BitVec.ofInt 8 sflow.table, BitVec.ofInt 8 sflow.priority,
    detectRefs sflow.rule⟩

def strscpy (max : Nat) (s : Text) : Text := s.take max

def tflowToSchema (tflow : Tflow) (erule : Text) : FlowConfig where
  token := strscpy maxToken tflow.token
  bridge := strscpy maxBridge tflow.bridge
  table := tflow.tableId.toNat
  priority := tflow.priority.toNat
  rule := strscpy maxRule erule
  action := strscpy maxAction tflow.action

def expandedFlow (tflow : Tflow) (tv : List Binding) : Option FlowConfig :=
  (expand tv tflow.rule).map (tflowToSchema tflow)

/-! ## The switch -/

/-- A call of `om_add_flow` or `om_del_flow`, for a row of its own or for an expansion of a template. -/
inductive Call
  | static (type : Action) (flow : FlowConfig)
  | expanded (type : Action) (tflow : Tflow) (tv : List Binding) (flow : FlowConfig)
  deriving DecidableEq

abbrev Log := List (Call × Bool)

abbrev Switch := Log → Call → Bool

def Switch.call (switch : Switch) (log : Log) (c : Call) : Bool × Log := (switch log c, log ++ [(c, switch log c)])

/-! ## Templates -/

def templateApply (switch : Switch) (type : Action) (tflow : Tflow) (log : Log) (tv : List Binding) : Bool × Log :=
  match expandedFlow tflow tv with
  | none => (false, log)
  | some flow => switch.call log (.expanded type tflow tv flow)

def tflowWalk (switch : Switch) (tags : List Tag) (tflow : Tflow) (type : Action) (ignoreErr : Bool)
    (override : Option Override) : Walk Log :=
  ⟨tags, tflow.tags, override, false, ignoreErr, templateApply switch type tflow⟩

def templateApplyTags (switch : Switch) (tags : List Tag) (tflow : Tflow) (type : Action) (ignoreErr : Bool)
    (override : Option Override) (log : Log) : Log :=
  (applyTag (tflowWalk switch tags tflow type ignoreErr override) tflow.tags [] log).2

def templateTflowUpdate (switch : Switch) (tags : List Tag) (type : Action) (tflow : Tflow) (log : Log) : Log :=
  if tflow.tags = [] then log else templateApplyTags switch tags tflow type false none log

/-- `om_template_tag_update` for one template. -/
def tflowTagUpdate (switch : Switch) (pick : Pick) (n : Note) (log : Log) (tflow : Tflow) : Log :=
  if (entryFindByValue pick tflow.tags n.tag.name).isNone then log
  else tagPasses (fun type ign o => templateApplyTags switch n.tags tflow type ign (some o)) n log

def templateTagUpdate (switch : Switch) (pick : Pick) (tflows : List Tflow) (n : Note) (log : Log) : Log :=
  tflows.foldl (tflowTagUpdate switch pick n) log

/-! ## Rows -/

structure State where
  tflows : List Tflow
  log : Log

def tflowFindByToken (tflows : List Tflow) (token : Text) : Option Tflow := Keyed.find Tflow.token token tflows

def tflowAddFromSchema (switch : Switch) (tags : List Tag) (s : State) (sflow : FlowConfig) : Bool × State :=
  if (tflowFindByToken s.tflows sflow.token).isSome then (false, s)
  else
    let tflow := tflowAllocFromSchema sflow
    (true, ⟨Keyed.insert Tflow.token strLt tflow s.tflows, templateTflowUpdate switch tags .add tflow s.log⟩)

def tflowRemoveFromSchema (switch : Switch) (tags : List Tag) (s : State) (sflow : FlowConfig) : Bool × State :=
  match tflowFindByToken s.tflows sflow.token with
  | none => (false, s)
  | some tflow =>
    (true, ⟨Keyed.drop Tflow.token sflow.token s.tflows, templateTflowUpdate switch tags .delete tflow s.log⟩)

/-- `om_monitor_update_flows_parsed` for rows that are added or deleted. -/
def updateFlowsParsed (switch : Switch) (tags : List Tag) (type : Action) (s : State) (ofconf : FlowConfig) :
    Bool × State :=
  if isTemplate ofconf.rule then
    match type with
    | .add => tflowAddFromSchema switch tags s ofconf
    | .delete => tflowRemoveFromSchema switch tags s ofconf
  else
    let r := switch.call s.log (.static type ofconf)
    (r.1, { s with log := r.2 })

/-- `ret = ret && om_monitor_update_flows_parsed(type, &data->rule)` for each rule in turn. -/
@[grind =] def updateRules (switch : Switch) (tags : List Tag) (type : Action) : List FlowConfig → State → Bool × State
  | [], s => (true, s)
  | rule :: rules, s =>
    match updateFlowsParsed switch tags type s rule with
    | (true, s) => updateRules switch tags type rules s
    | (false, s) => (false, s)

/-- The loop of `om_monitor_update_flows`; rules that are generated from a row differ from it in the rule only. Without
fuel there is no result. -/
def updateFlows (lib : OmRange.Libc) (fuel : Nat) (switch : Switch) (tags : List Tag) (type : Action) (s : State)
    (ofconf : FlowConfig) : Option (Bool × State) :=
  if OmRange.isRangeSpecified ofconf.rule then
    (OmRange.omRangeGenerateRangeRules lib fuel ofconf.rule []).map fun
      | (true, rules) => updateRules switch tags type (rules.map fun rule => { ofconf with rule := rule }) s
      | (false, _) => (false, s)
  else some (updateFlowsParsed switch tags type s ofconf)

/-! ## The identity of a flow -/

theorem toNat_ofInt_toInt (n : Int) : ((BitVec.ofInt 8 (toInt n)).toNat : Int) = n % 256 := by
  have hd : ((256 : Nat) : Int) ∣ ((2 ^ 32 : Nat) : Int) := by decide
  rw [BitVec.toNat_ofInt, toInt, Int.toNat_of_nonneg (Int.emod_nonneg _ (by decide))]
  have hm : n.bmod (2 ^ 32) % ((256 : Nat) : Int) = n % ((256 : Nat) : Int) := by
    rw [Int.bmod_def]
    split_ifs
    · exact Int.emod_emod_of_dvd n hd
    · rw [Int.sub_emod, Int.emod_emod_of_dvd n hd, Int.emod_eq_zero_of_dvd hd]
      simp
  exact hm

theorem emod_eq_self_iff {n : Int} : n % 256 = n ↔ 0 ≤ n ∧ n < 256 := by
  omega

/-- The flow has the columns of the row and the whole expanded rule. -/
structure KeepsIdentity (row : Row) (erule : Text) (flow : FlowConfig) : Prop where
  table : flow.table = row.table
  priority : flow.priority = row.priority
  bridge : flow.bridge = row.bridge
  action : flow.action = row.action
  rule : flow.rule = erule

/-- The numbers fit a byte, and the characters outside of references and the values come to no more than a rule. -/
structure FitsTemplate (row : Row) (tv : List Binding) : Prop where
  table : 0 ≤ row.table ∧ row.table < 256
  priority : 0 ≤ row.priority ∧ row.priority < 256
  rule : (substitute tv (pieces row.rule)).length ≤ maxRule

theorem substitute_of_expand {tv : List Binding} {rule erule : Text} (h : expand tv rule = some erule) :
    erule = substitute tv (pieces rule) := by
  rw [expand_eq_ruleExpand, ruleExpand_eq, Expansion.result] at h
  split_ifs at h with hd
  exact (some.inj h).symm.trans (expandPieces_of_done hd).2

theorem identity_kept_iff (row : Row) {tv : List Binding} {erule : Text} (h : expand tv row.rule = some erule) :
    (∃ flow, expandedFlow (tflowAllocFromSchema (fromJson row)) tv = some flow ∧ KeepsIdentity row erule flow) ↔
      FitsTemplate row tv := by
  have hfl : expandedFlow (tflowAllocFromSchema (fromJson row)) tv =
      some (tflowToSchema (tflowAllocFromSchema (fromJson row)) erule) := by
    have hr : (tflowAllocFromSchema (fromJson row)).rule = row.rule := rfl
    rw [expandedFlow, hr, h, map_some]
  have ht : (tflowToSchema (tflowAllocFromSchema (fromJson row)) erule).table = row.table % 256 :=
    toNat_ofInt_toInt row.table
  have hp : (tflowToSchema (tflowAllocFromSchema (fromJson row)) erule).priority = row.priority % 256 :=
    toNat_ofInt_toInt row.priority
  constructor
  · rintro ⟨flow, heq, hk⟩
    rw [hfl, some.injEq] at heq
    subst heq
    refine ⟨?_, ?_, ?_⟩
    · exact emod_eq_self_iff.mp (ht.symm.trans hk.table)
    · exact emod_eq_self_iff.mp (hp.symm.trans hk.priority)
    · rw [← substitute_of_expand h, ← hk.rule]
      exact length_take_le _ _
  · intro hf
    refine ⟨_, hfl, ?_, ?_, ?_, ?_, ?_⟩
    · exact ht.trans (emod_eq_self_iff.mpr hf.table)
    · exact hp.trans (emod_eq_self_iff.mpr hf.priority)
    · exact take_of_length_le row.bridge_le
    · exact take_of_length_le row.action_le
    · exact take_of_length_le (substitute_of_expand h ▸ hf.rule)

def clientRow (priority : Int) (rule : Text) (h : rule.length ≤ maxRule) : Row where
  token := ['t']
  bridge := "br-home".toList
  table := 0
  priority := priority
  rule := rule
  action := "normal".toList
  token_le := by decide
  bridge_le := by decide
  rule_le := h
  action_le := by decide

def lowRow : Row := clientRow 200 "ip,nw_src=$\x7ba\x7d".toList (by decide)

theorem lowRow_kept : ∃ flow, expandedFlow (tflowAllocFromSchema (fromJson lowRow)) [⟨['a'], false, "10.0.0.1".toList⟩] =
    some flow ∧ KeepsIdentity lowRow "ip,nw_src=10.0.0.1".toList flow :=
  (identity_kept_iff lowRow (by decide +kernel)).mpr ⟨by decide, by decide, by decide +kernel⟩

def highRow : Row := clientRow 300 "ip,nw_src=$\x7ba\x7d".toList (by decide)

/-- Five tags, whose values may have 64 characters each. -/
def longRow : Row := clientRow 200 "$\x7ba\x7d$\x7bb\x7d$\x7bc\x7d$\x7bd\x7d$\x7be\x7d".toList (by decide)

def longValues : List Binding := ['a', 'b', 'c', 'd', 'e'].map fun c => ⟨[c], false, List.replicate 64 c⟩

theorem priority_and_rule_cut :
    (expandedFlow (tflowAllocFromSchema (fromJson highRow)) [⟨['a'], false, "10.0.0.1".toList⟩]).map FlowConfig.priority =
        some 44 ∧
      (expand longValues longRow.rule).map List.length = some 320 ∧
      (expandedFlow (tflowAllocFromSchema (fromJson longRow)) longValues).map (List.length ∘ FlowConfig.rule) =
        some 255 := by
  decide +kernel

end OpenSync.OmFlow
