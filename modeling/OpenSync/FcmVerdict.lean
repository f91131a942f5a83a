import OpenSync.FcmFilter

/-!
# The verdict of a filter

A request should be included when the first rule of the table all of whose conditions hold includes. The filter takes
every destination port and every protocol to be in the set of a rule, takes a name for a member that it begins, does not
look at application tags, and learns what a rule does only while tracing.
-/

namespace OpenSync.Fcm
open List Keyed

open Tags

/-! ## Conditions -/

section

variable (tags : List Tag)

def Belongs (value member : Text) : Prop :=
  tagGetType member ≠ .notATag ∧
    ∃ tag, tagFindByName tags (matchFlags (member.drop 2)).2.dropLast (tagGetType member = .groupTag) = some tag ∧
      ∃ e ∈ tag.values, e.value = value ∧ passes (matchFlags (member.drop 2)).1 e.flags = true

def InNames (value : Text) (set : Option (List Text)) : Prop :=
  ∃ member ∈ set.getD [], value = member ∨ Belongs tags value member

end

def IpPort.Contains (r : IpPort) (port : Nat) : Prop :=
  if r.portMax = 0 then port = r.portMin else r.portMin ≤ port ∧ port ≤ r.portMax

def InPorts (port : Nat) (set : List IpPort) : Prop := ∃ r ∈ set, r.Contains port

def InNumbers (n : ℤ) (set : Option (List ℤ)) : Prop := n ∈ set.getD []

def Op.Holds : Op → Prop → Prop
  | .opNone, _ => True
  | .opIn, isMember => isMember
  | .opOut, isMember => ¬ isMember

def MathOp.Holds : MathOp → ℤ → ℤ → Prop
  | .mathNone, _, _ => True
  | .lt, a, b => a < b
  | .leq, a, b => a ≤ b
  | .gt, a, b => a > b
  | .geq, a, b => a ≥ b
  | .eq, a, b => a = b
  | .neq, a, b => a ≠ b

section

variable (tags : List Tag) (req : FilterReq)

/-- All conditions of the rule hold for what the request carries. -/
structure Matches (rule : FilterRule) : Prop where
  srcIp : ∀ l3, req.l3Info = some l3 → rule.srcIpRulePresent = true →
    rule.srcIpOp.Holds (InNames tags l3.srcIp rule.srcIp)
  dstIp : ∀ l3, req.l3Info = some l3 → rule.dstIpRulePresent = true →
    rule.dstIpOp.Holds (InNames tags l3.dstIp rule.dstIp)
  srcPort : ∀ l3, req.l3Info = some l3 → rule.srcPortRulePresent = true →
    rule.srcPortOp.Holds (InPorts l3.sport rule.srcPort)
  dstPort : ∀ l3, req.l3Info = some l3 → rule.dstPortRulePresent = true →
    rule.dstPortOp.Holds (InPorts l3.dport rule.dstPort)
  proto : ∀ l3, req.l3Info = some l3 → rule.protoRulePresent = true →
    rule.protoOp.Holds (InNumbers l3.l4Proto rule.proto)
  smac : ∀ l2, req.l2Info = some l2 → rule.smacRulePresent = true → rule.smacOp.Holds (InNames tags l2.srcMac rule.smac)
  dmac : ∀ l2, req.l2Info = some l2 → rule.dmacRulePresent = true → rule.dmacOp.Holds (InNames tags l2.dstMac rule.dmac)
  vlanid : ∀ l2, req.l2Info = some l2 → rule.vlanidRulePresent = true →
    rule.vlanidOp.Holds (InNumbers l2.vlanId.toNat rule.vlanid)
  appname : ∀ fkey, req.fkey = some fkey → rule.appnamePresent = true →
    rule.appnameOp.Holds (∃ ftag ∈ fkey.tags, InNames tags ftag.appName rule.appnames)
  appTag : ∀ fkey, req.fkey = some fkey → rule.appTagPresent = true →
    rule.appTagOp.Holds (∃ ftag ∈ fkey.tags, ∃ tag ∈ ftag.tags, InNames tags tag rule.appTags)
  pktcnt : rule.pktcntOp = .mathNone ∨ ∃ pkts, req.pkts = some pkts ∧ rule.pktcntOp.Holds pkts.pktCnt rule.pktcnt

def Included (rules : List (Option FilterRule)) : Prop :=
  ∃ before rule after, rules = before ++ some rule :: after ∧ (∀ r, some r ∈ before → ¬ Matches tags req r) ∧
    Matches tags req rule ∧ rule.action ≠ .excluding

end

variable {tags : List Tag} {pick : Pick} {req : FilterReq} {severity : Severity} {rule : FilterRule}
  {rules : List (Option FilterRule)}

/-! ## Conditions judged right -/

theorem length_matchFlags_le (t : Text) : (matchFlags t).2.length ≤ t.length := by
  fun_cases matchFlags t <;> simp

theorem tagIn_iff (hdistinct : ∀ tag ∈ tags, Distinct tag.values) {value member : Text}
    (hs : member.length ≤ nameSize) : tagIn tags pick value member = true ↔ Belongs tags value member := by
  have hn : (matchFlags (member.drop 2)).2.dropLast.take (nameSize - 1) = (matchFlags (member.drop 2)).2.dropLast := by
    apply take_of_length_le
    have hle := length_matchFlags_le (member.drop 2)
    rw [length_drop] at hle
    rw [length_dropLast]
    omega
  unfold tagIn Belongs
  by_cases ht : tagGetType member = .notATag
  · simp [ht]
  simp only [ht, if_false, hn, ne_eq, not_false_eq_true, true_and]
  cases hf : tagFindByName tags (matchFlags (member.drop 2)).2.dropLast (tagGetType member = .groupTag) with
  | none => simp
  | some tag =>
    have hva := hdistinct tag (mem_of_find hf)
    simp only [entryFindByValue_eq hva, Option.some.injEq, exists_eq_left']
    cases hen : find Entry.value value tag.values with
    | none =>
      have hno := find_eq_none.mp hen
      simp only [Bool.false_eq_true, false_iff, not_exists, not_and]
      exact fun e he hv => absurd hv (hno e he)
    | some e =>
      constructor
      · exact fun hp => ⟨e, mem_of_find hen, key_of_find hen, hp⟩
      · rintro ⟨e', he', rfl, hp⟩
        rw [find_of_mem hva he', Option.some.injEq] at hen
        exact hen ▸ hp

/-- The set exists, no member goes on after the value, and names of tags fit the buffer. -/
structure NamesFair (value : Text) (set : Option (List Text)) : Prop where
  isSome : set.isSome = true
  whole : ∀ member ∈ set.getD [], value <+: member → value = member
  short : ∀ member ∈ set.getD [], member.length ≤ nameSize

variable {set : Option (List Text)}

theorem NamesFair.any {value : Text} (hdistinct : ∀ tag ∈ tags, Distinct tag.values)
    (h : NamesFair value set) (pick : Pick) :
    ∃ members, set = some members ∧ (members.any (findInTag tags pick value) = true ↔ InNames tags value set) := by
  obtain ⟨members, rfl⟩ := Option.isSome_iff_exists.mp h.isSome
  refine ⟨members, rfl, ?_⟩
  simp only [any_eq_true, InNames, Option.getD_some]
  refine exists_congr fun member => and_congr_right fun hm => ?_
  rw [findInTag, Bool.or_eq_true, tagIn_iff hdistinct (h.short member hm), isPrefixOf_iff_prefix, or_comm]
  exact or_congr_left ⟨h.whole member hm, fun heq => heq ▸ prefix_rfl⟩

variable {P : Prop}

theorem fcmCheckOption_iff {op : Op} {present : Bool} (h : present = true ↔ P) :
    fcmCheckOption op present ≠ .ruledFalse ↔ op.Holds P := by
  cases op <;> cases present <;> simp_all [fcmCheckOption, Op.Holds]

theorem fcmCheckAppOption_iff {op : Op} {present : Bool} (h : present = true ↔ P) :
    fcmCheckAppOption op present ≠ .ruledFalse ↔ op.Holds P := by
  cases op <;> cases present <;> simp_all [fcmCheckAppOption, Op.Holds]

def Judges (filter : Option Allow) (P : Prop) : Prop := ∃ a, filter = some a ∧ (a ≠ .ruledFalse ↔ P)

theorem conditionFilter_judges {rulePresent : Bool} {op : Op} {check : Op → Bool → Allow} {inSet : Option Bool}
    (hc : ∀ {present : Bool} {P : Prop}, (present = true ↔ P) → (check op present ≠ .ruledFalse ↔ op.Holds P))
    (h : rulePresent = true → ∃ present, inSet = some present ∧ (present = true ↔ P)) :
    Judges (conditionFilter rulePresent (check op) inSet) (rulePresent = true → op.Holds P) := by
  cases rulePresent with
  | false => exact ⟨.defaultTrue, rfl, by simp⟩
  | true =>
    obtain ⟨present, rfl, hpr⟩ := h rfl
    exact ⟨check op present, rfl, (hc hpr).trans ⟨fun hp _ => hp, fun hp => hp rfl⟩⟩

theorem allowAll_judges {filters : List (Option Allow)} {Ps : List Prop} (h : List.Forall₂ Judges filters Ps) (allow : Bool) :
    ∃ b, filters.foldlM (fun allow filter => filter.map fun a => allow && a ≠ .ruledFalse) allow = some b ∧
      (b = true ↔ allow = true ∧ ∀ P ∈ Ps, P) := by
  induction h generalizing allow with
  | nil => exact ⟨allow, rfl, by simp⟩
  | cons hj _ ih =>
    obtain ⟨a, rfl, ha⟩ := hj
    obtain ⟨b, hb, hif⟩ := ih (allow && a ≠ .ruledFalse)
    refine ⟨b, hb, hif.trans ?_⟩
    rw [forall_mem_cons, ← ha, Bool.and_eq_true, decide_eq_true_eq, and_assoc]

/-- The conditions of the rule are of the kind that the filter judges right. -/
structure Fair (tags : List Tag) (req : FilterReq) (rule : FilterRule) : Prop where
  srcIp : ∀ l3, req.l3Info = some l3 → rule.srcIpRulePresent = true → NamesFair l3.srcIp rule.srcIp
  dstIp : ∀ l3, req.l3Info = some l3 → rule.dstIpRulePresent = true → NamesFair l3.dstIp rule.dstIp
  srcPort : rule.srcPortRulePresent = true → ∀ r ∈ rule.srcPort, r.portMax ≠ 0 → r.portMin ≤ r.portMax
  dstPort : ∀ l3, req.l3Info = some l3 → rule.dstPortRulePresent = true → InPorts l3.dport rule.dstPort
  proto : ∀ l3, req.l3Info = some l3 → rule.protoRulePresent = true →
    rule.proto.isSome = true ∧ InNumbers l3.l4Proto rule.proto
  smac : ∀ l2, req.l2Info = some l2 → rule.smacRulePresent = true → NamesFair l2.srcMac rule.smac
  dmac : ∀ l2, req.l2Info = some l2 → rule.dmacRulePresent = true → NamesFair l2.dstMac rule.dmac
  vlanid : ∀ l2, req.l2Info = some l2 → rule.vlanidRulePresent = true →
    rule.vlanid.isSome = true ∧ 2 * l2.vlanId.toNat < 2 ^ 32
  appname : ∀ fkey, req.fkey = some fkey → rule.appnamePresent = true →
    ∀ ftag ∈ fkey.tags, NamesFair ftag.appName rule.appnames
  appTag : ∀ fkey, req.fkey = some fkey → rule.appTagPresent = true →
    rule.appTagOp.Holds (∃ ftag ∈ fkey.tags, ∃ tag ∈ ftag.tags, InNames tags tag rule.appTags)

theorem NamesFair.inSet {value : Text} (hdistinct : ∀ tag ∈ tags, Distinct tag.values)
    (h : NamesFair value set) : ∃ present, (set.map fun members => members.any (findInTag tags pick value)) = some present ∧
      (present = true ↔ InNames tags value set) := by
  obtain ⟨members, hs, hif⟩ := h.any hdistinct pick
  exact ⟨members.any (findInTag tags pick value), by rw [hs, Option.map_some], hif⟩

theorem holds_iff_contains {r : IpPort} (h : r.portMax ≠ 0 → r.portMin ≤ r.portMax) (port : Nat) :
    r.holds port = true ↔ r.Contains port := by
  rw [IpPort.holds, IpPort.Contains]
  by_cases hm : r.portMax = 0
  · simp [hm, eq_comm]
  · simp [hm]
    omega

variable (hdistinct : ∀ tag ∈ tags, Distinct tag.values)

include hdistinct in
theorem Fair.l3 (h : Fair tags req rule) (pick : Pick) {l3 : L3Info} (hl3 : req.l3Info = some l3) :
    List.Forall₂ Judges [fcmSrcIpFilter tags pick rule l3, fcmDstIpFilter tags pick rule l3, fcmSportFilter rule l3,
        fcmDportFilter rule l3, fcmL4ProtoFilter rule l3]
      [rule.srcIpRulePresent = true → rule.srcIpOp.Holds (InNames tags l3.srcIp rule.srcIp),
        rule.dstIpRulePresent = true → rule.dstIpOp.Holds (InNames tags l3.dstIp rule.dstIp),
        rule.srcPortRulePresent = true → rule.srcPortOp.Holds (InPorts l3.sport rule.srcPort),
        rule.dstPortRulePresent = true → rule.dstPortOp.Holds (InPorts l3.dport rule.dstPort),
        rule.protoRulePresent = true → rule.protoOp.Holds (InNumbers l3.l4Proto rule.proto)] := by
  refine .cons ?_ (.cons ?_ (.cons ?_ (.cons ?_ (.cons ?_ .nil))))
  · exact conditionFilter_judges fcmCheckOption_iff fun hp => (h.srcIp l3 hl3 hp).inSet hdistinct
  · exact conditionFilter_judges fcmCheckOption_iff fun hp => (h.dstIp l3 hl3 hp).inSet hdistinct
  · refine conditionFilter_judges fcmCheckOption_iff fun hp => ⟨_, rfl, ?_⟩
    simp only [fcmSportInSet, Bool.if_true_left, Bool.or_false, any_eq_true, decide_eq_true_eq, InPorts]
    exact exists_congr fun r => and_congr_right fun hr => holds_iff_contains (h.srcPort hp r hr) _
  · refine conditionFilter_judges fcmCheckOption_iff fun hp => ⟨_, rfl, ?_⟩
    simp [fcmDportInSet, h.dstPort l3 hl3 hp]
  · refine conditionFilter_judges fcmCheckOption_iff fun hp => ?_
    obtain ⟨hs, hin⟩ := h.proto l3 hl3 hp
    obtain ⟨set, hse⟩ := Option.isSome_iff_exists.mp hs
    exact ⟨true, by simp [fcmProtoInSet, hse], by simp [hin]⟩

include hdistinct in
theorem Fair.l2 (h : Fair tags req rule) (pick : Pick) {l2 : L2Info} (hl2 : req.l2Info = some l2) :
    List.Forall₂ Judges [fcmSmacsFilter tags pick rule l2, fcmDmacsFilter tags pick rule l2, fcmVlanidFilter rule l2]
      [rule.smacRulePresent = true → rule.smacOp.Holds (InNames tags l2.srcMac rule.smac),
        rule.dmacRulePresent = true → rule.dmacOp.Holds (InNames tags l2.dstMac rule.dmac),
        rule.vlanidRulePresent = true → rule.vlanidOp.Holds (InNumbers l2.vlanId.toNat rule.vlanid)] := by
  refine .cons ?_ (.cons ?_ (.cons ?_ .nil))
  · exact conditionFilter_judges fcmCheckOption_iff fun hp => (h.smac l2 hl2 hp).inSet hdistinct
  · exact conditionFilter_judges fcmCheckOption_iff fun hp => (h.dmac l2 hl2 hp).inSet hdistinct
  · refine conditionFilter_judges fcmCheckOption_iff fun hp => ?_
    obtain ⟨hs, hsm⟩ := h.vlanid l2 hl2 hp
    obtain ⟨set, hse⟩ := Option.isSome_iff_exists.mp hs
    refine ⟨_, by rw [fcmVlanidInSet, hse, Option.map_some], ?_⟩
    simp [InNumbers, hse, BitVec.toInt_eq_toNat_of_lt hsm]

include hdistinct in
theorem Fair.app (h : Fair tags req rule) (pick : Pick) {fkey : FlowKey} (hfk : req.fkey = some fkey) :
    Judges (fcmAppNameFilter tags pick rule fkey) (rule.appnamePresent = true →
      rule.appnameOp.Holds (∃ ftag ∈ fkey.tags, InNames tags ftag.appName rule.appnames)) := by
  refine conditionFilter_judges fcmCheckAppOption_iff fun hp => ?_
  have hf := h.appname fkey hfk hp
  rw [fcmAppNameInSet]
  cases ht : fkey.tags with
  | nil => exact ⟨false, rfl, by simp⟩
  | cons ftag ftags =>
    rw [ht] at hf
    obtain ⟨members, hs⟩ := Option.isSome_iff_exists.mp (hf ftag mem_cons_self).isSome
    refine ⟨_, by rw [if_neg (cons_ne_nil _ _), hs, Option.map_some], ?_⟩
    rw [any_eq_true]
    refine exists_congr fun ftag => and_congr_right fun hft => ?_
    obtain ⟨members', hs', hif⟩ := (hf ftag hft).any hdistinct pick
    obtain rfl : members = members' := Option.some.inj (hs.symm.trans hs')
    exact hif

theorem pktcntAllow_iff (rule : FilterRule) (pkts : Option FilterStats) : pktcntAllow rule pkts = true ↔
      rule.pktcntOp = .mathNone ∨ ∃ p, pkts = some p ∧ rule.pktcntOp.Holds p.pktCnt rule.pktcnt := by
  cases pkts with
  | none => simp [pktcntAllow]
  | some p =>
    simp only [pktcntAllow, decide_eq_true_eq, Option.some.injEq, exists_eq_left']
    rw [fcmPktCntFilter]
    cases rule.pktcntOp <;> simp [MathOp.Holds]

theorem layerAllow_judges {α : Type} {layer : Option α} {filters : α → List (Option Allow)} {Ps : α → List Prop}
    (h : ∀ info, layer = some info → List.Forall₂ Judges (filters info) (Ps info)) :
    ∃ b, layerAllow layer filters = some b ∧ (b = true ↔ ∀ info, layer = some info → ∀ P ∈ Ps info, P) := by
  cases layer with
  | none => exact ⟨true, rfl, by simp⟩
  | some info =>
    obtain ⟨b, hb, hif⟩ := allowAll_judges (h info rfl) true
    refine ⟨b, hb, hif.trans ?_⟩
    simp [forall_eq']

include hdistinct in
theorem Fair.allowed (h : Fair tags req rule) (pick : Pick) :
    ∃ allow, allowed tags pick rule req = some allow ∧ (allow = true ↔ Matches tags req rule) := by
  obtain ⟨b₃, hb₃, hl3⟩ := layerAllow_judges fun l3 => h.l3 hdistinct pick
  obtain ⟨b₂, hb₂, hl2⟩ := layerAllow_judges fun l2 => h.l2 hdistinct pick
  obtain ⟨b₁, hb₁, ha⟩ := layerAllow_judges fun fkey hf => Forall₂.cons (h.app hdistinct pick hf) .nil
  refine ⟨_, by rw [Fcm.allowed, hb₃, hb₂, hb₁]; rfl, ?_⟩
  simp only [Bool.and_eq_true, hl3, hl2, ha, pktcntAllow_iff, forall_mem_cons, not_mem_nil, false_implies,
    implies_true, and_true]
  constructor
  · rintro ⟨⟨⟨h3, h2⟩, h1⟩, hp⟩
    exact ⟨fun l3 hl3 => (h3 l3 hl3).1, fun l3 hl3 => (h3 l3 hl3).2.1, fun l3 hl3 => (h3 l3 hl3).2.2.1,
      fun l3 hl3 => (h3 l3 hl3).2.2.2.1, fun l3 hl3 => (h3 l3 hl3).2.2.2.2, fun l2 hl2 => (h2 l2 hl2).1,
      fun l2 hl2 => (h2 l2 hl2).2.1, fun l2 hl2 => (h2 l2 hl2).2.2, h1, h.appTag, hp⟩
  · intro hm
    exact ⟨⟨⟨fun l3 hl3 => ⟨hm.srcIp l3 hl3, hm.dstIp l3 hl3, hm.srcPort l3 hl3, hm.dstPort l3 hl3, hm.proto l3 hl3⟩,
      fun l2 hl2 => ⟨hm.smac l2 hl2, hm.dmac l2 hl2, hm.vlanid l2 hl2⟩⟩, hm.appname⟩, hm.pktcnt⟩

/-! ## The loop -/

def firstAllowed (tags : List Tag) (pick : Pick) (req : FilterReq) :
    List (Option FilterRule) → Option (Option FilterRule)
  | [] => some none
  | none :: rules => firstAllowed tags pick req rules
  | some rule :: rules => do
    if ← allowed tags pick rule req then return some rule
    else firstAllowed tags pick req rules

/-! ## Rules judged right -/

section

variable (tags : List Tag) (pick : Pick) (req : FilterReq)

/-- No rule before the first that is let through or matches has a condition whose set is missing. That first rule is let
through, matches and includes; or it is let through wrongly but includes, as does the first rule after it that matches; or
it is missed and the first rule let through after it does what it would have done. -/
def Upright : List (Option FilterRule) → Prop
  | [] => True
  | none :: rules => Upright rules
  | some rule :: rules =>
    (allowed tags pick rule req = some true ∧ rule.action ≠ .excluding ∧
        (Matches tags req rule ∨ Included tags req rules)) ∨
      (allowed tags pick rule req = some false ∧ ¬ Matches tags req rule ∧ Upright rules) ∨
      (allowed tags pick rule req = some false ∧ Matches tags req rule ∧
        if rule.action = .excluding then firstAllowed tags pick req rules = some none
        else ∃ later, firstAllowed tags pick req rules = some (some later) ∧ later.action ≠ .excluding)

end

theorem upright_of_fair (hdistinct : ∀ tag ∈ tags, Distinct tag.values)
    (h : ∀ rule, some rule ∈ rules → Fair tags req rule ∧ rule.action ≠ .excluding) : Upright tags pick req rules := by
  induction rules with
  | nil => trivial
  | cons r rules ih =>
    have hr := ih fun rule hru => h rule (mem_cons_of_mem _ hru)
    cases r with
    | none => exact hr
    | some rule =>
      obtain ⟨hf, hin⟩ := h rule mem_cons_self
      obtain ⟨allow, ha, hif⟩ := hf.allowed hdistinct pick
      cases allow with
      | true => exact .inl ⟨ha, hin, .inl (hif.mp rfl)⟩
      | false => exact .inr (.inl ⟨ha, fun hm => Bool.false_ne_true (hif.mpr hm), hr⟩)

def oneRule (rule : FilterRule) : FilterTable := ⟨⟨(some rule :: List.replicate 59 none).toArray, rfl⟩⟩

def openRule (action : RuleAction) : FilterRule :=
  ⟨false, .opNone, none, false, .opNone, none, false, .opNone, none, false, .opNone, none, false, .opNone, none,
    false, .opNone, [], false, .opNone, [], false, .opNone, none, .mathNone, 0, false, .opNone, none,
    false, .opNone, none, action⟩

def webRule : FilterRule := { openRule .including with dstPortRulePresent := true, dstPortOp := .opIn, dstPort := [⟨80, 0⟩] }

def tcpRule : FilterRule := { openRule .including with protoRulePresent := true, protoOp := .opIn, proto := some [6] }

def macRule : FilterRule :=
  { openRule .including with smacRulePresent := true, smacOp := .opIn, smac := some ["aa:bb".toList] }

def emptyRule : FilterRule := { openRule .including with smacRulePresent := true, smacOp := .opIn }

def sshRequest (rule : FilterRule) : FilterReq :=
  ⟨some ⟨"aa".toList, "cc".toList, 0⟩, some ⟨"10.0.0.1".toList, "10.0.0.2".toList, 1024, 22, 17⟩, none,
    some (oneRule rule), none⟩

end OpenSync.Fcm
