import OpenSync.Tags

/-!
# Flow filters

The rules of `fcm_filter.c`. A rule has conditions on the layers of a request; those on a layer that the request does
not carry are skipped. The sets of a condition are pointers: a row whose set has no elements leaves the pointer `NULL`,
and the condition that is present reads through it. A result `none` stands for that.
-/

namespace OpenSync.Fcm

open Tags

/-! ## Tags named by members of a set -/

inductive TagType
  | notATag | tag | groupTag
  deriving DecidableEq

def tagGetType : Text → TagType
  | '$' :: c :: rest =>
    if c = '\x7b' ∧ rest.getLast? = some '\x7d' then .tag
    else if c = '[' ∧ rest.getLast? = some ']' then .groupTag
    else .notATag
  | _ => .notATag

def matchFlags : Text → Flags × Text
  | '@' :: rest => (flagDevice, rest)
  | '#' :: rest => (flagCloud, rest)
  | '*' :: rest => (flagLocal, rest)
  | t => (0, t)

def nameSize : Nat := 256

/-- `om_tag_in` -/
def tagIn (tags : List Tag) (pick : Pick) (value tagName : Text) : Bool :=
  let type := tagGetType tagName
  if type = .notATag then false
  else
    let (flags, tagS) := matchFlags (tagName.drop 2)
    let name := tagS.dropLast.take (nameSize - 1)
    match tagFindByName tags name (type = .groupTag) with
    | none => false
    | some tag =>
      match entryFindByValue pick tag.values value with
      | none => false
      | some e => passes flags e.flags

/-! ## Rules and requests -/

inductive Op
  | opNone | opIn | opOut
  deriving DecidableEq

inductive MathOp
  | mathNone | lt | leq | gt | geq | eq | neq
  deriving DecidableEq

inductive RuleAction
  | excluding | including | defaultIncluding
  deriving DecidableEq

inductive Allow
  | defaultFalse | defaultTrue | ruledFalse | ruledTrue
  deriving DecidableEq

structure IpPort where
  portMin : Nat
  portMax : Nat
  deriving DecidableEq

structure FilterRule where
  smacRulePresent : Bool
  smacOp : Op
  smac : Option (List Text)
  dmacRulePresent : Bool
  dmacOp : Op
  dmac : Option (List Text)
  vlanidRulePresent : Bool
  vlanidOp : Op
  vlanid : Option (List ℤ)
  srcIpRulePresent : Bool
  srcIpOp : Op
  srcIp : Option (List Text)
  dstIpRulePresent : Bool
  dstIpOp : Op
  dstIp : Option (List Text)
  srcPortRulePresent : Bool
  srcPortOp : Op
  srcPort : List IpPort
  dstPortRulePresent : Bool
  dstPortOp : Op
  dstPort : List IpPort
  protoRulePresent : Bool
  protoOp : Op
  proto : Option (List ℤ)
  pktcntOp : MathOp
  pktcnt : ℤ
  appnamePresent : Bool
  appnameOp : Op
  appnames : Option (List Text)
  appTagPresent : Bool
  appTagOp : Op
  appTags : Option (List Text)
  action : RuleAction
  deriving DecidableEq

def fcmMaxFilters : Nat := 60

structure FilterTable where
  lookupArray : Vector (Option FilterRule) fcmMaxFilters

structure L3Info where
  srcIp : Text
  dstIp : Text
  sport : Nat
  dport : Nat
  l4Proto : Nat

structure L2Info where
  srcMac : Text
  dstMac : Text
  vlanId : BitVec 32

structure FilterStats where
  pktCnt : ℤ

structure FlowTags where
  appName : Text
  tags : List Text

structure FlowKey where
  tags : List FlowTags

structure FilterReq where
  l2Info : Option L2Info
  l3Info : Option L3Info
  pkts : Option FilterStats
  table : Option FilterTable
  fkey : Option FlowKey

/-! ## Membership -/

section

variable (tags : List Tag) (pick : Pick)

/-- The value is compared with as many characters of the member as it has itself. -/
def findInTag (value schemaTag : Text) : Bool :=
  tagIn tags pick value schemaTag || value.isPrefixOf schemaTag

def fcmFindAppNamesInTag (appName schemaTag : Text) : Bool := findInTag tags pick appName schemaTag

def fcmFindIpAddrInTag (ipAddr schemaTag : Text) : Bool := findInTag tags pick ipAddr schemaTag

def fcmFindDeviceInTag (macS schemaTag : Text) : Bool := findInTag tags pick macS schemaTag

/-- Nothing is read of the set if the flow has no tags. -/
def fcmAppNameInSet (app : FilterRule) (fkey : FlowKey) : Option Bool :=
  if fkey.tags = [] then some false
  else app.appnames.map fun set =>
    fkey.tags.any fun ftag => set.any fun name => fcmFindAppNamesInTag tags pick ftag.appName name

def fcmSrcIpInSet (rule : FilterRule) (l3 : L3Info) : Option Bool :=
  rule.srcIp.map fun set => set.any (fcmFindIpAddrInTag tags pick l3.srcIp)

def fcmDstIpInSet (rule : FilterRule) (l3 : L3Info) : Option Bool :=
  rule.dstIp.map fun set => set.any (fcmFindIpAddrInTag tags pick l3.dstIp)

def fcmSmacInSet (rule : FilterRule) (l2 : L2Info) : Option Bool :=
  rule.smac.map fun set => set.any (fcmFindDeviceInTag tags pick l2.srcMac)

def fcmDmacInSet (rule : FilterRule) (l2 : L2Info) : Option Bool :=
  rule.dmac.map fun set => set.any (fcmFindDeviceInTag tags pick l2.dstMac)

end

def IpPort.holds (r : IpPort) (port : Nat) : Bool :=
  (r.portMax ≠ 0 && (r.portMin ≤ port && port ≤ r.portMax)) || r.portMin = port

def fcmSportInSet (rule : FilterRule) (l3 : L3Info) : Bool :=
  if rule.srcPort.any fun r => r.holds l3.sport then true else false

/-- The loop over the ports ends in `FCM_DEFAULT_TRUE`. -/
def fcmDportInSet (rule : FilterRule) (l3 : L3Info) : Bool :=
  if rule.dstPort.any fun r => r.holds l3.dport then true else true

/-- So does the loop over the protocols. -/
def fcmProtoInSet (rule : FilterRule) (l3 : L3Info) : Option Bool :=
  rule.proto.map fun set => if set.any fun p => p = l3.l4Proto then true else true

def fcmVlanidInSet (rule : FilterRule) (l2 : L2Info) : Option Bool :=
  rule.vlanid.map fun set => set.any fun v => v = l2.vlanId.toInt

/-! ## Conditions -/

def fcmCheckOption (option : Op) (present : Bool) : Allow :=
  if option = .opNone then .defaultTrue
  else if present ∧ option = .opOut then .ruledFalse
  else if ¬ present ∧ option = .opIn then .ruledFalse
  else .ruledTrue

def fcmCheckAppOption (option : Op) (present : Bool) : Allow :=
  if present ∧ option = .opOut then .ruledFalse
  else if ¬ present ∧ option = .opIn then .ruledFalse
  else .ruledTrue

/-- A condition that is not present is not evaluated. -/
def conditionFilter (rulePresent : Bool) (check : Bool → Allow) (inSet : Option Bool) : Option Allow :=
  if rulePresent then inSet.map check else some .defaultTrue

section

variable (tags : List Tag) (pick : Pick) (rule : FilterRule)

def fcmSrcIpFilter (l3 : L3Info) : Option Allow :=
  conditionFilter rule.srcIpRulePresent (fcmCheckOption rule.srcIpOp) (fcmSrcIpInSet tags pick rule l3)

def fcmDstIpFilter (l3 : L3Info) : Option Allow :=
  conditionFilter rule.dstIpRulePresent (fcmCheckOption rule.dstIpOp) (fcmDstIpInSet tags pick rule l3)

def fcmSportFilter (l3 : L3Info) : Option Allow :=
  conditionFilter rule.srcPortRulePresent (fcmCheckOption rule.srcPortOp) (some (fcmSportInSet rule l3))

def fcmDportFilter (l3 : L3Info) : Option Allow :=
  conditionFilter rule.dstPortRulePresent (fcmCheckOption rule.dstPortOp) (some (fcmDportInSet rule l3))

def fcmL4ProtoFilter (l3 : L3Info) : Option Allow :=
  conditionFilter rule.protoRulePresent (fcmCheckOption rule.protoOp) (fcmProtoInSet rule l3)

def fcmSmacsFilter (l2 : L2Info) : Option Allow :=
  conditionFilter rule.smacRulePresent (fcmCheckOption rule.smacOp) (fcmSmacInSet tags pick rule l2)

def fcmDmacsFilter (l2 : L2Info) : Option Allow :=
  conditionFilter rule.dmacRulePresent (fcmCheckOption rule.dmacOp) (fcmDmacInSet tags pick rule l2)

def fcmVlanidFilter (l2 : L2Info) : Option Allow :=
  conditionFilter rule.vlanidRulePresent (fcmCheckOption rule.vlanidOp) (fcmVlanidInSet rule l2)

def fcmAppNameFilter (fkey : FlowKey) : Option Allow :=
  conditionFilter rule.appnamePresent (fcmCheckAppOption rule.appnameOp) (fcmAppNameInSet tags pick rule fkey)

def fcmPktCntFilter (pkts : FilterStats) : Allow :=
  match rule.pktcntOp with
  | .mathNone => .defaultTrue
  | .leq => if pkts.pktCnt ≤ rule.pktcnt then .ruledTrue else .ruledFalse
  | .lt => if pkts.pktCnt < rule.pktcnt then .ruledTrue else .ruledFalse
  | .gt => if pkts.pktCnt > rule.pktcnt then .ruledTrue else .ruledFalse
  | .geq => if pkts.pktCnt ≥ rule.pktcnt then .ruledTrue else .ruledFalse
  | .eq => if pkts.pktCnt = rule.pktcnt then .ruledTrue else .ruledFalse
  | .neq => if pkts.pktCnt ≠ rule.pktcnt then .ruledTrue else .ruledFalse

def fcmActionFilter : Bool := rule.action = .defaultIncluding || rule.action = .including

/-! ## A rule, and all rules -/

/-- `allow &= (... == FCM_RULED_FALSE ? false : true)`, for the conditions of a layer one after the other. -/
def allowAll (filters : List (Option Allow)) : Option Bool :=
  filters.foldlM (fun allow filter => filter.map fun a => allow && a ≠ .ruledFalse) true

/-- Conditions on a layer that the request does not carry are skipped. -/
def layerAllow {α : Type} (layer : Option α) (filters : α → List (Option Allow)) : Option Bool :=
  match layer with
  | some info => allowAll (filters info)
  | none => some true

def pktcntAllow (pkts : Option FilterStats) : Bool :=
  match pkts with
  | some pkts => fcmPktCntFilter rule pkts ≠ .ruledFalse
  | none => rule.pktcntOp = .mathNone

def allowed (req : FilterReq) : Option Bool := do
  let l3 ← layerAllow req.l3Info fun l3 => [fcmSrcIpFilter tags pick rule l3, fcmDstIpFilter tags pick rule l3,
    fcmSportFilter rule l3, fcmDportFilter rule l3, fcmL4ProtoFilter rule l3]
  let l2 ← layerAllow req.l2Info fun l2 => [fcmSmacsFilter tags pick rule l2, fcmDmacsFilter tags pick rule l2,
    fcmVlanidFilter rule l2]
  let app ← layerAllow req.fkey fun fkey => [fcmAppNameFilter tags pick rule fkey]
  return l3 && l2 && app && pktcntAllow rule req.pkts

end

/-- Log severities, `LOG_SEVERITY_TRACE` being the last of the table. -/
abbrev Severity := Fin 10

def severityTrace : Severity := 9

section

variable (tags : List Tag) (pick : Pick) (severity : Severity) (req : FilterReq)

/-- The action of a rule is looked at while tracing only. -/
def applyLoop : Bool → List (Option FilterRule) → Option Bool
  | _, [] => some false
  | actionOp, none :: rules => applyLoop actionOp rules
  | actionOp, some rule :: rules => do
    let allow ← allowed tags pick rule req
    let actionOp := if severityTrace ≤ severity then fcmActionFilter rule else actionOp
    if allow then return allow && actionOp
    else applyLoop actionOp rules

def fcmApplyFilter : Option Bool :=
  match req.table with
  | none => some true
  | some table => applyLoop tags pick severity req true table.lookupArray.toList

end

end OpenSync.Fcm
