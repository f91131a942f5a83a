import OpenSync.GkcCache

/-!
# Flushing the gatekeeper cache

`gatekeeper_cache_flush.c` removes the entries that a policy names. Its comparators are its own: a name is compared
with a listed value over the length of the name, the categories are asked for the confidence level, and the listed
addresses go to two sets first. A rule for devices alone removes the device with all its trees, also where there is a
rule for risks or categories.
-/

namespace OpenSync.Gkc
open List Function

open Fsm Fsm.Policy

structure FlushRules extends Rules where
  app : Option (SetOp × List Name)

structure Host where
  libc : Libc
  inetPton4 : Name → Bool
  inetPton6 : Name → Bool

/-! ## Comparators -/

def strncmpEq (n : Nat) (a b : Name) : Bool := a.take n = b.take n

def hostnameCmp (a b : Name) : Bool := strncmpEq a.length a b

/-- `str_endswith`. -/
def hostnameCmpSfr (hostname suffix : Name) : Bool :=
  if hostname.length < suffix.length then false else hostname.drop (hostname.length - suffix.length) = suffix

/-- `str_startswith`. -/
def hostnameCmpSfl (hostname start : Name) : Bool := strncmpEq start.length hostname start

def hostnameCmpWild (libc : Libc) (hostname wildcard : Name) : Bool := fsmPolicyWildmatch libc wildcard hostname

def getHostnameCmp (libc : Libc) : FqdnOp → Name → Name → Bool
  | .isIn | .out => hostnameCmp
  | .sfrIn | .sfrOut => hostnameCmpSfr
  | .sflIn | .sflOut => hostnameCmpSfl
  | .wildIn | .wildOut => hostnameCmpWild libc
  | .isTrue => fun _ _ => true

def appCmp (a b : Name) : Bool := strncmpEq a.length a b

def ipCmp (a b : Name) : Bool := strncmpEq a.length a b

def riskCmp : Option (RiskOp × Int) → Int → Bool
  | none, _ => true
  | some (.eq, b), a => a = b
  | some (.neq, b), a => a ≠ b
  | some (.lt, b), a => a < b
  | some (.gt, b), a => a > b
  | some (.lte, b), a => a ≤ b
  | some (.gte, b), a => a ≥ b

def catCmp : Option (SetOp × List Int) → Int → Bool
  | none, _ => true
  | some (.isIn, s), c => decide (c ∈ s)
  | some (.out, s), c => !decide (c ∈ s)

def scan {α : Type} (outSet : Bool) (cmp : α → Name → Bool) (a : α) (values : List Name) : Bool :=
  if values.any (cmp a) then !outSet else outSet

def FqdnOp.outSet (op : FqdnOp) : Bool := op = .out || op = .sfrOut || op = .sflOut || op = .wildOut

/-! ## The trees of a device -/

variable (host : Host) (rules : FlushRules)

def riskOk (e : AttrCache) : Bool := riskCmp rules.risk (toInt e.confidenceLevel)

/-- The categories are compared with the confidence level. -/
def catOk (e : AttrCache) : Bool := catCmp rules.cat (toInt e.confidenceLevel)

def hostnameDoomed (op : FqdnOp) (fqdns : List Name) (e : AttrCache) : Bool :=
  riskOk rules e && catOk rules e && scan (FqdnOp.outSet op) (getHostnameCmp host.libc op) e.name fqdns

def appDoomed (op : SetOp) (apps : List Name) (e : AttrCache) : Bool :=
  riskOk rules e && scan (op = .out) appCmp e.name apps

def ipDoomed (op : SetOp) (ipaddrs : List Name) (e : AttrCache) : Bool :=
  riskOk rules e && catOk rules e && scan (op = .out) ipCmp e.name ipaddrs

def flushTree (c : AttrClass) (doomed : AttrCache → Bool) (d : PerDevice) : Nat × PerDevice :=
  ((d.attrs c).countP doomed, setAttrs d c ((d.attrs c).filter fun e => !doomed e))

def gkcFlushHostname (op : FqdnOp) (fqdns : List Name) (d : PerDevice) : Nat × PerDevice :=
  flushTree .hostname (hostnameDoomed host rules op fqdns) d

def gkcFlushApp (op : SetOp) (apps : List Name) (d : PerDevice) : Nat × PerDevice :=
  flushTree .app (appDoomed rules op apps) d

def gkcFlushIpv4 (op : SetOp) (ipaddrs : List Name) (d : PerDevice) : Nat × PerDevice :=
  flushTree .ipv4 (ipDoomed rules op ipaddrs) d

def gkcFlushIpv6 (op : SetOp) (ipaddrs : List Name) (d : PerDevice) : Nat × PerDevice :=
  flushTree .ipv6 (ipDoomed rules op ipaddrs) d

/-- The listed values that are addresses of version 6, looked at after those of version 4. -/
def isIpv6 (v : Name) : Bool := !host.inetPton4 v && host.inetPton6 v

def gkcFlushIp (op : SetOp) (ipaddrs : List Name) (d : PerDevice) : Nat × PerDevice :=
  let r4 := gkcFlushIpv4 rules op (ipaddrs.filter host.inetPton4) d
  let r6 := gkcFlushIpv6 rules op (ipaddrs.filter (isIpv6 host)) r4.2
  (r4.1 + r6.1, r6.2)

def whenPresent {α : Type} (rule : Option α) (step : α → PerDevice → Nat × PerDevice) (r : Nat × PerDevice) :
    Nat × PerDevice :=
  match rule with
  | none => r
  | some x => (r.1 + (step x r.2).1, (step x r.2).2)

def gkcFlushPerDevice (d : PerDevice) : Nat × PerDevice :=
  whenPresent rules.ip (fun r => gkcFlushIp host rules r.1 r.2)
    (whenPresent rules.app (fun r => gkcFlushApp rules r.1 r.2)
      (whenPresent rules.fqdn (fun r => gkcFlushHostname host rules r.1 r.2) (0, d)))

/-! ## All devices -/

def xdigit (c : Char) : Option UInt8 :=
  if '0' ≤ c ∧ c ≤ '9' then some (c.toNat - '0'.toNat).toUInt8
  else if 'a' ≤ c ∧ c ≤ 'f' then some (c.toNat - 'a'.toNat + 10).toUInt8
  else if 'A' ≤ c ∧ c ≤ 'F' then some (c.toNat - 'A'.toNat + 10).toUInt8
  else none

def macLoop : List Char → Option Mac
  | [] => some []
  | [_] => none
  | [a, b] => do return [(← xdigit a) * 16 + (← xdigit b)]
  | a :: b :: sep :: rest => do
    let v := (← xdigit a) * 16 + (← xdigit b)
    if sep = ':' then return v :: (← macLoop rest) else none

/-- `str2os_mac_ref`. -/
def str2osMac (strmac : Name) : Option Mac := if strmac.length = 17 then macLoop strmac else none

def macCmp (mac : Mac) (v : Name) : Bool := str2osMac v = some mac

def selected (mac : Mac) : Bool :=
  match rules.mac with
  | none => true
  | some (op, macs) => scan (op = .out) macCmp mac macs

def hasExtraRules : Bool := rules.fqdn.isSome || rules.ip.isSome || rules.app.isSome

/-- A device goes with its trees where a rule selects it and nothing is said of its entries. -/
def wholeDevice : Bool := rules.mac.isSome && !hasExtraRules rules

/-- The number of entries removed, the manager's count and the devices. -/
def flushLoop : List PerDevice → Int → Int × Int × List PerDevice
  | [], count => (0, count, [])
  | d :: ds, count =>
    if selected rules d.deviceMac then
      if wholeDevice rules then
        let after := count - (items d).length
        let r := flushLoop ds after
        (count - after + r.1, r.2)
      else
        let n := gkcFlushPerDevice host rules d
        let r := flushLoop ds count
        (n.1 + r.1, r.2.1, n.2 :: r.2.2)
    else
      let r := flushLoop ds count
      (r.1, r.2.1, d :: r.2.2)

def gkcFlushRules (m : Mgr) : Int × Mgr :=
  let r := flushLoop host rules m.devices m.totalEntryCount
  (r.1, ⟨r.2.1, r.2.2⟩)

/-! ## What a flush removes -/

def itemDoomed : Item → Bool
  | .attr .hostname e => rules.fqdn.any fun r => hostnameDoomed host rules r.1 r.2 e
  | .attr .app e => rules.app.any fun r => appDoomed rules r.1 r.2 e
  | .attr .ipv4 e => rules.ip.any fun r => ipDoomed rules r.1 (r.2.filter host.inetPton4) e
  | .attr .ipv6 e => rules.ip.any fun r => ipDoomed rules r.1 (r.2.filter (isIpv6 host)) e
  | _ => false

def doomed (x : Mac × Item) : Bool := selected rules x.1 && (wholeDevice rules || itemDoomed host rules x.2)

theorem gkcFlushPerDevice_fields (d : PerDevice) :
    (gkcFlushPerDevice host rules d).1 = (items d).countP (itemDoomed host rules) ∧
      (gkcFlushPerDevice host rules d).2 = { d with attrs := (gkcFlushPerDevice host rules d).2.attrs } ∧
      ∀ c, (gkcFlushPerDevice host rules d).2.attrs c = (d.attrs c).filter fun e => !itemDoomed host rules (.attr c e) := by
  have hc : (items d).countP (itemDoomed host rules) =
      (d.attrs .hostname).countP (fun e => itemDoomed host rules (.attr .hostname e)) +
        (d.attrs .app).countP (fun e => itemDoomed host rules (.attr .app e)) +
        ((d.attrs .ipv4).countP (fun e => itemDoomed host rules (.attr .ipv4 e)) +
          (d.attrs .ipv6).countP (fun e => itemDoomed host rules (.attr .ipv6 e))) := by
    simp [items, AttrClass.all, countP_append, countP_map, comp_def, itemDoomed]
    omega
  rw [hc]
  rcases hf : rules.fqdn with _ | ⟨fop, fqdns⟩ <;> rcases ha : rules.app with _ | ⟨aop, apps⟩ <;>
    rcases hi : rules.ip with _ | ⟨iop, ips⟩ <;> refine ⟨?_, ?_, fun c => ?_⟩ <;> try cases c
  all_goals
    simp [gkcFlushPerDevice, whenPresent, gkcFlushHostname, gkcFlushApp, gkcFlushIp, gkcFlushIpv4, gkcFlushIpv6,
      flushTree, setAttrs, itemDoomed, hf, ha, hi]

theorem gkcFlushPerDevice_eq (d : PerDevice) :
    (gkcFlushPerDevice host rules d).2 = sweepDevice (itemDoomed host rules) d := by
  obtain ⟨-, hr, ha⟩ := gkcFlushPerDevice_fields host rules d
  have hf : ∀ w, (d.flows w).filter (fun f => !itemDoomed host rules (.flow w f)) = d.flows w := fun w =>
    filter_eq_self.mpr fun f _ => rfl
  rw [hr, sweepDevice]
  simp [hf, funext ha]

theorem flushLoop_eq (ds : List PerDevice) (count : Int) :
    let l := ds.flatMap deviceItems
    let r := flushLoop host rules ds count
    r.1 = l.countP (doomed host rules) ∧
      r.2.1 = count - (if wholeDevice rules then l.countP (doomed host rules) else 0 : Nat) ∧
      r.2.2.flatMap deviceItems = l.filter fun x => !doomed host rules x := by
  induction ds generalizing count with
  | nil => simp [flushLoop]
  | cons d ds ih =>
    have hit : ∀ x, doomed host rules (d.deviceMac, x) =
        (selected rules d.deviceMac && (wholeDevice rules || itemDoomed host rules x)) := fun _ => rfl
    by_cases hs : selected rules d.deviceMac
    · by_cases hw : wholeDevice rules
      · obtain ⟨h1, h2, h3⟩ := ih (count - (items d).length)
        have ha : ∀ x, doomed host rules (d.deviceMac, x) = true := fun x => by rw [hit, hs, hw]; rfl
        simp only [flushLoop, if_pos hs, hw, if_true, h1, h2, h3, flatMap_cons, deviceItems,
          countP_append, countP_map, filter_append, filter_map, comp_def, ha]
        simp
        omega
      · obtain ⟨h1, h2, h3⟩ := ih count
        have ho : ∀ x, doomed host rules (d.deviceMac, x) = itemDoomed host rules x := fun x => by
          rw [hit, hs, Bool.eq_false_of_not_eq_true hw, Bool.true_and, Bool.false_or]
        have hd : deviceItems (gkcFlushPerDevice host rules d).2 =
            (deviceItems d).filter fun x => !doomed host rules x := by
          rw [gkcFlushPerDevice_eq, deviceItems, items_sweepDevice, deviceItems, filter_map]
          simp only [comp_def, ho]
          rfl
        have hn : (deviceItems d).countP (doomed host rules) = (items d).countP (itemDoomed host rules) := by
          simp [deviceItems, countP_map, comp_def, ho]
        simp only [flushLoop, if_pos hs, hw, h1, h2, hn, (gkcFlushPerDevice_fields host rules d).1, flatMap_cons,
          countP_append, filter_append]
        simp [hd, h3]
    · obtain ⟨h1, h2, h3⟩ := ih count
      have hno : ∀ x, doomed host rules (d.deviceMac, x) = false := fun x => by
        rw [hit, Bool.eq_false_of_not_eq_true hs, Bool.false_and]
      simp only [flushLoop, if_neg hs, h1, h2, h3, flatMap_cons, deviceItems,
          countP_append, countP_map, filter_append, filter_map, comp_def, hno]
      simp

theorem gkcFlushRules_eq (m : Mgr) : (gkcFlushRules host rules m).1 = m.stored.countP (doomed host rules) ∧
      (gkcFlushRules host rules m).2.totalEntryCount =
        m.totalEntryCount - (if wholeDevice rules then m.stored.countP (doomed host rules) else 0 : Nat) ∧
      (gkcFlushRules host rules m).2.stored = m.stored.filter fun x => !doomed host rules x :=
  flushLoop_eq host rules m.devices m.totalEntryCount

/-! ## What the rules say -/

def fqdnHolds (op : FqdnOp) (name v : Name) : Prop :=
  match op with
  | .isIn | .out => name = v
  | .sfrIn | .sfrOut => v <:+ name
  | .sflIn | .sflOut => v <+: name
  | .wildIn | .wildOut => fsmPolicyWildmatch host.libc v name = true
  | .isTrue => True

def Matches (negated : Bool) (holds : Name → Prop) (values : List Name) : Prop :=
  if negated then ∀ v ∈ values, ¬ holds v else ∃ v ∈ values, holds v

def CategoryOk (e : AttrCache) : Prop := catCmp rules.cat (toInt e.categoryId) = true

def onlyMac : Bool :=
  rules.mac.isSome && !hasExtraRules rules && rules.cat.isNone && rules.risk.isNone

def Named : Item → Prop
  | .attr .hostname e => ∃ op fqdns, rules.fqdn = some (op, fqdns) ∧ riskOk rules e = true ∧ CategoryOk rules e ∧
      Matches (FqdnOp.outSet op) (fqdnHolds host op e.name) fqdns
  | .attr .app e => ∃ op apps, rules.app = some (op, apps) ∧ riskOk rules e = true ∧ Matches (op = .out) (e.name = ·) apps
  | .attr .ipv4 e | .attr .ipv6 e => ∃ op ips, rules.ip = some (op, ips) ∧ riskOk rules e = true ∧ CategoryOk rules e ∧
      Matches (op = .out) (e.name = ·) ips
  | _ => False

def Wanted (x : Mac × Item) : Prop := selected rules x.1 = true ∧ (onlyMac rules = true ∨ Named host rules x.2)

open scoped Classical in
/-- The flush removes what the rules want, leaves the rest as it is and returns how much it removed. -/
structure Flushed (m : Mgr) (r : Int × Mgr) : Prop where
  kept : r.2.stored = m.stored.filter fun x => ¬ Wanted host rules x
  number : r.1 = m.stored.countP fun x => Wanted host rules x

/-! ## Where they are read right -/

/-- The name is among the listed values if it is the start of one of those that are looked at. -/
def NameRead (looked : Name → Bool) (name : Name) (values : List Name) : Prop :=
  name ∈ values ↔ ∃ v ∈ values, looked v = true ∧ name <+: v

/-- Category and name are read right, or the entry is outside of the rules either way. -/
def Alike (e : AttrCache) (read : Prop) (negated : Bool) (cmp : Name → Name → Bool) (looked : List Name)
    (holds : Name → Prop) (values : List Name) : Prop :=
  (catOk rules e = true ↔ CategoryOk rules e) ∧ read ∨
    ¬ (catOk rules e = true ∧ scan negated cmp e.name looked = true) ∧
      ¬ (CategoryOk rules e ∧ Matches negated holds values)

def FairItem : Item → Prop
  | .attr .hostname e => ∀ op fqdns, rules.fqdn = some (op, fqdns) → riskOk rules e = true →
      Alike rules e (op = .isIn ∨ op = .out → NameRead (fun _ => true) e.name fqdns) (FqdnOp.outSet op)
        (getHostnameCmp host.libc op) fqdns (fqdnHolds host op e.name) fqdns
  | .attr .app e => ∀ op apps, rules.app = some (op, apps) → riskOk rules e = true →
      NameRead (fun _ => true) e.name apps
  | .attr .ipv4 e => ∀ op ips, rules.ip = some (op, ips) → riskOk rules e = true →
      Alike rules e (NameRead host.inetPton4 e.name ips) (op = .out) ipCmp (ips.filter host.inetPton4) (e.name = ·) ips
  | .attr .ipv6 e => ∀ op ips, rules.ip = some (op, ips) → riskOk rules e = true →
      Alike rules e (NameRead (isIpv6 host) e.name ips) (op = .out) ipCmp (ips.filter (isIpv6 host)) (e.name = ·) ips
  | _ => True

/-- On a selected device: rules for risks or categories do not come alone, and the entries are read right. -/
def Fair (x : Mac × Item) : Prop :=
  selected rules x.1 = true →
    if wholeDevice rules = true then rules.cat = none ∧ rules.risk = none else FairItem host rules x.2

variable {host rules} {negated : Bool} {cmp : Name → Name → Bool}

theorem scan_iff {name : Name} {values : List Name} :
    scan negated cmp name values = true ↔ Matches negated (fun v => cmp name v = true) values := by
  unfold scan Matches
  cases negated <;> simp

theorem matches_congr {P Q : Name → Prop} {l l' : List Name} :
    (Matches negated P l ↔ Matches negated Q l') ↔ ((∃ v ∈ l, P v) ↔ ∃ v ∈ l', Q v) := by
  have hn : ∀ (P : Name → Prop) (l : List Name), (∀ v ∈ l, ¬ P v) ↔ ¬ ∃ v ∈ l, P v := fun P l => by simp
  unfold Matches
  cases negated with
  | false => simp only [Bool.false_eq_true, if_false]
  | true => simp only [if_true, hn, not_iff_not]

theorem strncmpEq_length {a b : Name} : strncmpEq a.length a b = true ↔ a <+: b := by
  rw [strncmpEq, decide_eq_true_eq, take_length, prefix_iff_eq_take]

theorem hostnameCmpSfr_iff {name suffix : Name} : hostnameCmpSfr name suffix = true ↔ suffix <:+ name := by
  unfold hostnameCmpSfr
  split
  · next h =>
    simp only [Bool.false_eq_true, false_iff]
    exact fun hs => absurd hs.length_le (by omega)
  · rw [decide_eq_true_eq, eq_comm, ← suffix_iff_eq_drop]

theorem hostnameCmpSfl_iff {name start : Name} : hostnameCmpSfl name start = true ↔ start <+: name := by
  rw [hostnameCmpSfl, strncmpEq, decide_eq_true_eq, take_length, eq_comm, ← prefix_iff_eq_take]

theorem scan_iff_matches_eq (negated : Bool) (name : Name) (values : List Name) (looked : Name → Bool) :
    (scan negated (fun a b => strncmpEq a.length a b) name (values.filter looked) = true ↔
      Matches negated (name = ·) values) ↔ NameRead looked name values := by
  rw [scan_iff, matches_congr, NameRead]
  simp only [strncmpEq_length, mem_filter, exists_eq_right', and_assoc]
  exact iff_comm

theorem getHostnameCmp_iff {op : FqdnOp} (hop : ¬ (op = .isIn ∨ op = .out)) {name v : Name} :
    getHostnameCmp host.libc op name v = true ↔ fqdnHolds host op name v := by
  cases op with
  | isIn | out => simp at hop
  | sfrIn | sfrOut => exact hostnameCmpSfr_iff
  | sflIn | sflOut => exact hostnameCmpSfl_iff
  | wildIn | wildOut => exact Iff.rfl
  | isTrue => simp [getHostnameCmp, fqdnHolds]

theorem scan_iff_matches_fqdn {op : FqdnOp} {name : Name} {fqdns : List Name} :
    (scan (FqdnOp.outSet op) (getHostnameCmp host.libc op) name fqdns = true ↔
      Matches (FqdnOp.outSet op) (fqdnHolds host op name) fqdns) ↔
    (op = .isIn ∨ op = .out → NameRead (fun _ => true) name fqdns) := by
  by_cases hop : op = .isIn ∨ op = .out
  · have hex := scan_iff_matches_eq (FqdnOp.outSet op) name fqdns fun _ => true
    rw [filter_true] at hex
    simp only [hop, true_imp_iff]
    rcases hop with rfl | rfl <;> exact hex
  · simp [hop, scan_iff, getHostnameCmp_iff hop]

theorem and_iff_and_iff {a b c d : Prop} : (a ∧ b ↔ c ∧ d) ↔ (a ↔ c) ∧ (b ↔ d) ∨ ¬ (a ∧ b) ∧ ¬ (c ∧ d) := by
  tauto

theorem alike_iff {e : AttrCache} {read : Prop} {looked : List Name} {holds : Name → Prop} {values : List Name}
    (h : (scan negated cmp e.name looked = true ↔ Matches negated holds values) ↔ read) :
    ((catOk rules e = true ∧ scan negated cmp e.name looked = true) ↔
      (CategoryOk rules e ∧ Matches negated holds values)) ↔ Alike rules e read negated cmp looked holds values := by
  rw [Alike, ← h]
  exact and_iff_and_iff

theorem ruled_iff {β : Type} {rule : Option (β × List Name)} {risk : Prop} (taken : β → List Name → Bool)
    {named fair : β → List Name → Prop}
    (h : ∀ op values, (taken op values = true ↔ risk ∧ named op values) ↔ (risk → fair op values)) :
    ((rule.any fun r => taken r.1 r.2) = true ↔ ∃ op values, rule = some (op, values) ∧ risk ∧ named op values) ↔
      ∀ op values, rule = some (op, values) → risk → fair op values := by
  rcases rule with _ | ⟨op, values⟩
  · simp
  have hex : (∃ op' values', some (op, values) = some (op', values') ∧ risk ∧ named op' values') ↔
      risk ∧ named op values := by simp
  rw [hex, Option.any_some, h op values]
  refine ⟨fun hf _ _ heq => ?_, fun hf => hf op values rfl⟩
  obtain ⟨rfl, rfl⟩ := Prod.mk.inj (Option.some.inj heq)
  exact hf

theorem ipDoomed_iff (looked : Name → Bool) (op : SetOp) (ips : List Name) (e : AttrCache) :
    (ipDoomed rules op (ips.filter looked) e = true ↔
        riskOk rules e = true ∧ CategoryOk rules e ∧ Matches (op = .out) (e.name = ·) ips) ↔
      (riskOk rules e = true →
        Alike rules e (NameRead looked e.name ips) (op = .out) ipCmp (ips.filter looked) (e.name = ·) ips) := by
  have hr : (scan (op = .out) ipCmp e.name (ips.filter looked) = true ↔ Matches (op = .out) (e.name = ·) ips) ↔
      NameRead looked e.name ips := scan_iff_matches_eq _ _ _ looked
  rw [← alike_iff hr, ← and_congr_right_iff]
  simp [ipDoomed, and_assoc]

theorem itemDoomed_iff_named (x : Item) :
    (itemDoomed host rules x = true ↔ Named host rules x) ↔ FairItem host rules x := by
  rcases x with ⟨c, e⟩ | ⟨w, f⟩
  · cases c with
    | hostname =>
      refine ruled_iff (fun op fqdns => hostnameDoomed host rules op fqdns e) fun op fqdns => ?_
      rw [← alike_iff scan_iff_matches_fqdn, ← and_congr_right_iff]
      simp [hostnameDoomed, and_assoc]
    | url => simp [itemDoomed, Named, FairItem]
    | ipv4 => exact ruled_iff _ fun op ips => ipDoomed_iff host.inetPton4 op ips e
    | ipv6 => exact ruled_iff _ fun op ips => ipDoomed_iff (isIpv6 host) op ips e
    | app =>
      refine ruled_iff (fun op apps => appDoomed rules op apps e) fun op apps => ?_
      have hr : (scan (op = .out) appCmp e.name apps = true ↔ Matches (op = .out) (e.name = ·) apps) ↔
          NameRead (fun _ => true) e.name apps := by
        have h := scan_iff_matches_eq (op = .out) e.name apps fun _ => true
        rwa [filter_true] at h
      rw [← hr, ← and_congr_right_iff]
      simp [appDoomed]
  · simp [itemDoomed, Named, FairItem]

theorem doomed_iff_wanted (x : Mac × Item) : (doomed host rules x = true ↔ Wanted host rules x) ↔ Fair host rules x := by
  unfold doomed Wanted Fair
  by_cases hs : selected rules x.1 = true
  · by_cases hw : wholeDevice rules = true
    · have hex : hasExtraRules rules = false := by
        simp only [wholeDevice, Bool.and_eq_true, Bool.not_eq_true'] at hw
        exact hw.2
      have hn : ¬ Named host rules x.2 := by
        simp only [hasExtraRules, Bool.or_eq_false_iff, Option.isSome_eq_false_iff, Option.isNone_iff_eq_none] at hex
        obtain ⟨⟨hf, hi⟩, ha⟩ := hex
        rcases x with ⟨mac, ⟨c, e⟩ | ⟨w, f⟩⟩
        · cases c <;> simp [Named, hf, hi, ha]
        · exact id
      have ho : onlyMac rules = true ↔ rules.cat = none ∧ rules.risk = none := by
        rw [onlyMac, ← wholeDevice, hw, Bool.true_and, Bool.and_eq_true, Option.isNone_iff_eq_none,
          Option.isNone_iff_eq_none]
      simp [hs, hw, hn, ho]
    · have ho : onlyMac rules = false := by
        rw [onlyMac, ← wholeDevice, Bool.eq_false_of_not_eq_true hw, Bool.false_and, Bool.false_and]
      simp [hs, hw, ho, itemDoomed_iff_named]
  · simp [hs]

/-- The cache is flushed as the rules say exactly if all that is stored is read right. -/
theorem flush_agrees_iff (host : Host) (rules : FlushRules) (m : Mgr) :
    Flushed host rules m (gkcFlushRules host rules m) ↔ ∀ x ∈ m.stored, Fair host rules x := by
  classical
  obtain ⟨hn, -, hs⟩ := gkcFlushRules_eq host rules m
  simp only [← doomed_iff_wanted]
  constructor
  · intro h x hx
    have hif : x ∈ m.stored.filter (fun x => decide (¬ Wanted host rules x)) ↔
        x ∈ m.stored.filter fun x => !doomed host rules x := by rw [← h.kept, hs]
    simp only [mem_filter, hx, true_and, decide_eq_true_eq, Bool.not_eq_true'] at hif
    rw [← Bool.not_eq_false, ← hif, not_not]
  · intro h
    constructor
    · rw [hs]
      refine filter_congr fun x hx => ?_
      rw [Bool.eq_iff_iff, Bool.not_eq_true', decide_eq_true_eq, ← h x hx, Bool.not_eq_true]
    · rw [hn]
      congr 1
      refine countP_congr fun x hx => ?_
      rw [h x hx, decide_eq_true_eq]

def shortName : AttrEntry :=
  ⟨[2, 0, 0, 0, 0, 1], .fqdn, "plume.co".toList, 60, fsmAllow, directionOutbound, none, 4, 1, 0, none, 0⟩

def namesCached : Mgr := (gkcAddAttributeEntry 100 0 shortName Mgr.start).2

def longNameRule : FlushRules := ⟨⟨none, some (.isIn, ["plume.com".toList]), none, none, none⟩, none⟩

def plainHost : Host := ⟨⟨fun _ _ => false, id⟩, fun _ => false, fun _ => false⟩

/-- A name that is the start of a listed one is flushed with it. -/
theorem start_of_name_flushed :
    ¬ Flushed plainHost longNameRule namesCached (gkcFlushRules plainHost longNameRule namesCached) := by
  intro h
  have hno : ∀ x ∈ namesCached.stored, ¬ Wanted plainHost longNameRule x := by
    have hs : namesCached.stored = [([2, 0, 0, 0, 0, 1], .attr .hostname (gkcNewAttrEntry 0 shortName))] := by
      decide +kernel
    rintro x hx ⟨-, ho | hna⟩
    · exact nomatch ho
    · rw [mem_singleton.mp hx] at hna
      obtain ⟨op, fqdns, heq, -, -, hm⟩ := hna
      obtain ⟨rfl, rfl⟩ := Prod.mk.inj (Option.some.inj heq)
      obtain ⟨v, hv, hn⟩ := hm
      rw [mem_singleton.mp hv] at hn
      exact absurd (congrArg length hn) (by decide +kernel)
  have hk : (gkcFlushRules plainHost longNameRule namesCached).2.stored = namesCached.stored := by
    rw [h.kept, filter_eq_self]
    simpa using fun mac item hx => hno (mac, item) hx
  revert hk
  decide +kernel

end OpenSync.Gkc
