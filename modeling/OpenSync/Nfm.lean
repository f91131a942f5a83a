import OpenSync.NfmChain
import OpenSync.TemplateWalk

/-!
# The firewall manager

`nfm_rule.c`, `nfm_trule.c` and the handler of `nfm_ovsdb.c`: the rows of `Netfilter` are kept in two registries, one
for plain rules and one for templates, with what each entry has taken from the firewall layer. A row that fails is
kept all the same, so that it can be taken back later.
-/

namespace OpenSync.Nfm

open Keyed
open Osfw (Family Table NfRule strscpy)
open Tags Product Template

/-! ## References to chains -/

inductive Ref
  | chain4 | target4 | chain6 | target6
  deriving DecidableEq

def Ref.family : Ref → Family
  | .chain4 | .target4 => .inet
  | .chain6 | .target6 => .inet6

def refKey (conf : Conf) (r : Ref) : ChainKey :=
  (r.family, conf.table, match r with
    | .chain4 | .chain6 => conf.chain
    | .target4 | .target6 => conf.target)

abbrev Flags := Ref → Bool

def noFlags : Flags := fun _ => false

def wanted (conf : Conf) : List Ref :=
  (if nfmOsfwIsInet4 conf.protocol then [.chain4, .target4] else []) ++
    (if nfmOsfwIsInet6 conf.protocol then [.chain6, .target6] else [])

def putOrder : List Ref := [.target4, .chain4, .target6, .chain6]

variable {σ : Type}

def getRef (fw : Firewall σ) (conf : Conf) (s : Chains σ × Flags) (r : Ref) : Bool × Chains σ × Flags :=
  let got := nfmChainGetRef fw s.1 (refKey conf r)
  (got.1, got.2, if got.1 then Function.update s.2 r true else s.2)

/-- `nfm_rule_get_ref_chain` and `nfm_trule_get_ref_chain`. -/
def getRefChain (fw : Firewall σ) (conf : Conf) (s : Chains σ) : Bool × Chains σ × Flags :=
  tryAll (getRef fw conf) (wanted conf) (s, noFlags)

def putRef (fw : Firewall σ) (conf : Conf) (s : Chains σ × Flags) (r : Ref) : Bool × Chains σ × Flags :=
  if s.2 r then
    let put := nfmChainPutRef fw s.1 (refKey conf r)
    (put.1, put.2, if put.1 then Function.update s.2 r false else s.2)
  else (true, s)

def putRefs (fw : Firewall σ) (conf : Conf) (s : Chains σ × Flags) : Bool × Chains σ × Flags :=
  tryAll (putRef fw conf) putOrder s

/-! ## Registries -/

structure NfmRule where
  conf : Conf
  flags : Flags
  applied : Bool

structure NfmTrule where
  conf : Conf
  flags : Flags
  tags : List Entry

def NfmRule.name (self : NfmRule) : Text := self.conf.name

def NfmTrule.name (self : NfmTrule) : Text := self.conf.name

structure Nfm (σ : Type) where
  chains : Chains σ
  rules : List NfmRule
  trules : List NfmTrule

/-! ## Plain rules -/

/-- A rule that cannot be applied is kept without its flag. -/
def nfmRuleSet (fw : Firewall σ) (s : Chains σ) (conf : Conf) : NfmRule × Chains σ :=
  if conf.enable then
    let refs := getRefChain fw conf s
    if refs.1 then
      let added := nfmOsfwAddRule fw refs.2.1.fw conf
      (⟨conf, refs.2.2, added.1⟩, { refs.2.1 with fw := added.2 })
    else (⟨conf, refs.2.2, false⟩, refs.2.1)
  else (⟨conf, noFlags, false⟩, s)

def nfmRuleUnset (fw : Firewall σ) (s : Chains σ) (self : NfmRule) : Bool × NfmRule × Chains σ :=
  let deleted := if self.applied then nfmOsfwDelRule fw s.fw self.conf else (true, s.fw)
  if !deleted.1 then (false, self, { s with fw := deleted.2 })
  else
    let put := putRefs fw self.conf ({ s with fw := deleted.2 }, self.flags)
    (put.1, ⟨self.conf, put.2.2, false⟩, put.2.1)

def nfmRuleNew (fw : Firewall σ) (n : Nfm σ) (conf : Conf) : Bool × Nfm σ :=
  if (find NfmRule.name conf.name n.rules).isSome then (false, n)
  else
    let set := nfmRuleSet fw n.chains conf
    (true, { n with chains := set.2, rules := insert NfmRule.name strLt set.1 n.rules })

/-- An entry that cannot be unset stays. -/
def nfmRuleDel (fw : Firewall σ) (n : Nfm σ) (conf : Conf) : Bool × Nfm σ :=
  match find NfmRule.name conf.name n.rules with
  | none => (false, n)
  | some self =>
    let unset := nfmRuleUnset fw n.chains self
    if unset.1 then (true, { n with chains := unset.2.2, rules := drop NfmRule.name conf.name n.rules })
    else (false, { n with chains := unset.2.2, rules := replace NfmRule.name unset.2.1 n.rules })

/-- The row as it is now is deleted by its name and added again, if a column changed. -/
def nfmRuleModify (fw : Firewall σ) (n : Nfm σ) (changed : Bool) (conf : Conf) : Bool × Nfm σ :=
  if !changed then (true, n)
  else
    let deleted := nfmRuleDel fw n conf
    if deleted.1 then nfmRuleNew fw deleted.2 conf else deleted

/-! ## Templates -/

def sizeRule : Nat := 513

/-- Expand a template and pass the rule on. -/
def nfmTruleApply (fw : Firewall σ) (conf : Conf) (type : Action) (s : σ) (tv : List Binding) : Bool × σ :=
  match expand tv conf.rule with
  | none => (false, s)
  | some rule =>
    let conf := { conf with rule := strscpy sizeRule rule }
    match type with
    | .add => nfmOsfwAddRule fw s conf
    | .delete => nfmOsfwDelRule fw s conf

/-- A tag that is missing is no failure when rules are deleted. -/
def nfmTruleWalk (fw : Firewall σ) (tags : List Tag) (self : NfmTrule) (type : Action) (ignoreErr : Bool)
    (override : Option Override) : Walk σ :=
  ⟨tags, self.tags, override, decide (type = .delete), ignoreErr, nfmTruleApply fw self.conf type⟩

def nfmTruleUpdateTags (fw : Firewall σ) (tags : List Tag) (self : NfmTrule) (type : Action) (s : σ) : Bool × σ :=
  if self.tags = [] then (true, s)
  else applyTag (nfmTruleWalk fw tags self type false none) self.tags [] s

def nfmTruleSet (fw : Firewall σ) (tags : List Tag) (s : Chains σ) (conf : Conf) : NfmTrule × Chains σ :=
  if conf.enable then
    let refs := getRefChain fw conf s
    if refs.1 then
      let self : NfmTrule := ⟨conf, refs.2.2, detectRefs conf.rule⟩
      (self, { refs.2.1 with fw := (nfmTruleUpdateTags fw tags self .add refs.2.1.fw).2 })
    else (⟨conf, refs.2.2, []⟩, refs.2.1)
  else (⟨conf, noFlags, []⟩, s)

def nfmTruleUnset (fw : Firewall σ) (tags : List Tag) (s : Chains σ) (self : NfmTrule) : Bool × NfmTrule × Chains σ :=
  let deleted := nfmTruleUpdateTags fw tags self .delete s.fw
  if !deleted.1 then (false, self, { s with fw := deleted.2 })
  else
    let put := putRefs fw self.conf ({ s with fw := deleted.2 }, self.flags)
    (put.1, ⟨self.conf, put.2.2, []⟩, put.2.1)

def nfmTruleNew (fw : Firewall σ) (tags : List Tag) (n : Nfm σ) (conf : Conf) : Bool × Nfm σ :=
  if (find NfmTrule.name conf.name n.trules).isSome then (false, n)
  else
    let set := nfmTruleSet fw tags n.chains conf
    (true, { n with chains := set.2, trules := insert NfmTrule.name strLt set.1 n.trules })

def nfmTruleDel (fw : Firewall σ) (tags : List Tag) (n : Nfm σ) (conf : Conf) : Bool × Nfm σ :=
  match find NfmTrule.name conf.name n.trules with
  | none => (false, n)
  | some self =>
    let unset := nfmTruleUnset fw tags n.chains self
    if unset.1 then (true, { n with chains := unset.2.2, trules := drop NfmTrule.name conf.name n.trules })
    else (false, { n with chains := unset.2.2, trules := replace NfmTrule.name unset.2.1 n.trules })

def nfmTruleModify (fw : Firewall σ) (tags : List Tag) (n : Nfm σ) (changed : Bool) (conf : Conf) : Bool × Nfm σ :=
  if !changed then (true, n)
  else
    let deleted := nfmTruleDel fw tags n conf
    if deleted.1 then nfmTruleNew fw tags deleted.2 conf else deleted

/-! ## Events -/

inductive Event
  | insert (new : Conf)
  | modify (old new : Conf)
  | delete (old : Conf)

/-- The old record of a modification: `ovsdb_table_update_cb` fills in only the columns that changed. -/
def oldRecord (old new : Conf) : Conf where
  name := if old.name = new.name then [] else old.name
  enable := if old.enable = new.enable then false else old.enable
  protocol := if old.protocol = new.protocol then [] else old.protocol
  table := if old.table = new.table then [] else old.table
  chain := if old.chain = new.chain then [] else old.chain
  priority := if old.priority = new.priority then 0 else old.priority
  rule := if old.rule = new.rule then [] else old.rule
  target := if old.target = new.target then [] else old.target

def nfmTruleIsTemplate (conf : Conf) : Bool := isTemplate conf.rule

/-- The registry is chosen by the new row for an insertion and by the old record otherwise. -/
def callbackNetfilter (fw : Firewall σ) (tags : List Tag) (n : Nfm σ) : Event → Nfm σ
  | .insert new => if nfmTruleIsTemplate new then (nfmTruleNew fw tags n new).2 else (nfmRuleNew fw n new).2
  | .modify old new =>
    if nfmTruleIsTemplate (oldRecord old new) then (nfmTruleModify fw tags n (decide (old ≠ new)) new).2
    else (nfmRuleModify fw n (decide (old ≠ new)) new).2
  | .delete old => if nfmTruleIsTemplate old then (nfmTruleDel fw tags n old).2 else (nfmRuleDel fw n old).2

end OpenSync.Nfm
