import OpenSync.FsmFqdn
import OpenSync.Keyed
import Mathlib.Data.List.Sort

/-!
# Policy tables

The tables of policies that `fsm_policy_ovsdb.c` keeps after the rows of `FSM_Policy`: each table has a name and an
array of slots, and a row goes to the slot of its index in the table of its policy. A step that reads a slot beyond
the array has no result.
-/

namespace OpenSync.Fsm.Policy

open Keyed

def fsmMaxPolicies : Nat := 60

def policyNameSize : Nat := 32

structure Row where
  name : Name
  idx : Int
  policy : Option Name
  macOp : Option Name
  macs : List Name
  fqdnOp : Option Name
  fqdns : List Name
  fqdncatOp : Option Name
  fqdncats : List Int
  riskOp : Option Name
  riskLevel : Int
  ipaddrOp : Option Name
  ipaddrs : List Name
  action : Option Name
  log : Option Name
  next : List (Name × Int)
  redirect : List Name
  otherConfig : List (Name × Name)
  deriving DecidableEq

def policyName (r : Row) : Name := r.policy.getD "default".toList

/-! ## Rules -/

inductive SetOp
  | isIn | out
  deriving DecidableEq

inductive RiskOp
  | eq | neq | gt | lt | gte | lte
  deriving DecidableEq

structure Rules where
  mac : Option (SetOp × List Name)
  fqdn : Option (FqdnOp × List Name)
  cat : Option (SetOp × List Int)
  risk : Option (RiskOp × Int)
  ip : Option (SetOp × List Name)
  deriving DecidableEq

def setOp (s : Name) : Option SetOp :=
  if s = "in".toList then some .isIn
  else if s = "out".toList then some .out
  else none

def fqdnOpOf (s : Name) : Option FqdnOp :=
  if s = "in".toList then some .isIn
  else if s = "out".toList then some .out
  else if s = "sfr_in".toList then some .sfrIn
  else if s = "sfr_out".toList then some .sfrOut
  else if s = "sfl_in".toList then some .sflIn
  else if s = "sfl_out".toList then some .sflOut
  else if s = "wild_in".toList then some .wildIn
  else if s = "wild_out".toList then some .wildOut
  else none

def riskOpOf (s : Name) : Option RiskOp :=
  if s = "eq".toList then some .eq
  else if s = "neq".toList then some .neq
  else if s = "gt".toList then some .gt
  else if s = "lt".toList then some .lt
  else if s = "gte".toList then some .gte
  else if s = "lte".toList then some .lte
  else none

/-- A rule is there if its operation is; an operation that is not known fails the row. -/
def setRule {ω α : Type} (parse : Name → Option ω) (op : Option Name) (values : α) : Option (Option (ω × α)) :=
  match op with
  | none => some none
  | some s => (parse s).map fun o => some (o, values)

def fsmSetMacRules (r : Row) : Option (Option (SetOp × List Name)) := setRule setOp r.macOp r.macs

def fsmSetFqdnRules (r : Row) : Option (Option (FqdnOp × List Name)) := setRule fqdnOpOf r.fqdnOp r.fqdns

def fsmSetCatsRules (r : Row) : Option (Option (SetOp × List Int)) := setRule setOp r.fqdncatOp r.fqdncats

def fsmSetRiskLevelRules (r : Row) : Option (Option (RiskOp × Int)) := setRule riskOpOf r.riskOp r.riskLevel

def fsmSetIpRules (r : Row) : Option (Option (SetOp × List Name)) := setRule setOp r.ipaddrOp r.ipaddrs

def fsmSetRules (r : Row) : Option Rules := do
  let mac ← fsmSetMacRules r
  let fqdn ← fsmSetFqdnRules r
  let cat ← fsmSetCatsRules r
  let risk ← fsmSetRiskLevelRules r
  let ip ← fsmSetIpRules r
  return ⟨mac, fqdn, cat, risk, ip⟩

/-! ## Policies -/

inductive Action
  | none | allow | block | updateTag | gatekeeperReq | flushCache | flushAllCache
  deriving DecidableEq

inductive ReportType
  | none | blocked | all
  deriving DecidableEq

def fsmPolicySetAction (r : Row) : Action :=
  match r.action with
  | Option.none => .none
  | some s =>
    if s = "allow".toList then .allow
    else if s = "drop".toList then .block
    else if s = "update_tag".toList then .updateTag
    else if s = "gatekeeper".toList then .gatekeeperReq
    else if s = "flush".toList then .flushCache
    else if s = "flush_all".toList then .flushAllCache
    else .none

/-- A policy is zeroed when it is allocated, and zero stands for no report. -/
def fsmPolicySetLog (r : Row) : ReportType :=
  match r.log with
  | Option.none => .none
  | some s =>
    if s = "all".toList then .all
    else if s = "blocked".toList then .blocked
    else .none

def nameLt (a b : Name) : Bool := decide (a < b)

/-- A tree of pairs, in the order of its keys. -/
def schema2tree {α : Type} (pairs : List (Name × α)) : List (Name × α) :=
  pairs.foldl (fun tree pair => insert Prod.fst nameLt pair tree) []

structure Content where
  ruleName : Name
  rules : Rules
  redirects : List Name
  next : List (Name × Int)
  otherConfig : List (Name × Name)
  action : Action
  reportType : ReportType
  deriving DecidableEq

/-- What a row says of its policy, unless one of its operations is not known. -/
def convert (r : Row) : Option Content :=
  (fsmSetRules r).map fun rules =>
    ⟨r.name, rules, r.redirect, schema2tree r.next, schema2tree r.otherConfig, fsmPolicySetAction r, fsmPolicySetLog r⟩

def fsmPolicySortCats (c : Content) : Content :=
  { c with rules := { c.rules with cat := c.rules.cat.map fun p => (p.1, p.2.insertionSort (· ≤ ·)) } }

/-- Redirects are not resolved. -/
def fsmPreparePolicy (c : Content) : Content := fsmPolicySortCats c

structure FsmPolicy where
  idx : Nat
  content : Content
  lookupPrev : Nat
  lookupNext : Nat

/-! ## Tables -/

structure PolicyTable where
  id : Nat
  name : Name
  lookupArray : Fin fsmMaxPolicies → Option FsmPolicy

structure Session where
  policyTables : List PolicyTable
  nextId : Nat

def Session.start : Session := ⟨[], 0⟩

/-- What `table_name_cmp` compares. -/
def sameName (a b : Name) : Bool := decide (a.take policyNameSize = b.take policyNameSize)

def findTable (s : Session) (name : Name) : Option PolicyTable := s.policyTables.find? fun t => sameName t.name name

/-- The table of a name, which may be created; a long name is cut. -/
def getTable (s : Session) (name : Name) : Nat × Session :=
  match findTable s name with
  | some t => (t.id, s)
  | none =>
    (s.nextId, ⟨insert PolicyTable.name nameLt ⟨s.nextId, name.take (policyNameSize - 1), fun _ => none⟩ s.policyTables,
        s.nextId + 1⟩)

def onTable (id : Nat) (f : PolicyTable → PolicyTable) (s : Session) : Session :=
  { s with policyTables := s.policyTables.map fun t => if t.id = id then f t else t }

def setSlot (i : Fin fsmMaxPolicies) (p : Option FsmPolicy) (t : PolicyTable) : PolicyTable :=
  { t with lookupArray := Function.update t.lookupArray i p }

def slotOf (idx : Int) : Option (Fin fsmMaxPolicies) :=
  if h : 0 ≤ idx ∧ idx < fsmMaxPolicies then some ⟨idx.toNat, by omega⟩ else none

def readSlot (t : PolicyTable) (idx : Nat) : Option (Option FsmPolicy) := (slotOf idx).map t.lookupArray

/-- The index below that is free, or zero; the index below zero is the greatest `size_t`. -/
def fsmPolicyGetPrev (t : PolicyTable) : Nat → Option Nat
  | 0 => some 0
  | idx + 1 => (readSlot t (idx + 1)).bind fun p => if p.isSome then fsmPolicyGetPrev t idx else some (idx + 1)

def sizePred (idx : Nat) : Nat := if idx = 0 then 2 ^ 64 - 1 else idx - 1

/-- The index above that is free, or the number of slots. -/
def fsmPolicyGetNext (t : PolicyTable) (idx : Nat) : Nat :=
  if h : idx < fsmMaxPolicies then
    if (t.lookupArray ⟨idx, h⟩).isSome then fsmPolicyGetNext t (idx + 1) else idx
  else idx
termination_by fsmMaxPolicies - idx

/-- The table that a policy goes on with is created with it. -/
def fsmPolicySetNext (s : Session) (r : Row) : Session :=
  match (schema2tree r.next).head? with
  | none => s
  | some pair => (getTable s pair.1).2

def tableOf (s : Session) (id : Nat) : Option PolicyTable := s.policyTables.find? (·.id = id)

/-- Fill a slot from a row. Both neighbours are looked for, and the upper one is kept as the lower one. -/
def fsmPolicyInsertSchemaP (s : Session) (id : Nat) (i : Fin fsmMaxPolicies) (r : Row) : Option Session :=
  let s := fsmPolicySetNext s r
  match convert r, tableOf s id with
  | some content, some table =>
    let filled := setSlot i (some ⟨i, content, 0, fsmMaxPolicies⟩) table
    (fsmPolicyGetPrev filled (sizePred i)).map fun _ =>
      onTable id (setSlot i (some ⟨i, content, fsmPolicyGetNext filled (i + 1), fsmMaxPolicies⟩)) s
  | _, _ => some s

def fsmPolicyGet (s : Session) (i : Fin fsmMaxPolicies) (r : Row) : Option (Nat × Session) :=
  let found := getTable s (policyName r)
  match (tableOf found.2 found.1).bind fun table => table.lookupArray i with
  | some _ => some found
  | none => (fsmPolicyInsertSchemaP found.2 found.1 i r).map fun s => (found.1, s)

def fsmPolicyIsFlushRequest (r : Row) : Bool :=
  decide (r.action = some "flush".toList) || decide (r.action = some "flush_all".toList)

def prepareSlot (i : Fin fsmMaxPolicies) (t : PolicyTable) : PolicyTable :=
  setSlot i ((t.lookupArray i).map fun p => { p with content := fsmPreparePolicy p.content }) t

/-- A request to flush a cache is passed on and not stored. -/
def fsmAddPolicy (s : Session) (r : Row) : Option Session :=
  match slotOf r.idx with
  | none => some s
  | some i =>
    if fsmPolicyIsFlushRequest r then some s
    else (fsmPolicyGet s i r).map fun got => onTable got.1 (prepareSlot i) got.2

def fsmFreePolicy (s : Session) (id : Nat) (p : FsmPolicy) : Option Session :=
  (slotOf p.idx).map fun i => onTable id (setSlot i none) s

/-- The index is not checked here. -/
def fsmDeletePolicy (s : Session) (r : Row) : Option Session :=
  match findTable s (policyName r) with
  | none => some s
  | some table =>
    match slotOf r.idx with
    | none => none
    | some i =>
      match table.lookupArray i with
      | none => some s
      | some p => fsmFreePolicy s table.id p

def fsmUpdatePolicy (s : Session) (r : Row) : Option Session :=
  match slotOf r.idx with
  | none => some s
  | some _ => (fsmDeletePolicy s r).bind fun s => fsmAddPolicy s r

inductive Event
  | insert (new : Row)
  | modify (old new : Row)
  | delete (old : Row)

def callbackFSMPolicy (s : Session) : Event → Option Session
  | .insert new => fsmAddPolicy s new
  | .modify _ new => fsmUpdatePolicy s new
  | .delete old => fsmDeletePolicy s old

end OpenSync.Fsm.Policy
