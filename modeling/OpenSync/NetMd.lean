import OpenSync.Address
import OpenSync.Keyed

/-!
# Flow reports

The aggregator of `network_metadata_utils.c` samples the counters of flows and reports, at the end of each
observation window, what was added since the last one. Flows with an internet header are reported one by one; the
other flows between two hardware addresses are reported as one pair, whose counters add up theirs. A closing walks
the trees, fills the slots that were provisioned from the number of active accumulators, and retires old flows.

An accumulator is known by the number it was allocated with. The trees are sequences, in the order of a walk.
-/

namespace OpenSync.NetMd

open Keyed Net

/-! ## Keys -/

structure Key where
  smac : Option Mac
  dmac : Option Mac
  vlanId : Int
  ethertype : Nat
  ufid : Option (BitVec 128)
  ipVersion : Nat
  srcIp : List UInt8
  dstIp : List UInt8
  ipprotocol : Nat
  sport : Nat
  dport : Nat
  lookupOnly : Bool

def macCmp : Option Mac → Option Mac → Int
  | some a, some b => (a.toNat : Int) - b.toNat
  | _, _ => 0

def netMdEthCmp (a b : Key) : Int :=
  if a.smac.isNone != b.smac.isNone then -1
  else if a.dmac.isNone != b.dmac.isNone then 1
  else if macCmp a.smac b.smac ≠ 0 then macCmp a.smac b.smac
  else if macCmp a.dmac b.dmac ≠ 0 then macCmp a.dmac b.dmac
  else a.vlanId - b.vlanId

/-- The flow identifiers count only if both are given. -/
def netMdEthFlowCmp (a b : Key) : Int :=
  let cmp : Int := (a.ethertype : Int) - b.ethertype
  if cmp ≠ 0 then cmp
  else
    match a.ufid, b.ufid with
    | some u, some v => (u.toNat : Int) - v.toNat
    | _, _ => 0

def netMd5tupleCmp (a b : Key) : Int :=
  let version : Int := (a.ipVersion : Int) - b.ipVersion
  let ipl := if a.ipVersion = 4 then 4 else 16
  let src := bytesCmp (a.srcIp.take ipl) (b.srcIp.take ipl)
  let dst := bytesCmp (a.dstIp.take ipl) (b.dstIp.take ipl)
  let protocol : Int := (a.ipprotocol : Int) - b.ipprotocol
  let sport : Int := (a.sport : Int) - b.sport
  if version ≠ 0 then version
  else if src ≠ 0 then src
  else if dst ≠ 0 then dst
  else if protocol ≠ 0 then protocol
  else if sport ≠ 0 then sport
  else (a.dport : Int) - b.dport

def isEthOnly (key : Key) : Bool := key.ipVersion == 0

def hasEthInfo (key : Key) : Bool := key.smac.isSome || key.dmac.isSome

/-! ## Accumulators -/

structure Counters where
  packetsCount : BitVec 64
  bytesCount : BitVec 64
  payloadBytesCount : BitVec 64

def Counters.zero : Counters := ⟨0, 0, 0⟩

inductive AccState
  | init | active | reset
  deriving DecidableEq

structure Acc where
  id : Nat
  key : Key
  firstCounters : Counters
  counters : Counters
  reportCounters : Counters
  state : AccState
  lastUpdated : Int
  refcnt : Int
  report : Bool

def netMdSetAcc (id : Nat) (key : Key) : Acc := ⟨id, key, .zero, .zero, .zero, .init, 0, 0, false⟩

structure EthPair where
  macStats : Acc
  ethertypeFlows : List Acc
  fiveTupleFlows : List Acc

structure Stat where
  id : Nat
  counters : Counters

structure Window where
  provisionedStats : Nat
  numStats : Nat
  droppedStats : Nat
  flowStats : List Stat

/-- The aggregator; the windows of its report that were closed, oldest first, and the one that is open. -/
structure Aggr where
  ethPairs : List EthPair
  fiveTupleFlows : List Acc
  reportAllSamples : Bool
  closed : List Window
  current : Option Window
  maxWindows : Nat
  statsCurIdx : Nat
  activeAccs : Nat
  accTtl : Int
  relative : Bool
  reportFilter : Option (Acc → Bool)
  maxReports : Nat
  totalReportFlows : Nat
  totalFlows : Nat
  heldFlows : Nat
  totalEthPairs : Nat
  nextId : Nat

def netMdAllocateAggregator (maxWindows : Nat) (accTtl : Int) (relative : Bool)
    (reportFilter : Option (Acc → Bool)) : Aggr :=
  ⟨[], [], false, [], none, maxWindows, 0, 0, accTtl, relative, reportFilter, 0, 0, 0, 0, 0, 0⟩

/-! ## Lookups -/

/-- A tree at the time of a call. The comparisons are not orders when keys with and without an address, or with and
without a flow identifier, are mixed, so a search may miss an entry; what it finds is in the tree and compares
equal. -/
structure TreeOps {α : Type} (key : α → Key) (cmp : Key → Key → Int) where
  find : Key → List α → Option α
  insert : α → List α → List α
  find_mem : ∀ {k l x}, find k l = some x → x ∈ l
  find_cmp : ∀ {k l x}, find k l = some x → cmp k (key x) = 0
  insert_perm : ∀ x l, (insert x l).Perm (x :: l)

def TreeOps.ordered {α : Type} (key : α → Key) (cmp : Key → Key → Int) : TreeOps key cmp where
  find k l := l.find? fun x => decide (cmp k (key x) = 0)
  insert := Keyed.insert key fun a b => decide (cmp a b < 0)
  find_mem h := List.mem_of_find?_eq_some h
  find_cmp h := by simpa using List.find?_some h
  insert_perm x l := Keyed.insert_perm _ x l

def pairKey (pair : EthPair) : Key := pair.macStats.key

structure Trees where
  ethPairs : TreeOps pairKey netMdEthCmp
  ethertypeFlows : TreeOps Acc.key netMdEthFlowCmp
  fiveTupleFlows : TreeOps Acc.key netMd5tupleCmp

def Trees.ordered : Trees := ⟨.ordered _ _, .ordered _ _, .ordered _ _⟩

/-- The accumulator of a key in a tree, which may be created: its number, the tree and the next number. -/
def netMdTreeLookupAcc {cmp : Key → Key → Int} (t : TreeOps Acc.key cmp) (key : Key) (tree : List Acc) (nextId : Nat) :
    Option (Nat × List Acc × Nat) :=
  match t.find key tree with
  | some acc => some (acc.id, tree, nextId)
  | none =>
    if key.lookupOnly then none
    else some (nextId, t.insert (netMdSetAcc nextId key) tree, nextId + 1)

def netMdLookupAccFromPair (t : Trees) (pair : EthPair) (key : Key) (nextId : Nat) : Option (Nat × EthPair × Nat) :=
  if isEthOnly key then
    (netMdTreeLookupAcc t.ethertypeFlows key pair.ethertypeFlows nextId).map fun r =>
      (r.1, { pair with ethertypeFlows := r.2.1 }, r.2.2)
  else
    (netMdTreeLookupAcc t.fiveTupleFlows key pair.fiveTupleFlows nextId).map fun r =>
      (r.1, { pair with fiveTupleFlows := r.2.1 }, r.2.2)

/-- The pair of a key, created if need be; its accumulator does not keep the flow identifier. -/
def netMdLookupEthPair (t : Trees) (a : Aggr) (key : Key) : Option (EthPair × Aggr) :=
  match t.ethPairs.find key a.ethPairs with
  | some pair => some (pair, a)
  | none =>
    if key.lookupOnly then none
    else
      let pair : EthPair := ⟨netMdSetAcc a.nextId { key with ufid := none }, [], []⟩
      some (pair, { a with
        ethPairs := t.ethPairs.insert pair a.ethPairs
        totalEthPairs := a.totalEthPairs + 1
        nextId := a.nextId + 1 })

def setPair (pair : EthPair) (pairs : List EthPair) : List EthPair :=
  pairs.map fun p => if p.macStats.id = pair.macStats.id then pair else p

def netMdLookupEthAcc (t : Trees) (a : Aggr) (key : Key) : Option Nat × Aggr :=
  match netMdLookupEthPair t a key with
  | none => (none, a)
  | some (pair, a') =>
    match netMdLookupAccFromPair t pair key a'.nextId with
    | none => (none, a')
    | some (id, pair', nextId) =>
      (some id, { a' with
        ethPairs := setPair pair' a'.ethPairs
        totalFlows := if nextId = a'.nextId then a'.totalFlows else a'.totalFlows + 1
        nextId := nextId })

def netMdLookupAcc (t : Trees) (a : Aggr) (key : Key) : Option Nat × Aggr :=
  if hasEthInfo key then netMdLookupEthAcc t a key
  else
    match netMdTreeLookupAcc t.fiveTupleFlows key a.fiveTupleFlows a.nextId with
    | none => (none, a)
    | some (id, tree, nextId) =>
      (some id, { a with
        fiveTupleFlows := tree
        totalFlows := if nextId = a.nextId then a.totalFlows else a.totalFlows + 1
        nextId := nextId })

/-! ## Sampling -/

/-- Change the flow accumulator of a number, in whichever tree it is. -/
def onAcc (id : Nat) (f : Acc → Acc) (acc : Acc) : Acc := if acc.id = id then f acc else acc

def mapPair (f : Acc → Acc) (pair : EthPair) : EthPair :=
  { pair with
    ethertypeFlows := pair.ethertypeFlows.map f
    fiveTupleFlows := pair.fiveTupleFlows.map f }

def mapFlows (f : Acc → Acc) (a : Aggr) : Aggr :=
  { a with ethPairs := a.ethPairs.map (mapPair f), fiveTupleFlows := a.fiveTupleFlows.map f }

def pairFlows (pair : EthPair) : List Acc := pair.ethertypeFlows ++ pair.fiveTupleFlows

def flows (a : Aggr) : List Acc := a.ethPairs.flatMap pairFlows ++ a.fiveTupleFlows

def fiveTuples (a : Aggr) : List Acc := a.ethPairs.flatMap EthPair.fiveTupleFlows ++ a.fiveTupleFlows

/-- Provision a slot for an accumulator that was not active in the window. -/
def provision (a : Aggr) (id : Nat) : Aggr :=
  if (flows a).any fun acc => decide (acc.id = id) && decide (acc.state ≠ .active) then
    { a with activeAccs := a.activeAccs + 1 }
  else a

def netMdSetCounters (a : Aggr) (id : Nat) (counters : Counters) (now : Int) : Aggr :=
  mapFlows (onAcc id fun acc => { acc with counters := counters, state := .active, lastUpdated := now })
    (provision a id)

def netMdAddSample (t : Trees) (a : Aggr) (key : Key) (counters : Counters) (now : Int) : Bool × Aggr :=
  match netMdLookupAcc t a key with
  | (none, a') => (false, a')
  | (some id, a') => (true, netMdSetCounters a' id counters now)

/-- `fsm_dpi_mark_acc_for_report`: nothing happens if the accumulator is marked already. -/
def markAccForReport (a : Aggr) (id : Nat) : Aggr :=
  if (flows a).any fun acc => decide (acc.id = id) && acc.report then a
  else mapFlows (onAcc id fun acc => { acc with report := true }) (provision a id)

/-- The part of `net_md_update_flow_key` that marks the accumulator of a key. -/
def netMdUpdateFlowKey (t : Trees) (a : Aggr) (key : Key) : Aggr :=
  match netMdLookupAcc t a key with
  | (none, a') => a'
  | (some id, a') => mapFlows (onAcc id fun acc => { acc with report := true }) (provision a' id)

/-! ## Closing a window -/

/-- What a closing changes besides the accumulators. -/
structure Filling where
  window : Window
  statsCurIdx : Nat
  totalReportFlows : Nat
  totalFlows : Nat
  heldFlows : Nat

def relativeCount (counter first : BitVec 64) : BitVec 64 :=
  if first.toNat ≤ counter.toNat then counter - first else counter

/-- The payload counter is reported as it is. -/
def netMdCloseCounters (relative : Bool) (acc : Acc) : Acc :=
  { acc with
    reportCounters :=
      if relative then
        ⟨relativeCount acc.counters.packetsCount acc.firstCounters.packetsCount,
          relativeCount acc.counters.bytesCount acc.firstCounters.bytesCount, acc.counters.payloadBytesCount⟩
      else acc.counters
    firstCounters := acc.counters }

def netMdAddSampleToWindow (filter : Option (Acc → Bool)) (acc : Acc) (r : Filling) : Filling :=
  if !(filter.all fun f => f acc) then r
  else if r.statsCurIdx = r.window.provisionedStats then
    { r with window := { r.window with droppedStats := r.window.droppedStats + 1 } }
  else
    { r with
      window := { r.window with flowStats := r.window.flowStats ++ [⟨acc.id, acc.reportCounters⟩] }
      statsCurIdx := r.statsCurIdx + 1
      totalReportFlows := r.totalReportFlows + 1 }

def isActive (acc : Acc) : Bool := decide (acc.state = .active) || acc.report

structure Config where
  relative : Bool
  filter : Option (Acc → Bool)
  accTtl : Int
  reportAllSamples : Bool
  now : Int

/-- Keep a flow that was active in the window, is not yet old, or is referred to. -/
def retire (c : Config) (active : Bool) (acc : Acc) (r : Filling) : Option Acc × Filling :=
  let expired := decide (c.accTtl ≤ c.now - acc.lastUpdated)
  let refd := decide (acc.refcnt ≠ 0)
  let held := if expired && refd then { r with heldFlows := r.heldFlows + 1 } else r
  if active || !(expired && !refd) then (some acc, held)
  else (none, { held with totalFlows := held.totalFlows - 1 })

def reportTuple (c : Config) (acc : Acc) (r : Filling) : Option Acc × Filling :=
  if isActive acc then
    let closed := netMdCloseCounters c.relative acc
    retire c true { closed with state := .reset, report := false } (netMdAddSampleToWindow c.filter closed r)
  else retire c false { acc with report := false } r

def netMdReport5tuplesAccs (c : Config) : List Acc → Filling → List Acc × Filling
  | [], r => ([], r)
  | acc :: tree, r =>
    let reported := reportTuple c acc r
    let rest := netMdReport5tuplesAccs c tree reported.2
    (reported.1.toList ++ rest.1, rest.2)

/-- The baseline of the flow is subtracted without a look at which one is greater. -/
def netMdUpdateEthAcc (ethAcc acc : Acc) : Acc :=
  { ethAcc with
    counters := { ethAcc.counters with
      bytesCount := ethAcc.counters.bytesCount + acc.counters.bytesCount - acc.firstCounters.bytesCount
      packetsCount := ethAcc.counters.packetsCount + acc.counters.packetsCount - acc.firstCounters.packetsCount } }

/-- The mark of a flow for report is not cleared here. -/
def reportEthFlow (c : Config) (ethAcc acc : Acc) (r : Filling) : Acc × Option Acc × Filling :=
  if isActive acc then
    let closed := netMdCloseCounters c.relative acc
    let added := if c.reportAllSamples then netMdAddSampleToWindow c.filter closed r else r
    (netMdUpdateEthAcc { ethAcc with state := .active } acc, retire c true { closed with state := .reset } added)
  else (ethAcc, retire c false acc r)

def reportEthFlows (c : Config) : Acc → List Acc → Filling → Acc × List Acc × Filling
  | ethAcc, [], r => (ethAcc, [], r)
  | ethAcc, acc :: tree, r =>
    let reported := reportEthFlow c ethAcc acc r
    let rest := reportEthFlows c reported.1 tree reported.2.2
    (rest.1, reported.2.1.toList ++ rest.2.1, rest.2.2)

def netMdReportEthAcc (c : Config) (pair : EthPair) (r : Filling) : EthPair × Filling :=
  let walked := reportEthFlows c pair.macStats pair.ethertypeFlows r
  if walked.1.state = .active then
    let closed := netMdCloseCounters c.relative walked.1
    ({ pair with macStats := { closed with state := .reset }, ethertypeFlows := walked.2.1 },
      netMdAddSampleToWindow c.filter closed walked.2.2)
  else ({ pair with macStats := walked.1, ethertypeFlows := walked.2.1 }, walked.2.2)

def reportPair (c : Config) (pair : EthPair) (r : Filling) : EthPair × Filling :=
  let eth := netMdReportEthAcc c pair r
  let tuples := netMdReport5tuplesAccs c eth.1.fiveTupleFlows eth.2
  ({ eth.1 with fiveTupleFlows := tuples.1 }, tuples.2)

def reportPairs (c : Config) : List EthPair → Filling → List EthPair × Filling
  | [], r => ([], r)
  | pair :: pairs, r =>
    let reported := reportPair c pair r
    let rest := reportPairs c pairs reported.2
    (reported.1 :: rest.1, rest.2)

def netMdReportAccs (c : Config) (a : Aggr) (r : Filling) : List EthPair × List Acc × Filling :=
  let pairs := reportPairs c a.ethPairs r
  let tuples := netMdReport5tuplesAccs c a.fiveTupleFlows pairs.2
  (pairs.1, tuples.1, tuples.2)

def Aggr.config (a : Aggr) (now : Int) : Config := ⟨a.relative, a.reportFilter, a.accTtl, a.reportAllSamples, now⟩

/-- The window that is open; none is opened once the report is full. -/
def netMdActiveWindow (a : Aggr) : Option Window :=
  if a.closed.length = a.maxWindows then none else some (a.current.getD ⟨0, 0, 0, []⟩)

def netMdActivateWindow (a : Aggr) : Aggr :=
  match netMdActiveWindow a with
  | none => a
  | some w => { a with current := some w }

def provisioned (a : Aggr) (w : Window) : Window :=
  if a.activeAccs = 0 then w
  else { w with provisionedStats := if a.maxReports ≠ 0 then min a.activeAccs a.maxReports else a.activeAccs }

def netMdCloseActiveWindow (a : Aggr) (now : Int) : Bool × Aggr :=
  match netMdActiveWindow a with
  | none => (false, a)
  | some w =>
    let reported := netMdReportAccs (a.config now) a
      ⟨provisioned a w, a.statsCurIdx, a.totalReportFlows, a.totalFlows, a.heldFlows⟩
    (true, { a with
      ethPairs := reported.1
      fiveTupleFlows := reported.2.1
      closed := a.closed ++ [{ reported.2.2.window with numStats := reported.2.2.statsCurIdx }]
      current := none
      statsCurIdx := 0
      totalReportFlows := reported.2.2.totalReportFlows
      totalFlows := reported.2.2.totalFlows
      heldFlows := reported.2.2.heldFlows })

end OpenSync.NetMd
