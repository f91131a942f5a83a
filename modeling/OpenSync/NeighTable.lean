import OpenSync.Address
import OpenSync.Keyed

/-!
# The neighbour table

`neigh_table.c` keeps address bindings from several sources in one tree, keyed by source and address. System
events, link events, direct calls and a periodic clean-up change it; a lookup asks the sources in a fixed order.
Adding goes through the lookup of the same key, which writes the stored address into the caller's entry.
-/

namespace OpenSync.Neigh

open Keyed Net

inductive Source
  | notSet | system | dhcpLease | arp | ndp | inetState | ut
  deriving DecidableEq, Repr

def Source.bit : Source → Nat
  | .notSet => 1
  | .system => 2
  | .dhcpLease => 4
  | .arp => 8
  | .ndp => 16
  | .inetState => 32
  | .ut => 64

structure Key where
  source : Source
  ip : Ip
  deriving DecidableEq, Repr

structure Entry where
  source : Source
  ip : Ip
  mac : Mac
  ifname : Option (List Char)
  ifindex : Int
  cacheValidTs : Int
  deriving DecidableEq, Repr

def Entry.key (e : Entry) : Key := ⟨e.source, e.ip⟩

/-! ## The order of the tree -/

def neighTableCmp (a b : Key) : Int :=
  if a.source.bit &&& b.source.bit = 0 then (a.source.bit : Int) - b.source.bit else ipCmp a.ip b.ip

theorem bit_and_eq_zero (a b : Source) : a.bit &&& b.bit = 0 ↔ a ≠ b := by
  cases a <;> cases b <;> decide

theorem neighTableCmp_eq_zero (a b : Key) : neighTableCmp a b = 0 ↔ a = b := by
  rcases a with ⟨sa, ia⟩
  rcases b with ⟨sb, ib⟩
  by_cases hs : sa = sb
  · subst hs
    have hb : ¬ sa.bit &&& sa.bit = 0 := fun h => (bit_and_eq_zero sa sa).mp h rfl
    rw [neighTableCmp, if_neg hb, ipCmp_eq_zero]
    simp
  · have hne : (sa.bit : Int) - sb.bit ≠ 0 := by
      cases sa <;> cases sb <;> simp_all [Source.bit]
    simp [neighTableCmp, (bit_and_eq_zero sa sb).mpr hs, hne, hs]

def lt (a b : Key) : Bool := neighTableCmp a b < 0

theorem lt_irrefl (k : Key) : lt k k = false := by
  have h : neighTableCmp k k = 0 := (neighTableCmp_eq_zero k k).mpr rfl
  simp [lt, h]

/-! ## The table -/

/-- The entry a caller passes in: without a source it gets the default one, without an address or a family of
addresses it matches nothing. -/
structure Request where
  source : Option Source
  ip : Option Ip
  mac : Option Mac
  ifname : Option (List Char)
  ifindex : Int
  cacheValidTs : Int

def Request.key (r : Request) : Option Key := r.ip.map fun ip => ⟨r.source.getD .notSet, ip⟩

structure Interface where
  ifindex : Int
  entriesCount : Int

structure State where
  neighTable : List Entry
  interfaces : List Interface
  count : Int

def init : State := ⟨[], [], 0⟩

def find (s : State) (k : Key) : Option Entry := Keyed.find Entry.key k s.neighTable

/-- The entry found, and the caller's entry with the address that was found. -/
def neighTableCacheLookup (s : State) (key : Request) : Option Entry × Request :=
  match key.key.bind (find s) with
  | none => (none, key)
  | some e => (some e, { key with mac := key.mac.map fun _ => e.mac })

structure Added where
  entry : Option Entry
  caller : Request
  state : State

def neighTableAddToCache (s : State) (toAdd : Request) : Added :=
  match toAdd.mac, toAdd.ip with
  | some _, some ip =>
    match neighTableCacheLookup s toAdd with
    | (some e, caller) =>
      ⟨none, caller, { s with
        neighTable := replace Entry.key { e with cacheValidTs := caller.cacheValidTs } s.neighTable }⟩
    | (none, caller) =>
      match caller.mac with
      | none => ⟨none, caller, s⟩
      | some mac =>
        let entry : Entry :=
          ⟨caller.source.getD .notSet, ip, mac, caller.ifname, caller.ifindex, caller.cacheValidTs⟩
        ⟨some entry, caller, { s with neighTable := insert Entry.key lt entry s.neighTable, count := s.count + 1 }⟩
  | _, _ => ⟨none, toAdd, s⟩

/-- The result of updating the database does not undo the addition. -/
def neighTableAdd (s : State) (toAdd : Request) (ovsdb : Bool) : Bool × Request × State :=
  let added := neighTableAddToCache s toAdd
  (added.entry.isSome && ovsdb, added.caller, added.state)

def neighTableDeleteFromCache (s : State) (toDel : Request) : State :=
  match (neighTableCacheLookup s toDel).1 with
  | none => s
  | some e => { s with neighTable := drop Entry.key e.key s.neighTable, count := s.count - 1 }

/-- The entry leaves the tree before the database is updated, the count only after. -/
def neighTableDelete (s : State) (toDel : Request) (ovsdb : Bool) : State :=
  match (neighTableCacheLookup s toDel).1 with
  | none => s
  | some e => { s with
    neighTable := drop Entry.key e.key s.neighTable
    count := if ovsdb then s.count - 1 else s.count }

/-- The caller's entry carries an address. -/
def neighTableCacheUpdate (s : State) (entry : Request) (mac : Mac) : Bool × State :=
  match entry.key.bind (find s) with
  | none =>
    let added := neighTableAddToCache s { entry with mac := some mac }
    (added.entry.isSome, added.state)
  | some e => (true, { s with
      neighTable := replace Entry.key { e with mac := mac, ifname := entry.ifname } s.neighTable })

/-! ## Events -/

structure NfNeighInfo where
  ipaddr : Option Ip
  ifindex : Int
  hwaddr : Option Mac
  source : Option Source
  add : Bool
  delete : Bool

def lookupIntf (s : State) (ifindex : Int) : Option Interface := Keyed.find Interface.ifindex ifindex s.interfaces

def intfLt (a b : Int) : Bool := a < b

/-- Change the count of an interface, which is created for an addition. -/
def bumpIntf (s : State) (ifindex : Int) : State :=
  match lookupIntf s ifindex with
  | some i => { s with interfaces := replace Interface.ifindex { i with entriesCount := i.entriesCount + 1 } s.interfaces }
  | none => { s with interfaces := insert Interface.ifindex intfLt ⟨ifindex, 1⟩ s.interfaces }

def dropIntf (s : State) (ifindex : Int) : State :=
  match lookupIntf s ifindex with
  | some i => { s with interfaces := replace Interface.ifindex { i with entriesCount := i.entriesCount - 1 } s.interfaces }
  | none => s

def NfNeighInfo.request (info : NfNeighInfo) (now : Int) : Request :=
  ⟨info.source, info.ipaddr, info.hwaddr, none, info.ifindex, now⟩

def processNeighEvent (s : State) (info : NfNeighInfo) (now : Int) : State :=
  if info.add then
    let added := neighTableAddToCache s (info.request now)
    if added.entry.isSome then bumpIntf added.state info.ifindex else added.state
  else if info.delete then dropIntf (neighTableDeleteFromCache s (info.request now)) info.ifindex
  else s

def keepEntries (s : State) (keep : Entry → Bool) : State :=
  { s with
    neighTable := s.neighTable.filter keep
    count := s.count - (s.neighTable.filter fun e => !keep e).length }

def processLinkEvent (s : State) (info : NfNeighInfo) : State :=
  match lookupIntf s info.ifindex with
  | none => s
  | some i =>
    if i.entriesCount ≤ 0 then s
    else
      let kept := keepEntries s fun e => !(decide (some e.source = info.source) && decide (e.ifindex = info.ifindex))
      { kept with interfaces := drop Interface.ifindex info.ifindex kept.interfaces }

def neighTableTtlCleanup (s : State) (ttl : Int) (sourceMask : Nat) (now : Int) : State :=
  keepEntries s fun e => decide (e.source.bit &&& sourceMask = 0) || decide (now - e.cacheValidTs < ttl)

/-! ## The lookup -/

def lookupSources : List Source := [.dhcpLease, .system, .ndp, .arp, .inetState, .notSet, .ut]

def neighTableLookup (s : State) (ip : Ip) : Option Mac :=
  lookupSources.findSome? fun source => (find s ⟨source, ip⟩).map Entry.mac

end OpenSync.Neigh
