import OpenSync.Keyed
import OpenSync.Search
import OpenSync.TagList

/-!
# The interface tables of steered clients

A row of `Band_Steering_Config` describes a group of interfaces (`bm_group.c`), and every client keeps a table of the
interfaces of all groups (`bm_client.c`). The table is an array that is filled entry by entry and compacted in place. The
driver settings that go with an entry, its counters and its capabilities are left out, and so are kicks and neighbors.
-/

namespace OpenSync.BmTable

open Search (strstr)
open Tags (strLt)

abbrev Text := Tags.Text
abbrev Mac := BitVec 48

inductive RadioType
  | none
  | twoG
  | fiveG
  | fiveGL
  | fiveGU
  | sixG
  deriving DecidableEq

structure Ifconfig where
  ifname : Text
  radioType : RadioType
  bsAllowed : Bool
  deriving DecidableEq

/-- `bm_group_t`; only enabled groups are ever in the tree. -/
structure Group where
  uuid : Text
  ifcfg : List Ifconfig
  deriving DecidableEq

/-- `bm_client_ifcfg_t`; the `uuid` stands for the address of the group. -/
structure Ifcfg where
  ifname : Text
  radioType : RadioType
  bsAllowed : Bool
  group : Text
  deriving DecidableEq

/-- The table holds the first `ifcfg_num` entries of the array. -/
structure Client where
  mac : Mac
  ifcfg : List Ifcfg
  group : Option Text
  deriving DecidableEq

structure State where
  mapTable : List (Text × Text)
  groups : List Group
  clients : List Client
  deriving DecidableEq

def start (mapTable : List (Text × Text)) : State := ⟨mapTable, [], []⟩

def bmIfcfgMax : Nat := 4

def bmClientIfcfgMax : Nat := 16

def bsalIfnameLen : Nat := 17

/-! ## The driver -/

inductive DriverCall
  | ifaceAdd (ifname : Text)
  | ifaceUpdate (ifname : Text)
  | clientAdd (ifname : Text) (mac : Mac)
  | clientUpdate (ifname : Text) (mac : Mac)
  | clientRemove (ifname : Text) (mac : Mac)
  deriving DecidableEq

/-- What the driver answers while an event is handled: the calls that fail and the clients that are connected. A client
whose connection ends a backoff has the settings of all groups renewed in between. -/
structure Driver where
  failing : List DriverCall
  connected : List (Text × Mac)
  endsBackoff : List (Text × Mac)
  deriving DecidableEq

def Driver.ok (d : Driver) (call : DriverCall) : Bool := !d.failing.contains call

/-! ## Rows -/

/-- A row of `Band_Steering_Config`. `freqBand` is what the tables of interfaces and radios say about `ifName5g`. -/
structure Row where
  ifnames : List (Text × Text)
  ifName2g : Text
  ifName5g : Text
  freqBand : Option Text
  deriving DecidableEq

def contains (s : Text) (pat : String) : Bool := (strstr pat.toList s).isSome

def radioGetTypeFromStr (s : Text) : RadioType :=
  if contains s "2.4G" then .twoG
  else if contains s "5GL" then .fiveGL
  else if contains s "5GU" then .fiveGU
  else if contains s "5G" then .fiveG
  else if contains s "6G" then .sixG
  else .none

def targetMapIfname (mapTable : List (Text × Text)) (ifname : Text) : Text := (mapTable.lookup ifname).getD ifname

def bmIfconfigFromOvsdb (ifname : Text) (radioType : RadioType) (bsAllowed : Bool) (ifcfg : List Ifconfig) :
    Bool × List Ifconfig :=
  if bmIfcfgMax ≤ ifcfg.length then (false, ifcfg)
  else (true, ifcfg ++ [⟨ifname.take (bsalIfnameLen - 1), radioType, bsAllowed⟩])

/-- What was converted before an error is kept. -/
def bmIfconfigsFromOvsdb : List (Text × Text) → List Ifconfig → Bool × List Ifconfig
  | [], ifcfg => (true, ifcfg)
  | (ifname, value) :: rest, ifcfg =>
    if radioGetTypeFromStr value = .none then (false, ifcfg)
    else
      match bmIfconfigFromOvsdb ifname (radioGetTypeFromStr value) (contains value "bs_allow") ifcfg with
      | (false, ifcfg) => (false, ifcfg)
      | (true, ifcfg) => bmIfconfigsFromOvsdb rest ifcfg

def radioTypeOfFreqBand (freqBand : Text) : RadioType :=
  if freqBand = "5GU".toList then .fiveGU
  else if freqBand = "5GL".toList then .fiveGL
  else if freqBand = "6G".toList then .sixG
  else .fiveG

def bmIfconfigsFromOvsdbOld (mapTable : List (Text × Text)) (row : Row) (ifcfg : List Ifconfig) : Bool × List Ifconfig :=
  match row.freqBand with
  | none => (false, ifcfg)
  | some freqBand =>
    match bmIfconfigFromOvsdb (targetMapIfname mapTable row.ifName2g) .twoG false ifcfg with
    | (false, ifcfg) => (false, ifcfg)
    | (true, ifcfg) =>
      bmIfconfigFromOvsdb (targetMapIfname mapTable row.ifName5g) (radioTypeOfFreqBand freqBand) true ifcfg

def bmGroupFromOvsdb (mapTable : List (Text × Text)) (row : Row) (group : Group) : Bool × Group :=
  let r := if row.ifnames ≠ [] then bmIfconfigsFromOvsdb row.ifnames [] else bmIfconfigsFromOvsdbOld mapTable row []
  (r.1, { group with ifcfg := r.2 })

/-! ## The table of a client -/

def Ifconfig.entry (i : Ifconfig) (uuid : Text) : Ifcfg := ⟨i.ifname, i.radioType, i.bsAllowed, uuid⟩

def bmClientIfcfgAdd (client : Client) (e : Ifcfg) : Bool × Client :=
  if bmClientIfcfgMax ≤ client.ifcfg.length then (false, client)
  else if client.ifcfg.any (·.ifname == e.ifname) then (false, client)
  else (true, { client with ifcfg := client.ifcfg ++ [e] })

def setFirst (e : Ifcfg) : List Ifcfg → Option (List Ifcfg)
  | [] => none
  | c :: l => if c.ifname = e.ifname then some (e :: l) else (setFirst e l).map (c :: ·)

def bmClientIfcfgSet (client : Client) (e : Ifcfg) : Bool × Client :=
  match setFirst e client.ifcfg with
  | some ifcfg => (true, { client with ifcfg := ifcfg })
  | none => bmClientIfcfgAdd client e

/-- The loop of `bm_client_ifcfg_remove` over what is left of the array, with its two positions. -/
def ifcfgRemoveLoop (ifname : Text) : Nat → Nat → Nat → List Ifcfg → List Ifcfg
  | 0, _, j, ifcfg => ifcfg.take j
  | n + 1, i, j, ifcfg =>
    let ifcfg := if i ≠ j then (ifcfg[i]?).elim ifcfg (ifcfg.set j) else ifcfg
    let j := if (ifcfg[i]?).any (·.ifname == ifname) then j + 1 else j
    ifcfgRemoveLoop ifname n (i + 1) j ifcfg

def bmClientIfcfgRemove (client : Client) (ifname : Text) : Client :=
  { client with ifcfg := ifcfgRemoveLoop ifname client.ifcfg.length 0 0 client.ifcfg }

/-! ## Clients and groups -/

def forIfaces (body : Ifconfig → Client → Bool × Client) : List Ifconfig → Client → Bool × Client
  | [], client => (true, client)
  | i :: rest, client =>
    match body i client with
    | (false, client) => (false, client)
    | (true, client) => forIfaces body rest client

def updateIface (d : Driver) (group : Group) (i : Ifconfig) (client : Client) : Bool × Client :=
  if d.ok (.clientUpdate i.ifname client.mac) then bmClientIfcfgSet client (i.entry group.uuid) else (false, client)

def bmClientUpdateGroup (d : Driver) (client : Client) (group : Group) : Bool × Client :=
  forIfaces (updateIface d group) group.ifcfg client

def bmClientUpdateAllGroups (d : Driver) (groups : List Group) (client : Client) : Client :=
  groups.foldl (fun client group => (bmClientUpdateGroup d client group).2) client

/-- A client that is connected to the interface belongs to the group. -/
def bmClientCheckConnected (d : Driver) (groups : List Group) (client : Client) (uuid : Text) (ifname : Text) :
    Client :=
  if d.connected.contains (ifname, client.mac) then
    let client := { client with group := some uuid }
    if d.endsBackoff.contains (ifname, client.mac) then bmClientUpdateAllGroups d groups client else client
  else client

def addIface (d : Driver) (groups : List Group) (group : Group) (i : Ifconfig) (client : Client) : Bool × Client :=
  if d.ok (.clientAdd i.ifname client.mac) then
    match bmClientIfcfgSet client (i.entry group.uuid) with
    | (false, client) => (false, client)
    | (true, client) => (true, bmClientCheckConnected d groups client group.uuid i.ifname)
  else (false, client)

def bmClientAddToGroup (d : Driver) (groups : List Group) (client : Client) (group : Group) : Bool × Client :=
  forIfaces (addIface d groups group) group.ifcfg client

def bmClientRemoveFromGroup (d : Driver) (client : Client) (group : Group) : Client :=
  let client := group.ifcfg.foldl (fun client i =>
    if d.ok (.clientRemove i.ifname client.mac) then bmClientIfcfgRemove client i.ifname else client) client
  { client with group := none }

def bmClientAddToAllGroups (d : Driver) (groups : List Group) (client : Client) : Client :=
  groups.foldl (fun client group => (bmClientAddToGroup d groups client group).2) client

/-! ## Events -/

inductive Event
  | insertRow (uuid : Text) (row : Row) (d : Driver)
  | modifyRow (uuid : Text) (row : Row) (d : Driver)
  | deleteRow (uuid : Text) (d : Driver)
  | addClient (mac : Mac) (d : Driver)
  | steerClient (ifname : Text) (mac : Mac)
  | connect (ifname : Text) (mac : Mac) (d : Driver)
  | removeClient (mac : Mac)
  deriving DecidableEq

def bmGroupFindByUuid (s : State) (uuid : Text) : Option Group := Keyed.find Group.uuid uuid s.groups

def bmGroupFindByIfname (s : State) (ifname : Text) : Option Group :=
  s.groups.find? fun group => group.ifcfg.any (·.ifname == ifname)

def bmClientFindByMacaddr (s : State) (mac : Mac) : Option Client := Keyed.find Client.mac mac s.clients

def macLt (m m' : Mac) : Bool := decide (m < m')

def bmGroupNew (s : State) (uuid : Text) (row : Row) (d : Driver) : State :=
  match bmGroupFromOvsdb s.mapTable row ⟨uuid, []⟩ with
  | (false, _) => s
  | (true, group) =>
    if group.ifcfg.all fun i => d.ok (.ifaceAdd i.ifname) then
      let groups := Keyed.insert Group.uuid strLt group s.groups
      { s with groups := groups, clients := s.clients.map fun c => (bmClientAddToGroup d groups c group).2 }
    else s

/-- The group is changed even if the row cannot be converted. -/
def bmGroupModify (s : State) (uuid : Text) (row : Row) (d : Driver) : State :=
  match bmGroupFindByUuid s uuid with
  | none => s
  | some group =>
    let r := bmGroupFromOvsdb s.mapTable row group
    let s := { s with groups := Keyed.replace Group.uuid r.2 s.groups }
    if r.1 && r.2.ifcfg.all fun i => d.ok (.ifaceUpdate i.ifname) then
      { s with clients := s.clients.map fun c => (bmClientUpdateGroup d c r.2).2 }
    else s

def bmGroupDelete (s : State) (uuid : Text) (d : Driver) : State :=
  match bmGroupFindByUuid s uuid with
  | none => s
  | some group =>
    { s with
      groups := Keyed.drop Group.uuid uuid s.groups
      clients := s.clients.map fun c => bmClientRemoveFromGroup d c group }

def insertClient (s : State) (client : Client) : State :=
  { s with clients := Keyed.insert Client.mac macLt client s.clients }

def bmClientNew (s : State) (mac : Mac) (d : Driver) : State :=
  match bmClientFindByMacaddr s mac with
  | some _ => s
  | none => insertClient s (bmClientAddToAllGroups d s.groups ⟨mac, [], none⟩)

/-- The driver has steered a client of its own accord; a client that is not known is only put into the tree. -/
def bmClientFindOrAddByMacaddr (s : State) (mac : Mac) : State :=
  match bmClientFindByMacaddr s mac with
  | some _ => s
  | none => insertClient s ⟨mac, [], none⟩

def bmEventsConnect (s : State) (group : Group) (ifname : Text) (mac : Mac) (d : Driver) : State :=
  match bmClientFindByMacaddr s mac with
  | none => s
  | some client =>
    { s with
      clients := Keyed.replace Client.mac (bmClientCheckConnected d s.groups client group.uuid ifname) s.clients }

def step (s : State) : Event → State
  | .insertRow uuid row d => bmGroupNew s uuid row d
  | .modifyRow uuid row d => bmGroupModify s uuid row d
  | .deleteRow uuid d => bmGroupDelete s uuid d
  | .addClient mac d => bmClientNew s mac d
  | .steerClient ifname mac =>
    match bmGroupFindByIfname s ifname with
    | none => s
    | some _ => bmClientFindOrAddByMacaddr s mac
  | .connect ifname mac d =>
    match bmGroupFindByIfname s ifname with
    | none => s
    | some group => bmEventsConnect s group ifname mac d
  | .removeClient mac => { s with clients := Keyed.drop Client.mac mac s.clients }

def run (s : State) (evs : List Event) : State := evs.foldl step s

end OpenSync.BmTable
