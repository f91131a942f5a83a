import OpenSync.Comparator
import OpenSync.FsmPolicy

/-!
# The gatekeeper cache

`gatekeeper_cache.c` keeps the verdicts of the gatekeeper for each device: a tree of attributes for each class, ordered
by a hash of direction and name, and a tree of flows for each direction. Deletion does not go by the hash: it takes the
first attribute of the tree that has the name.

The manager is initialised before anything else. `total_entry_count` is an integer, and the time is given with every
operation that reads it.
-/

namespace OpenSync.Gkc

open Fsm Keyed Comparator

/-- `enum gk_cache_request_type`. -/
inductive ReqType
  | unknown | fqdn | url | host | sni | ipv4 | ipv6 | app | inbound | outbound | hostname
  deriving DecidableEq

/-- The attribute trees of a device. -/
inductive AttrClass
  | hostname | url | ipv4 | ipv6 | app
  deriving DecidableEq

def AttrClass.all : List AttrClass := [.hostname, .url, .ipv4, .ipv6, .app]

/-- The tree that adding and looking up use. -/
def ReqType.attrClass : ReqType → Option AttrClass
  | .fqdn | .host | .sni => some .hostname
  | .url => some .url
  | .ipv4 => some .ipv4
  | .ipv6 => some .ipv6
  | .app => some .app
  | _ => none

/-- `gk_get_attribute_tree`, which knows the internal type as well. -/
def gkGetAttributeTree : ReqType → Option AttrClass
  | .hostname => some .hostname
  | t => t.attrClass

abbrev Mac := List UInt8

def fsmAllow : Nat := 2

def directionOutbound : Nat := 1

def directionInbound : Nat := 2

/-- A value stored in an `int`. -/
def toInt (n : Int) : Int := n.bmod (2 ^ 32)

/-! ## Keys -/

def murmurOAAT64 (key : Name) : UInt64 :=
  key.foldl (fun h c =>
    let h := (h ^^^ UInt64.ofNat c.toNat) * 0x5bd1e9955bd1e995
    h ^^^ (h >>> 47)) 0x749E3E6989DF617

def getAttrKey (name : Name) (direction : Nat) : UInt64 :=
  murmurOAAT64 (((toString direction).toList ++ '_' :: name).take 4095)

/-! ## Entries -/

structure Redirect where
  ips : Name × Name
  ttl : Int
  redirect : Bool
  deriving DecidableEq

inductive Hits
  | hostname (fqdn host sni : UInt64)
  | generic (total : UInt64)
  deriving DecidableEq

structure AttrCache where
  name : Name
  hits : Hits
  cacheTtl : Int
  cacheTs : Int
  action : Nat
  gkPolicy : Option Name
  categoryId : Nat
  confidenceLevel : Nat
  categorized : Int
  fqdnRedirect : Option Redirect
  direction : Nat
  key : UInt64
  deriving DecidableEq

structure IpFlow where
  srcIpAddr : List UInt8
  dstIpAddr : List UInt8
  srcPort : Nat
  dstPort : Nat
  ipVersion : Nat
  protocol : Nat
  action : Nat
  cacheTtl : Int
  gkPolicy : Option Name
  cacheTs : Int
  hits : UInt64
  deriving DecidableEq

inductive FlowDir
  | inbound | outbound
  deriving DecidableEq

structure PerDevice where
  deviceMac : Mac
  reqCounter : ReqType → UInt64
  allowed : ReqType → UInt64
  blocked : ReqType → UInt64
  attrs : AttrClass → List AttrCache
  flows : FlowDir → List IpFlow

structure Mgr where
  totalEntryCount : Int
  devices : List PerDevice

def Mgr.start : Mgr := ⟨0, []⟩

def gkcInitPerDev (mac : Mac) : PerDevice := ⟨mac, fun _ => 0, fun _ => 0, fun _ => 0, fun _ => [], fun _ => []⟩

def Mgr.device (m : Mgr) (mac : Mac) : Option PerDevice := find PerDevice.deviceMac mac m.devices

def Mgr.setDevice (m : Mgr) (d : PerDevice) : Mgr := { m with devices := replace PerDevice.deviceMac d m.devices }

def macLt (a b : Mac) : Bool := decide (a < b)

/-- The device with its tree, which may be created. -/
def Mgr.getDevice (m : Mgr) (mac : Mac) : PerDevice × Mgr :=
  match m.device mac with
  | some d => (d, m)
  | none => (gkcInitPerDev mac, { m with devices := Keyed.insert PerDevice.deviceMac macLt (gkcInitPerDev mac) m.devices })

def setAttrs (d : PerDevice) (c : AttrClass) (tree : List AttrCache) : PerDevice :=
  { d with attrs := Function.update d.attrs c tree }

def setFlows (d : PerDevice) (w : FlowDir) (tree : List IpFlow) : PerDevice :=
  { d with flows := Function.update d.flows w tree }

def bump (counter : ReqType → UInt64) (t : ReqType) : ReqType → UInt64 := Function.update counter t (counter t + 1)

/-! ## Attributes -/

/-- `gk_attr_cache_interface`. -/
structure AttrEntry where
  deviceMac : Mac
  attributeType : ReqType
  attrName : Name
  cacheTtl : Nat
  action : Nat
  direction : Nat
  gkPolicy : Option Name
  categoryId : Nat
  confidenceLevel : Nat
  hitCounter : Nat
  fqdnRedirect : Option Redirect
  categorized : Int

def redirectSize : Nat := 256

def gkAddNewRedirectEntry (input : Option Redirect) : Option Redirect :=
  input.map fun r =>
    if r.redirect then { r with ips := (r.ips.1.take (redirectSize - 1), r.ips.2.take (redirectSize - 1)) }
    else ⟨([], []), 0, false⟩

def newHits : ReqType → Hits
  | .fqdn => .hostname 1 0 0
  | .host => .hostname 0 1 0
  | .sni => .hostname 0 0 1
  | _ => .generic 1

def countHit : ReqType → Hits → Hits
  | .fqdn, .hostname fqdn host sni => .hostname (fqdn + 1) host sni
  | .host, .hostname fqdn host sni => .hostname fqdn (host + 1) sni
  | .sni, .hostname fqdn host sni => .hostname fqdn host (sni + 1)
  | _, .generic total => .generic (total + 1)
  | _, hits => hits

def hitsOf : ReqType → Hits → UInt64
  | .fqdn, .hostname fqdn _ _ => fqdn
  | .host, .hostname _ host _ => host
  | .sni, .hostname _ _ sni => sni
  | _, .generic total => total
  | _, _ => 0

/-- Only an entry for an FQDN takes the redirect. -/
def gkcNewAttrEntry (now : Int) (entry : AttrEntry) : AttrCache where
  name := entry.attrName
  hits := newHits entry.attributeType
  cacheTtl := toInt entry.cacheTtl
  cacheTs := now
  action := entry.action
  gkPolicy := entry.gkPolicy
  categoryId := entry.categoryId
  confidenceLevel := entry.confidenceLevel
  categorized := entry.categorized
  fqdnRedirect := if entry.attributeType = .fqdn then gkAddNewRedirectEntry entry.fqdnRedirect else none
  direction := entry.direction
  key := getAttrKey entry.attrName entry.direction

def keyLt (a b : UInt64) : Bool := decide (a < b)

def insertAttr (e : AttrCache) (tree : List AttrCache) : List AttrCache := Keyed.insert AttrCache.key keyLt e tree

def findAttr (entry : AttrEntry) (tree : List AttrCache) : Option AttrCache :=
  find AttrCache.key (getAttrKey entry.attrName entry.direction) tree

/-- A name that is there already is counted and made new again. -/
def gkcInsertHostName (now : Int) (entry : AttrEntry) (tree : List AttrCache) : Bool × List AttrCache :=
  match findAttr entry tree with
  | some e =>
    (false, replace AttrCache.key { e with hits := countHit entry.attributeType e.hits, cacheTs := now } tree)
  | none => (true, insertAttr (gkcNewAttrEntry now entry) tree)

def answer (updateCount : Bool) (req : AttrEntry) (e : AttrCache) : AttrEntry :=
  let hitCount : Int := if updateCount then toInt (hitsOf req.attributeType e.hits).toNat else toInt req.hitCounter
  { req with
    hitCounter := (hitCount % 2 ^ 64).toNat
    action := e.action % 256
    categorized := e.categorized
    categoryId := e.categoryId
    confidenceLevel := e.confidenceLevel
    fqdnRedirect := if req.attributeType = .fqdn ∧ req.fqdnRedirect ≠ none ∧ e.fqdnRedirect ≠ none then e.fqdnRedirect
      else req.fqdnRedirect
    gkPolicy := e.gkPolicy.or req.gkPolicy }

def gkcLookupAttrTree (updateCount : Bool) (req : AttrEntry) (tree : List AttrCache) :
    Option AttrEntry × List AttrCache :=
  match findAttr req tree with
  | none => (none, tree)
  | some e =>
    let e := if updateCount then { e with hits := countHit req.attributeType e.hits } else e
    (some (answer updateCount req e), replace AttrCache.key e tree)

def gkcLookupAttributeEntry (updateCount : Bool) (req : AttrEntry) (m : Mgr) : Option AttrEntry × Mgr :=
  match m.device req.deviceMac, req.attributeType.attrClass with
  | some d, some c =>
    match gkcLookupAttrTree updateCount req (d.attrs c) with
    | (none, _) => (none, m)
    | (some found, tree) =>
      (some found, m.setDevice { setAttrs d c tree with reqCounter := bump d.reqCounter req.attributeType })
  | _, _ => (none, m)

/-- An entry that is there already has been looked up. -/
def gkcInsertGeneric (now : Int) (entry : AttrEntry) (c : AttrClass) (d : PerDevice) : Bool × PerDevice :=
  match findAttr entry (d.attrs c) with
  | some _ => (false, { d with reqCounter := bump d.reqCounter entry.attributeType })
  | none => (true, setAttrs d c (insertAttr (gkcNewAttrEntry now entry) (d.attrs c)))

def gkcAddAttrTree (now : Int) (entry : AttrEntry) (c : AttrClass) (d : PerDevice) : Bool × PerDevice :=
  match c with
  | .hostname =>
    let r := gkcInsertHostName now entry (d.attrs c)
    (r.1, setAttrs d c r.2)
  | c => gkcInsertGeneric now entry c d

def countAdd (action : Nat) (t : ReqType) (d : PerDevice) : PerDevice :=
  if action = fsmAllow then { d with allowed := bump d.allowed t } else { d with blocked := bump d.blocked t }

def gkcAddAttributeEntry (gkMaxCacheEntries : UInt64) (now : Int) (entry : AttrEntry) (m : Mgr) : Bool × Mgr :=
  if m.totalEntryCount ≥ gkMaxCacheEntries.toNat then (false, m)
  else
    match entry.attributeType.attrClass with
    | none => (false, m)
    | some c =>
      let (d, m) := m.getDevice entry.deviceMac
      match gkcAddAttrTree now entry c d with
      | (false, d) => (false, m.setDevice d)
      | (true, d) =>
        (true, { m.setDevice (countAdd entry.action entry.attributeType d) with
          totalEntryCount := m.totalEntryCount + 1 })

/-! ## Deletion of attributes -/

/-- The first entry of the tree with the name, whatever its direction. -/
def gkcDelAttr (name : Name) (tree : List AttrCache) : Option (List AttrCache) :=
  if tree.any (·.name = name) then some (tree.eraseP (·.name = name)) else none

def gkcDelAttribute (req : AttrEntry) (m : Mgr) : Bool × Mgr :=
  match m.device req.deviceMac, gkGetAttributeTree req.attributeType with
  | some d, some c =>
    match gkcDelAttr req.attrName (d.attrs c) with
    | none => (false, m)
    | some tree => (true, { m.setDevice (setAttrs d c tree) with totalEntryCount := m.totalEntryCount - 1 })
  | _, _ => (false, m)

/-! ## Flows -/

/-- The length of an address is taken from a version of 16, which no entry has. -/
def gkcFlowEntryCmp (a b : IpFlow) : Int :=
  let ipl := if a.ipVersion = 16 then 16 else 4
  orElse (a.ipVersion - b.ipVersion)
    (orElse (memcmp ipl a.srcIpAddr b.srcIpAddr)
      (orElse (memcmp ipl a.dstIpAddr b.dstIpAddr)
        (orElse (a.protocol - b.protocol)
          (orElse (a.srcPort - b.srcPort) (a.dstPort - b.dstPort)))))

/-- `gkc_ip_flow_interface`. Sixteen bytes stand for the memory at an address, of which a version uses its own. -/
structure FlowReq where
  deviceMac : Mac
  srcIpAddr : Option (Vector UInt8 16)
  dstIpAddr : Option (Vector UInt8 16)
  srcPort : Nat
  dstPort : Nat
  ipVersion : Nat
  protocol : Nat
  direction : Nat
  action : Nat
  gkPolicy : Option Name
  hitCounter : Nat
  cacheTtl : Nat

def flowDir (direction : Nat) : Option FlowDir :=
  if direction = directionInbound then some .inbound
  else if direction = directionOutbound then some .outbound
  else none

/-- The tree and the addresses of a valid request. -/
def gkcIsFlowValid (req : FlowReq) : Option (FlowDir × Vector UInt8 16 × Vector UInt8 16) :=
  match flowDir req.direction, req.srcIpAddr, req.dstIpAddr with
  | some w, some src, some dst => if req.ipVersion = 4 ∨ req.ipVersion = 6 then some (w, src, dst) else none
  | _, _, _ => none

def gkcNewFlowEntry (now : Int) (req : FlowReq) (src dst : Vector UInt8 16) : IpFlow :=
  let ipLen := if req.ipVersion = 4 then 4 else 16
  ⟨src.toList.take ipLen, dst.toList.take ipLen, req.srcPort, req.dstPort, req.ipVersion, req.protocol, req.action,
    toInt req.cacheTtl, req.gkPolicy, now, 1⟩

def findFlow (f : IpFlow) (tree : List IpFlow) : Option IpFlow := tree.find? fun g => gkcFlowEntryCmp g f = 0

def insertFlow (f : IpFlow) (tree : List IpFlow) : List IpFlow :=
  tree.orderedInsert (fun f g => gkcFlowEntryCmp f g < 0) f

def flowKey (req : FlowReq) (src dst : Vector UInt8 16) : IpFlow :=
  { gkcNewFlowEntry 0 req src dst with srcIpAddr := src.toList, dstIpAddr := dst.toList }

def countFlowHit (updateCount : Bool) (f : IpFlow) : IpFlow := if updateCount then { f with hits := f.hits + 1 } else f

def replaceFlow (f g : IpFlow) (tree : List IpFlow) : List IpFlow :=
  tree.map fun h => if gkcFlowEntryCmp h f = 0 then g else h

def gkcLookupFlow (updateCount : Bool) (req : FlowReq) (m : Mgr) : Option FlowReq × Mgr :=
  match gkcIsFlowValid req, m.device req.deviceMac with
  | some (w, src, dst), some d =>
    match findFlow (flowKey req src dst) (d.flows w) with
    | none => (none, m)
    | some f =>
      let g := countFlowHit updateCount f
      (some { req with hitCounter := g.hits.toNat },
        m.setDevice (setFlows d w (replaceFlow (flowKey req src dst) g (d.flows w))))
  | _, _ => (none, m)

def gkcAddFlowTree (now : Int) (req : FlowReq) (d : PerDevice) : Option PerDevice :=
  (gkcIsFlowValid req).map fun (w, src, dst) =>
    setFlows d w (insertFlow (gkcNewFlowEntry now req src dst) (d.flows w))

/-- A flow that is not allowed counts down. -/
def countFlowAdd (action : Nat) (t : ReqType) (d : PerDevice) : PerDevice :=
  if action = fsmAllow then { d with allowed := bump d.allowed t }
  else { d with blocked := Function.update d.blocked t (d.blocked t - 1) }

def flowType (direction : Nat) : ReqType := if direction = directionInbound then .inbound else .outbound

def gkcAddFlowEntry (gkMaxCacheEntries : UInt64) (now : Int) (req : FlowReq) (m : Mgr) : Bool × Mgr :=
  if (gkcLookupFlow false req m).1.isSome then (false, m)
  else if m.totalEntryCount ≥ gkMaxCacheEntries.toNat then (false, m)
  else
    let (d, m) := m.getDevice req.deviceMac
    match gkcAddFlowTree now req d with
    | none => (false, m)
    | some d =>
      (true, { m.setDevice (countFlowAdd req.action (flowType req.direction) d) with
        totalEntryCount := m.totalEntryCount + 1 })

def gkcDelFlowFromTree (f : IpFlow) (tree : List IpFlow) : Option (List IpFlow) :=
  if tree.any (gkcFlowEntryCmp · f = 0) then some (tree.eraseP (gkcFlowEntryCmp · f = 0)) else none

def gkcDelFlow (req : FlowReq) (m : Mgr) : Bool × Mgr :=
  match gkcIsFlowValid req, m.device req.deviceMac with
  | some (w, src, dst), some d =>
    match gkcDelFlowFromTree (flowKey req src dst) (d.flows w) with
    | none => (false, m)
    | some tree => (true, { m.setDevice (setFlows d w tree) with totalEntryCount := m.totalEntryCount - 1 })
  | _, _ => (false, m)

/-! ## Sweeping -/

inductive Item
  | attr (c : AttrClass) (e : AttrCache)
  | flow (w : FlowDir) (f : IpFlow)
  deriving DecidableEq

def items (d : PerDevice) : List Item :=
  AttrClass.all.flatMap (fun c => (d.attrs c).map (Item.attr c)) ++
    [FlowDir.inbound, .outbound].flatMap fun w => (d.flows w).map (Item.flow w)

/-- Every tree is walked from its head, and the entries that are doomed are removed. -/
def sweepDevice (doomed : Item → Bool) (d : PerDevice) : PerDevice :=
  { d with
    attrs := fun c => (d.attrs c).filter fun e => !doomed (.attr c e)
    flows := fun w => (d.flows w).filter fun f => !doomed (.flow w f) }

def Item.expired (now : Int) : Item → Bool
  | .attr _ e => !decide (now - e.cacheTs < e.cacheTtl)
  | .flow _ f => !decide (now - f.cacheTs < f.cacheTtl)

/-- `gkc_ttl_cleanup`, with one count down for each entry. -/
def gkcTtlCleanup (now : Int) (m : Mgr) : Mgr where
  totalEntryCount := m.totalEntryCount - (m.devices.map fun d => (items d).countP (Item.expired now)).sum
  devices := m.devices.map (sweepDevice (Item.expired now))

def gkCacheCleanup (_m : Mgr) : Mgr := ⟨0, []⟩

/-! ## What is stored -/

def deviceItems (d : PerDevice) : List (Mac × Item) := (items d).map (d.deviceMac, ·)

def Mgr.stored (m : Mgr) : List (Mac × Item) := m.devices.flatMap deviceItems

theorem items_sweepDevice (doomed : Item → Bool) (d : PerDevice) :
    items (sweepDevice doomed d) = (items d).filter fun x => !doomed x := by
  simp [items, AttrClass.all, sweepDevice, List.filter_append, List.filter_map, Function.comp_def]

end OpenSync.Gkc
