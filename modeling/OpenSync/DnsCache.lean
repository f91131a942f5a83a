import OpenSync.Address
import OpenSync.Keyed

/-!
# The cache of DNS verdicts

`dns_cache.c` caches, for a device and an address, the verdict of a policy check: the action, the policy and the
categories, and data of the service that gave it. A verdict for a new key is copied in by one function, the verdict
for a key in the cache is refreshed by another, and a lookup copies it out. The payload union is modelled as its
three members; each function reads the member of the service.
-/

namespace OpenSync.DnsCache

open Keyed Net

/-- An array of `URL_REPORT_MAX_ELEMS` bytes. -/
abbrev Slots := Fin 8 → UInt8

structure BcInfo where
  confidenceLevels : Slots
  reputation : UInt8

structure WbInfo where
  riskLevel : UInt8

structure GkInfo where
  confidenceLevel : UInt32
  categoryId : UInt32
  gkPolicy : Option (List Char)

structure CacheInfo where
  bc : BcInfo
  wb : WbInfo
  gk : GkInfo

/-- A request; it uses at most all slots. -/
structure Ip2actionReq where
  deviceMac : Mac
  ipAddr : Ip
  cacheTtl : Int
  action : Int
  policyIdx : UInt8
  serviceId : Int
  nelems : Fin 9
  redirectFlag : Bool
  categories : Slots
  catUnknownToService : Bool
  info : CacheInfo

structure Ip2action extends Ip2actionReq where
  cacheTs : Int

structure Key where
  mac : Mac
  ip : Ip
  deriving DecidableEq

def Ip2actionReq.key (r : Ip2actionReq) : Key := ⟨r.deviceMac, r.ipAddr⟩

def Ip2action.key (e : Ip2action) : Key := e.toIp2actionReq.key

def bcSvc : Int := 0

def wpSvc : Int := 1

def gkSvc : Int := 2

/-- `memcmp` of two hardware addresses has the sign of their difference. -/
def ip2actionCmp (a b : Key) : Int :=
  let macCmp : Int := (a.mac.toNat : Int) - b.mac.toNat
  if macCmp ≠ 0 then macCmp else ipCmp a.ip b.ip

theorem ip2actionCmp_eq_zero (a b : Key) : ip2actionCmp a b = 0 ↔ a = b := by
  rcases a with ⟨ma, ia⟩
  rcases b with ⟨mb, ib⟩
  by_cases hm : ma = mb
  · subst hm
    simp [ip2actionCmp, ipCmp_eq_zero]
  · have hne : (ma.toNat : Int) - mb.toNat ≠ 0 := by
      have := BitVec.toNat_inj.not.mpr hm
      omega
    simp [ip2actionCmp, hne, hm]

def lt (a b : Key) : Bool := ip2actionCmp a b < 0

theorem lt_irrefl (k : Key) : lt k k = false := by
  have h : ip2actionCmp k k = 0 := (ip2actionCmp_eq_zero k k).mpr rfl
  simp [lt, h]

/-! ## The payload -/

def copySlots (n : Nat) (dst src : Slots) : Slots := fun i => if i.val < n then src i else dst i

def setWbCacheEntry (dst src : WbInfo) : Bool × WbInfo :=
  if src.riskLevel = 0 then (false, dst) else (true, ⟨src.riskLevel⟩)

def setBcCacheEntry (dst src : BcInfo) (nelems : Nat) : Bool × BcInfo :=
  if src.reputation = 0 then (false, dst)
  else if nelems = 0 then (false, { dst with reputation := src.reputation })
  else (true, ⟨copySlots nelems dst.confidenceLevels src.confidenceLevels, src.reputation⟩)

def setGkCacheEntry (dst src : GkInfo) : Bool × GkInfo :=
  (true, ⟨src.confidenceLevel, src.categoryId, src.gkPolicy <|> dst.gkPolicy⟩)

/-- The payload of the service, copied by its own function. -/
def setService (serviceId : Int) (nelems : Nat) (dst src : CacheInfo) : Bool × CacheInfo :=
  if serviceId = bcSvc then
    let r := setBcCacheEntry dst.bc src.bc nelems
    (r.1, { dst with bc := r.2 })
  else if serviceId = wpSvc then
    let r := setWbCacheEntry dst.wb src.wb
    (r.1, { dst with wb := r.2 })
  else if serviceId = gkSvc then
    let r := setGkCacheEntry dst.gk src.gk
    (r.1, { dst with gk := r.2 })
  else (false, dst)

/-- Memory as `CALLOC` returns it. -/
def zeroInfo : CacheInfo := ⟨⟨fun _ => 0, 0⟩, ⟨0⟩, ⟨0, 0, none⟩⟩

/-! ## The cache -/

structure State where
  initialized : Bool
  cacheHitCount : Int → UInt32
  ip2aTree : List Ip2action
  entries : Int

def init : State := ⟨true, fun _ => 0, [], 0⟩

def find (s : State) (k : Key) : Option Ip2action := Keyed.find Ip2action.key k s.ip2aTree

def updateIp2action (e : Ip2action) (toUpd : Ip2actionReq) (now : Int) : Ip2action :=
  { e with
    action := toUpd.action
    redirectFlag := toUpd.redirectFlag
    cacheTtl := toUpd.cacheTtl
    cacheTs := now }

def allocIp2action (toAdd : Ip2actionReq) (now : Int) : Option Ip2action :=
  let payload := setService toAdd.serviceId toAdd.nelems zeroInfo toAdd.info
  if payload.1 then
    some { toAdd with
      categories := copySlots toAdd.nelems (fun _ => 0) toAdd.categories
      info := payload.2
      cacheTs := now }
  else none

def dnsCacheAddEntry (s : State) (toAdd : Ip2actionReq) (now : Int) : Bool × State :=
  if !s.initialized then (false, s)
  else
    match find s toAdd.key with
    | some e => (true, { s with ip2aTree := replace Ip2action.key (updateIp2action e toAdd now) s.ip2aTree })
    | none =>
      match allocIp2action toAdd now with
      | none => (false, s)
      | some e => (true, { s with ip2aTree := insert Ip2action.key lt e s.ip2aTree, entries := s.entries + 1 })

def dnsCacheDelEntry (s : State) (toDel : Ip2actionReq) : Bool × State :=
  if !s.initialized then (false, s)
  else
    match find s toDel.key with
    | none => (true, s)
    | some e => (true, { s with ip2aTree := drop Ip2action.key e.key s.ip2aTree, entries := s.entries - 1 })

def fresh (now : Int) (e : Ip2action) : Bool := decide (now - e.cacheTs < e.cacheTtl)

def dnsCacheTtlCleanup (s : State) (now : Int) : Bool × State :=
  if !s.initialized then (false, s)
  else (true, { s with
    ip2aTree := s.ip2aTree.filter (fresh now)
    entries := s.entries - (s.ip2aTree.filter fun e => !fresh now e).length })

structure LookedUp where
  found : Bool
  req : Ip2actionReq
  state : State

def dnsCacheIp2actionLookup (s : State) (req : Ip2actionReq) : LookedUp :=
  match find s req.key with
  | none => ⟨false, req, s⟩
  | some e =>
    let payload := setService e.serviceId e.nelems req.info e.info
    ⟨decide (e.serviceId = bcSvc) || decide (e.serviceId = wpSvc) || decide (e.serviceId = gkSvc),
      { e.toIp2actionReq with
        deviceMac := req.deviceMac
        ipAddr := req.ipAddr
        categories := copySlots e.nelems req.categories e.categories
        info := payload.2 },
      if e.catUnknownToService then s
      else { s with cacheHitCount := Function.update s.cacheHitCount e.serviceId (s.cacheHitCount e.serviceId + 1) }⟩

end OpenSync.DnsCache
