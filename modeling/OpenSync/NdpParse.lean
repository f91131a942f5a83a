import OpenSync.NetHeader

/-!
# Neighbours learned from captured packets

`ndp_parse.c` takes from ARP messages and neighbour discovery the pairs of an address and a MAC that it hands on to the
neighbour table. What it parses stays in a structure of the session, from one packet to the next. The bytes behind a
captured packet are those of some memory, and each function tells what it has read.
-/

namespace OpenSync.Ndp

open NetHeader

abbrev Mac := List UInt8

abbrev Memory := ℕ → UInt8

abbrev Range := ℕ × ℕ

def ethPArp : ℕ := 0x0806
def arphdrSize : ℕ := 8
def in6AddrSize : ℕ := 16
def ndOptHdrSize : ℕ := 2
def arphrdEther : ℕ := 1
def arpopRequest : ℕ := 1
def arpopReply : ℕ := 2
def ndNeighborSolicit : UInt8 := 135
def ndNeighborAdvert : UInt8 := 136
def ndOptSourceLinkaddr : UInt8 := 1
def ndOptTargetLinkaddr : UInt8 := 2

structure Packet where
  capture : Capture
  net : Parser
  data_eq : net.data = net.parsed
  parsed_le : net.parsed ≤ net.packetLen
  packetLen_le : net.packetLen ≤ capture.bytes.length
  icmp6hdr_le : net.ipProtocol = ipprotoIcmpv6 →
    ∃ off, net.ipPld = some (.icmp6hdr off) ∧ off + 8 ≤ capture.bytes.length
  ipv6hdr_le : ∀ off, netHeaderGetIpv6Hdr net = some off → off + ip6HdrSize ≤ capture.bytes.length
  srcmac_le : net.ethHeaderAvailable = true → net.ethHeader.srcmac + ethAlen ≤ capture.bytes.length

/-! ## Reading -/

namespace Packet

variable (pkt : Packet) (m : Memory)

def size : ℕ := pkt.capture.bytes.length

def byte (off : ℕ) : UInt8 := pkt.capture.bytes.getD off (m off)

def slice (off n : ℕ) : List UInt8 := (List.range n).map fun i => pkt.byte m (off + i)

def ntohs (off : ℕ) : ℕ := (pkt.byte m off).toNat * 256 + (pkt.byte m (off + 1)).toNat

def neighLen : ℕ := pkt.net.packetLen - pkt.net.parsed

/-- The pointer of the payload's union. -/
def icmp6hdr : ℕ :=
  match pkt.net.ipPld with
  | some (.udphdr off) | some (.tcphdr off) | some (.icmphdr off) | some (.icmp6hdr off) => off
  | none => 0

def srcmac : Option Mac :=
  if pkt.net.ethHeaderAvailable then some (pkt.slice m pkt.net.ethHeader.srcmac ethAlen) else none

end Packet

/-! ## State of a session -/

inductive NeighType
  | arp
  | icmpv6
  deriving DecidableEq

inductive Source
  | fsmArp
  | fsmNdp
  deriving DecidableEq

structure NeighbourEntry where
  ipaddr : List UInt8
  mac : Option Mac
  source : Source
  deriving DecidableEq

structure EthArp where
  sEth : Option Mac
  sIp : List UInt8
  tEth : Option Mac
  tIp : List UInt8

structure NdpParser where
  op : ℕ
  type : NeighType
  gratuitous : Bool
  arp : EthArp
  sender : NeighbourEntry
  target : NeighbourEntry
  entry : NeighbourEntry
  optMac : Option Mac

def NdpParser.fresh : NdpParser where
  op := 0
  type := .arp
  gratuitous := false
  arp := { sEth := none, sIp := [], tEth := none, tIp := [] }
  sender := { ipaddr := [], mac := none, source := .fsmArp }
  target := { ipaddr := [], mac := none, source := .fsmArp }
  entry := { ipaddr := [], mac := none, source := .fsmNdp }
  optMac := none

/-- What a function returns, the structure afterwards, and what was read of the packet. -/
structure Outcome where
  len : ℕ
  parser : NdpParser
  reads : List Range

variable (m : Memory) (pkt : Packet) (s : NdpParser)

/-! ## ARP -/

def arpParseIsGratuitous (arp : EthArp) : Bool :=
  match arp.tEth with
  | none => false
  | some tEth => tEth = List.replicate ethAlen 0 || tEth = List.replicate ethAlen 0xff

/-- The length of the header is all that is compared with what is left. -/
def arpParseContent : Outcome :=
  let data := pkt.net.data
  let len := pkt.neighLen
  if len < arphdrSize then ⟨0, s, []⟩
  else if pkt.ntohs m data ≠ arphrdEther then ⟨0, s, [(data, arphdrSize)]⟩
  else if pkt.ntohs m (data + 2) ≠ ethPIp then ⟨0, s, [(data, arphdrSize)]⟩
  else if (pkt.byte m (data + 4)).toNat ≠ ethAlen then ⟨0, s, [(data, arphdrSize)]⟩
  else if (pkt.byte m (data + 5)).toNat ≠ 4 then ⟨0, s, [(data, arphdrSize)]⟩
  else
    let arOp := pkt.ntohs m (data + 6)
    if arOp ≠ arpopRequest ∧ arOp ≠ arpopReply then ⟨0, s, [(data, arphdrSize)]⟩
    else
      let arp := { s.arp with sEth := some (pkt.slice m (data + 8) ethAlen), sIp := pkt.slice m (data + 14) 4 }
      let reads := [(data, arphdrSize), (data + 14, 4)]
      if arOp = arpopReply then
        let arp := { arp with tEth := some (pkt.slice m (data + 18) ethAlen) }
        let gratuitous := arpParseIsGratuitous arp
        let arp := { arp with tIp := pkt.slice m (data + 24) 4 }
        ⟨len, { s with op := arOp, arp, gratuitous }, reads ++ [(data + 18, ethAlen), (data + 24, 4)]⟩
      else ⟨len, { s with op := arOp, arp }, reads⟩

/-! ## Neighbour discovery -/

inductive LinkOption
  | rejected
  | absent
  | present (mac : Mac)

/-- The option behind the target address, looked at in the same way by `ndp_parse_solicit` and `ndp_parse_advert`. Its
length counts units of eight bytes and is compared with a number of bytes. -/
def linkOption (optType : UInt8) : LinkOption × List Range :=
  let data := pkt.net.data + in6AddrSize
  let len := pkt.neighLen - in6AddrSize
  if len = 0 then (.absent, [])
  else if len < ndOptHdrSize then (.rejected, [])
  else if len < (pkt.byte m (data + 1)).toNat then (.rejected, [(data, ndOptHdrSize)])
  else if pkt.byte m data ≠ optType then (.rejected, [(data, ndOptHdrSize)])
  else (.present (pkt.slice m (data + 2) ethAlen), [(data, ndOptHdrSize), (data + 2, ethAlen)])

/-- The source address of the packet becomes that of the entry. -/
def ndpPopulateSockaddr : Option (NdpParser × List Range) :=
  match netHeaderGetIpv6Hdr pkt.net with
  | none => none
  | some hdr =>
    some ({ s with entry := { s.entry with ipaddr := pkt.slice m (hdr + 8) in6AddrSize } }, [(hdr + 8, in6AddrSize)])

/-- How `ndp_parse_solicit` ends, with the MAC of this packet's option. -/
def ndpParseSolicitReport (optMac : Option Mac) (parsed : ℕ) (reads : List Range) : Outcome :=
  if s.optMac = none then ⟨0, s, reads⟩
  else
    match ndpPopulateSockaddr m pkt s with
    | none => ⟨0, s, reads⟩
    | some (s, read) => ⟨parsed, { s with entry := { s.entry with mac := optMac } }, reads ++ read⟩

def ndpParseSolicit : Outcome :=
  let data := pkt.net.data
  if pkt.neighLen < in6AddrSize then ⟨0, s, []⟩
  else
    let parsed := pkt.net.parsed + in6AddrSize
    match linkOption m pkt ndOptSourceLinkaddr with
    | (.rejected, reads) => ⟨0, s, (data, in6AddrSize) :: reads⟩
    | (.absent, reads) => ndpParseSolicitReport m pkt s none parsed ((data, in6AddrSize) :: reads)
    | (.present mac, reads) =>
      ndpParseSolicitReport m pkt { s with optMac := some mac } (some mac) (parsed + 2) ((data, in6AddrSize) :: reads)

/-- How `ndp_parse_advert` ends: the MAC that the structure keeps goes before that of the Ethernet header. -/
def ndpParseAdvertReport (parsed : ℕ) (reads : List Range) : Outcome :=
  let entry := { s.entry with ipaddr := pkt.slice m pkt.net.data in6AddrSize }
  match s.optMac with
  | some mac => ⟨parsed, { s with entry := { entry with mac := some mac } }, reads⟩
  | none => ⟨parsed, { s with entry := { entry with mac := pkt.srcmac m } }, reads⟩

def ndpParseAdvert : Outcome :=
  let data := pkt.net.data
  if pkt.neighLen < in6AddrSize then ⟨0, s, []⟩
  else
    let parsed := pkt.net.parsed + in6AddrSize
    match linkOption m pkt ndOptTargetLinkaddr with
    | (.rejected, reads) => ⟨0, s, (data, in6AddrSize) :: reads⟩
    | (.absent, reads) => ndpParseAdvertReport m pkt s parsed ((data, in6AddrSize) :: reads)
    | (.present mac, reads) =>
      ndpParseAdvertReport m pkt { s with optMac := some mac } (parsed + 2) ((data, in6AddrSize) :: reads)

def icmpv6ParseContent : Outcome :=
  let icmphdr := pkt.icmp6hdr
  if pkt.byte m (icmphdr + 1) ≠ 0 then ⟨0, s, [(icmphdr, 2)]⟩
  else
    let out :=
      if pkt.byte m icmphdr = ndNeighborSolicit then ndpParseSolicit m pkt s
      else if pkt.byte m icmphdr = ndNeighborAdvert then ndpParseAdvert m pkt s
      else ⟨0, s, []⟩
    { out with reads := (icmphdr, 2) :: out.reads }

/-! ## Messages -/

def ndpParseMessage : Outcome :=
  if pkt.net.ipProtocol = ipprotoIcmpv6 then
    let out := icmpv6ParseContent m pkt s
    { out with parser := { out.parser with type := .icmpv6 } }
  else if netHeaderGetEthertype pkt.net = ethPArp then
    let out := arpParseContent m pkt s
    { out with parser := { out.parser with type := .arp } }
  else ⟨0, s, []⟩

/-- The structure afterwards, with what was handed on to `neigh_table_add`. -/
def icmpv6ProcessMessage : NdpParser × List NeighbourEntry :=
  if s.entry.mac = none then (s, [])
  else
    let entry := { s.entry with source := .fsmNdp }
    ({ s with optMac := none, entry := { entry with mac := none } }, [entry])

def arpPopulateNeighEntries : NdpParser :=
  let s := { s with sender := { ipaddr := s.arp.sIp, mac := s.arp.sEth, source := .fsmArp } }
  if s.arp.tEth = none then s
  else { s with target := { ipaddr := s.arp.tIp, mac := s.arp.tEth, source := .fsmArp } }

def arpProcessMessage : NdpParser × List NeighbourEntry :=
  let s := arpPopulateNeighEntries s
  if s.op = arpopRequest then (s, [s.sender])
  else if s.gratuitous then (s, [s.sender])
  else if s.arp.tEth ≠ none then (s, [s.sender, s.target])
  else (s, [s.sender])

def ndpPluginHandler : NdpParser × List NeighbourEntry :=
  let out := ndpParseMessage m pkt s
  if out.len = 0 then (out.parser, [])
  else
    match out.parser.type with
    | .icmpv6 => icmpv6ProcessMessage out.parser
    | .arp =>
      let (s, learned) := arpProcessMessage out.parser
      ({ s with arp := { s.arp with sEth := none, tEth := none }, gratuitous := false }, learned)

end OpenSync.Ndp
