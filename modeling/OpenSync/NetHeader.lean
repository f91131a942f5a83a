import Mathlib

/-!
# Headers of a captured packet

`net_header_parse.c` goes through the headers of a captured packet, one layer after the other: the link, the network with
the extension headers of its sixth version, and the transport. A read outside the captured bytes ends without a result.
Addresses are offsets from the first byte.
-/

namespace OpenSync.NetHeader

/-- What was captured, and on which type of link. No object has more than half of all addresses. -/
structure Capture where
  bytes : List UInt8
  pcapDatalink : Int
  short : bytes.length < 2 ^ 63

variable (c : Capture)

def Capture.read (off : ℕ) : Option ℕ := c.bytes[off]?.map UInt8.toNat

def Capture.ntohs (off : ℕ) : Option ℕ := do
  let high ← c.read off
  let low ← c.read (off + 1)
  some (high * 256 + low)

inductive EthPayload
  | payload (off : ℕ)
  | iphdr (off : ℕ)
  | ipv6hdr (off : ℕ)

inductive IpPayload
  | udphdr (off : ℕ)
  | tcphdr (off : ℕ)
  | icmphdr (off : ℕ)
  | icmp6hdr (off : ℕ)

structure EthHeader where
  dstmac : ℕ
  srcmac : ℕ
  ethertype : ℕ
  vlanId : ℕ

structure Parser where
  packetLen : ℕ
  parsed : ℕ
  ethHeader : EthHeader
  ipVersion : ℕ
  ipProtocol : ℕ
  ethPld : EthPayload
  ipPld : Option IpPayload
  data : ℕ
  start : ℕ
  ethHeaderAvailable : Bool

/-- What a function returns, and the parser afterwards; nothing after a read outside the packet. -/
abbrev Result := Option (ℕ × Parser)

/-- Difference of two numbers of type `size_t`. -/
@[irreducible] def sizeSub (a b : ℕ) : ℕ := (a + 2 ^ 64 - b) % 2 ^ 64

def ethAlen : ℕ := 6
def ethHlen : ℕ := 14
def ethPIp : ℕ := 0x0800
def ethPIpv6 : ℕ := 0x86DD
def ethP8021Q : ℕ := 0x8100
def dltLinuxSll : Int := 113

/-! ## Link -/

def netHeaderParseEth (p : Parser) : Result :=
  let p := { p with parsed := 0 }
  if p.packetLen < ethHlen then some (0, p)
  else do
    let bytes := p.data
    let parsed := if c.pcapDatalink = dltLinuxSll then 2 * ethAlen + 2 else 2 * ethAlen
    let ethertype ← c.ntohs (bytes + parsed)
    let (ethertype, vlanId, parsed) ←
      if ethertype = ethP8021Q then do
        let vlanId ← c.ntohs (bytes + (parsed + 2))
        let ethertype ← c.ntohs (bytes + (parsed + 4))
        some (ethertype, vlanId % 4096, parsed + 4)
      else some (ethertype, 0, parsed)
    let parsed := parsed + 2
    some (parsed, { p with
      ethHeader := { dstmac := p.data, srcmac := p.data + ethAlen, ethertype, vlanId }
      parsed
      data := p.data + parsed
      ethPld := .payload (p.data + parsed)
      ethHeaderAvailable := true })

def netHeaderGetEthertype (p : Parser) : ℕ := p.ethHeader.ethertype

/-! ## Network -/

def iphdrSize : ℕ := 20
def ip6HdrSize : ℕ := 40

/-- The length of the data is compared with all that is left, header included. -/
def netHeaderParseIpv4 (p : Parser) : Result :=
  let len := sizeSub p.packetLen p.parsed
  if len < iphdrSize then some (0, p)
  else do
    let hdr := p.data
    let p := { p with ethPld := .iphdr hdr }
    let ihl ← c.read hdr
    let ipHlen := ihl % 16 * 4
    let totLen ← c.ntohs (hdr + 2)
    let ipDlen := sizeSub totLen ipHlen
    if len < ipDlen then some (0, p)
    else do
      let protocol ← c.read (hdr + 9)
      let p := { p with
        parsed := p.parsed + ipHlen
        data := p.data + ipHlen
        ipVersion := 4
        ipProtocol := protocol }
      let p := { p with packetLen := p.parsed + ipDlen }
      some (p.parsed, p)

def ipv6ExtensionsIds : List ℕ := [0, 43, 44, 50, 51, 60, 135, 139, 140, 253, 254]

/-- The table has items of 32 bits and is searched as one of items of 16 bits, on a machine that stores the low half
first. -/
def ipv6ExtensionsHalves : List ℕ := (ipv6ExtensionsIds.flatMap fun id => [id % 65536, id / 65536]).take 11

def bsearch (key : ℕ) (table : List ℕ) : ℕ → ℕ → ℕ → Bool
  | 0, _, _ => false
  | fuel + 1, low, high =>
    if low < high then
      let mid := (low + high) / 2
      let item := table.getD mid 0
      if key < item then bsearch key table fuel low mid
      else if item < key then bsearch key table fuel (mid + 1) high
      else true
    else false

def isIpv6Extension (id : ℕ) : Bool := bsearch id ipv6ExtensionsHalves 11 0 11

example : (List.range 256).filter isIpv6Extension = [0, 51, 60] := by decide +kernel

def netHeaderGetIpv6Hdr (p : Parser) : Option ℕ :=
  if netHeaderGetEthertype p ≠ ethPIpv6 then none
  else if p.ipVersion ≠ 6 then none
  else
    match p.ethPld with
    | .payload off | .iphdr off | .ipv6hdr off => some off

/-- The loop over extension headers. -/
def ipv6PayloadLoop : ℕ → Parser → ℕ → Result
  | 0, _, _ => none
  | fuel + 1, p, nextHeader =>
    if isIpv6Extension nextHeader then do
      let nextHeader ← c.read p.data
      let extLen ← c.read (p.data + 1)
      let len := 8 * (extLen + 1)
      if p.parsed + len > p.packetLen then some (0, p)
      else ipv6PayloadLoop fuel { p with data := p.data + len, parsed := p.parsed + len } nextHeader
    else
      let p := { p with ipProtocol := nextHeader }
      some (p.parsed, p)

/-- Every header has at least eight bytes. -/
def netHeaderGetIpv6Payload (p : Parser) : Result :=
  match netHeaderGetIpv6Hdr p with
  | none => some (0, p)
  | some hdr => do
    let nextHeader ← c.read (hdr + 6)
    ipv6PayloadLoop c (p.packetLen + 1) p nextHeader

def netHeaderParseIpv6 (p : Parser) : Result :=
  let len := sizeSub p.packetLen p.parsed
  let ipHlen := ip6HdrSize
  if len < ipHlen then some (0, p)
  else do
    let hdr := p.data
    let p := { p with ethPld := .ipv6hdr hdr }
    let ipDlen ← c.ntohs (hdr + 4)
    if len < ipDlen then some (0, p)
    else do
      let p := { p with parsed := p.parsed + ipHlen, data := p.data + ipHlen, ipVersion := 6 }
      let p := { p with packetLen := p.parsed + ipDlen }
      let (len, p) ← netHeaderGetIpv6Payload c p
      if len = 0 then some (0, p) else some (p.parsed, p)

def netHeaderParseIp (p : Parser) : Result :=
  let ethertype := netHeaderGetEthertype p
  if ethertype = ethPIp then netHeaderParseIpv4 c p
  else if ethertype = ethPIpv6 then netHeaderParseIpv6 c p
  else some (0, p)

/-! ## Transport -/

/-- The offset of the data is read before anything is compared. -/
def netHeaderParseTcp (p : Parser) : Result := do
  let hdr := p.data
  let len := sizeSub p.packetLen p.parsed
  let doff ← c.read (hdr + 12)
  let tcpHlen := doff / 16 * 4
  if len < tcpHlen then some (0, p)
  else some (tcpHlen, { p with ipPld := some (.tcphdr hdr), parsed := p.parsed + tcpHlen, data := p.data + tcpHlen })

def parseEightBytes (hdr : ℕ → IpPayload) (p : Parser) : Result :=
  let len := sizeSub p.packetLen p.parsed
  let hlen := 8
  if len < hlen then some (0, p)
  else some (hlen, { p with ipPld := some (hdr p.data), parsed := p.parsed + hlen, data := p.data + hlen })

def netHeaderParseUdp (p : Parser) : Result := parseEightBytes .udphdr p

def netHeaderParseIcmp (p : Parser) : Result := parseEightBytes .icmphdr p

def netHeaderParseIcmp6 (p : Parser) : Result := parseEightBytes .icmp6hdr p

def ipprotoIcmp : ℕ := 1
def ipprotoTcp : ℕ := 6
def ipprotoUdp : ℕ := 17
def ipprotoIcmpv6 : ℕ := 58

/-- What comes behind the network; `len` is what is returned when that is left to the owner of the packet. -/
def parseTransport (len : ℕ) (p : Parser) : Result :=
  if p.ipProtocol = ipprotoTcp then netHeaderParseTcp c p
  else if p.ipProtocol = ipprotoUdp then netHeaderParseUdp p
  else if p.ipProtocol = ipprotoIcmp then netHeaderParseIcmp p
  else if p.ipProtocol = ipprotoIcmpv6 then netHeaderParseIcmp6 p
  else some (len, p)

def netHeaderParse (p : Parser) : Result := do
  let p := { p with start := p.data, parsed := 0 }
  let (len, p) ← netHeaderParseEth c p
  if len = 0 then some (0, p)
  else
    let ethertype := netHeaderGetEthertype p
    if ¬ (ethertype = ethPIp ∨ ethertype = ethPIpv6) then some (len, p)
    else do
      let (len, p) ← netHeaderParseIp c p
      if len = 0 then some (0, p) else parseTransport c len p

end OpenSync.NetHeader
