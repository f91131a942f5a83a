import OpenSync.NetHeaderInside

/-!
# Extension headers

The chain of extension headers behind a header of version 6. The types are looked up in a table of integers that is
searched as one of half their size: of the types of the chain it finds two, and the chain is left at the first header of
another type.
-/

namespace OpenSync.NetHeader

inductive ExtKind
  | hopByHop | routing | fragment | dstOptions | mobility
  deriving DecidableEq

def ExtKind.id : ExtKind → UInt8
  | .hopByHop => 0
  | .routing => 43
  | .fragment => 44
  | .dstOptions => 60
  | .mobility => 135

/-- An extension header behind its first two bytes: its length is counted in units of eight bytes, the first of them left
out. -/
structure ExtHeader where
  kind : ExtKind
  extLen : UInt8
  body : List UInt8
  body_length : body.length = 8 * extLen.toNat + 6
  fragment : kind = .fragment → extLen = 0

def nextId (exts : List ExtHeader) (upper : UInt8) : UInt8 :=
  match exts with
  | [] => upper
  | e :: _ => e.kind.id

@[grind =] def extBytes (upper : UInt8) : List ExtHeader → List UInt8
  | [] => []
  | e :: exts => nextId exts upper :: e.extLen :: (e.body ++ extBytes upper exts)

/-- A packet: its header around the length and the first type, the extension headers, and what they carry. -/
structure Ipv6Packet where
  versionClassFlow : Vector UInt8 4
  hopLimitAddresses : Vector UInt8 33
  exts : List ExtHeader
  upper : UInt8
  upper_not_ext : upper.toNat ∉ ipv6ExtensionsIds
  upperLayer : List UInt8
  short : (extBytes upper exts ++ upperLayer).length < 65536

open List Option

def Ipv6Packet.payload (x : Ipv6Packet) : List UInt8 := extBytes x.upper x.exts ++ x.upperLayer

def Ipv6Packet.bytes (x : Ipv6Packet) : List UInt8 :=
  x.versionClassFlow.toList ++
    ((x.payload.length / 256).toUInt8 :: (x.payload.length % 256).toUInt8 :: nextId x.exts x.upper ::
      (x.hopLimitAddresses.toList ++ x.payload))

/-- The packet behind its link header, and the padding of the link. -/
structure CapturedIpv6 where
  pcapDatalink : Int
  link : List UInt8
  packet : Ipv6Packet
  padding : List UInt8
  short : (link ++ (packet.bytes ++ padding)).length < 2 ^ 63

def CapturedIpv6.capture (x : CapturedIpv6) : Capture := ⟨x.link ++ (x.packet.bytes ++ x.padding), x.pcapDatalink, x.short⟩

def CapturedIpv6.present (x : CapturedIpv6) (p : Parser) : Parser :=
  { p with
    packetLen := x.capture.bytes.length
    parsed := x.link.length
    data := x.link.length
    ethHeader := { p.ethHeader with ethertype := ethPIpv6 } }

def Skipped (x : CapturedIpv6) (r : Result) : Prop :=
  ∃ p, r = some (p.parsed, p) ∧ p.parsed ≠ 0 ∧ p.ipProtocol = x.packet.upper.toNat ∧
    p.data = x.link.length + ip6HdrSize + (extBytes x.packet.upper x.packet.exts).length

/-! ## The loop without a bound -/

/-- Each turn leaves less of the packet. -/
def ipv6Payload (c : Capture) (p : Parser) (nextHeader : ℕ) : Result :=
  if isIpv6Extension nextHeader then do
    let nextHeader ← c.read p.data
    let extLen ← c.read (p.data + 1)
    let len := 8 * (extLen + 1)
    if p.parsed + len > p.packetLen then some (0, p)
    else ipv6Payload c { p with data := p.data + len, parsed := p.parsed + len } nextHeader
  else
    let p := { p with ipProtocol := nextHeader }
    some (p.parsed, p)
termination_by p.packetLen - p.parsed
decreasing_by omega

theorem ipv6PayloadLoop_eq (c : Capture) (fuel : ℕ) {p : Parser} (h : p.packetLen - p.parsed < fuel) (nextHeader : ℕ) :
    ipv6PayloadLoop c fuel p nextHeader = ipv6Payload c p nextHeader := by
  induction fuel generalizing p nextHeader with
  | zero => omega
  | succ fuel ih =>
    rw [ipv6PayloadLoop, ipv6Payload.eq_def]
    split
    · refine congrArg (Option.bind _) (funext fun nextHeader => congrArg (Option.bind _) (funext fun extLen => ?_))
      dsimp only
      split
      · rfl
      · refine ih ?_ nextHeader
        dsimp only
        omega
    · rfl

/-! ## The chain -/

def ExtKind.Found (kind : ExtKind) : Prop := kind = .hopByHop ∨ kind = .dstOptions

instance (kind : ExtKind) : Decidable kind.Found := inferInstanceAs (Decidable (_ ∨ _))

theorem isIpv6Extension_kind (kind : ExtKind) : isIpv6Extension kind.id.toNat = true ↔ kind.Found := by
  cases kind <;> decide +kernel

theorem kind_mem_ids (kind : ExtKind) : kind.id.toNat ∈ ipv6ExtensionsIds := by
  cases kind <;> decide

theorem isIpv6Extension_upper {upper : UInt8} (h : upper.toNat ∉ ipv6ExtensionsIds) :
    isIpv6Extension upper.toNat = false := by
  have hf : ∀ n < 256, isIpv6Extension n = true → n ∈ ipv6ExtensionsIds := by decide +kernel
  by_contra hex
  exact h (hf upper.toNat upper.toNat_lt (by simpa using hex))

theorem read_of_drop {c : Capture} {off : ℕ} {b : UInt8} {l : List UInt8} (h : c.bytes.drop off = b :: l) :
    c.read off = some b.toNat := by
  have hg : (c.bytes.drop off)[0]? = some b := by rw [h, getElem?_cons_zero]
  rw [getElem?_drop, Nat.add_zero] at hg
  rw [Capture.read, hg, map_some]

theorem length_extBytes_cons (upper : UInt8) (e : ExtHeader) (exts : List ExtHeader) :
    (extBytes upper (e :: exts)).length = 8 * (e.extLen.toNat + 1) + (extBytes upper exts).length := by
  simp only [extBytes, length_cons, length_append, e.body_length]
  omega

theorem ipv6Payload_chain (c : Capture) {upper : UInt8} (hu : upper.toNat ∉ ipv6ExtensionsIds) (exts : List ExtHeader)
    {rest : List UInt8} {p : Parser} (hby : c.bytes.drop p.data = extBytes upper exts ++ rest)
    (hfit : p.parsed + (extBytes upper exts).length ≤ p.packetLen) :
    ∃ skipped others, exts = skipped ++ others ∧ (∀ e ∈ skipped, e.kind.Found) ∧
      (∀ e ∈ others.head?, ¬ e.kind.Found) ∧ ∃ n, n + (extBytes upper others).length = (extBytes upper exts).length ∧
        ipv6Payload c p (nextId exts upper).toNat = some (p.parsed + n, { p with
          data := p.data + n, parsed := p.parsed + n, ipProtocol := (nextId others upper).toNat }) := by
  induction exts generalizing p with
  | nil =>
    refine ⟨[], [], rfl, fun e he => absurd he not_mem_nil, nofun, 0, rfl, ?_⟩
    rw [ipv6Payload, nextId, isIpv6Extension_upper hu, if_neg Bool.false_ne_true]
    rfl
  | cons e exts ih =>
    by_cases hf : e.kind.Found
    · have hl := length_extBytes_cons upper e exts
      have hfi := read_of_drop hby
      have hs : c.read (p.data + 1) = some e.extLen.toNat := by
        refine read_of_drop (l := (e.body ++ extBytes upper exts) ++ rest) ?_
        rw [← drop_drop, hby]
        rfl
      -- behind this header the chain goes on
      have hne : c.bytes.drop (p.data + 8 * (e.extLen.toNat + 1)) = extBytes upper exts ++ rest := by
        have hsp : 8 * (e.extLen.toNat + 1) = 2 + e.body.length := by
          rw [e.body_length]
          omega
        rw [← drop_drop, hby, hsp, extBytes, cons_append, cons_append, append_assoc]
        rw [show 2 + e.body.length = e.body.length + 1 + 1 by omega, drop_succ_cons, drop_succ_cons, drop_left]
      obtain ⟨skipped, others, hex, hsk, ho, n, hn, hr⟩ := ih
        (p := { p with
          data := p.data + 8 * (e.extLen.toNat + 1), parsed := p.parsed + 8 * (e.extLen.toNat + 1) }) hne
        (by dsimp only; omega)
      refine ⟨e :: skipped, others, by rw [hex]; rfl, forall_mem_cons.mpr ⟨hf, hsk⟩, ho,
        8 * (e.extLen.toNat + 1) + n, by omega, ?_⟩
      · rw [ipv6Payload, nextId, if_pos ((isIpv6Extension_kind e.kind).mpr hf)]
        simp only [hfi, hs, bind_eq_bind, bind_some]
        rw [if_neg (by omega), hr]
        simp [Nat.add_assoc]
    · refine ⟨[], e :: exts, rfl, fun b hb => absurd hb not_mem_nil, ?_, 0, Nat.zero_add _, ?_⟩
      · rintro b hb
        exact some.inj (mem_def.mp hb) ▸ hf
      · rw [ipv6Payload, nextId, if_neg fun hext => hf ((isIpv6Extension_kind e.kind).mp hext)]
        rfl

/-! ## The header -/

variable (x : CapturedIpv6)

open Ipv6Packet

theorem length_packet : x.packet.bytes.length = ip6HdrSize + x.packet.payload.length := by
  simp [bytes, ip6HdrSize]
  omega

open CapturedIpv6

theorem drop_link (n : ℕ) : x.capture.bytes.drop (x.link.length + n) = (x.packet.bytes ++ x.padding).drop n := by
  rw [capture, ← drop_drop, drop_left]

theorem drop_four : x.capture.bytes.drop (x.link.length + 4) = (x.packet.payload.length / 256).toUInt8 ::
    (x.packet.payload.length % 256).toUInt8 :: nextId x.packet.exts x.packet.upper ::
      (x.packet.hopLimitAddresses.toList ++ (x.packet.payload ++ x.padding)) := by
  rw [drop_link, bytes, append_assoc, drop_left' x.packet.versionClassFlow.length_toList]
  simp

theorem read_plen : x.capture.ntohs (x.link.length + 4) = some x.packet.payload.length := by
  have hs : x.packet.payload.length < 65536 := x.packet.short
  have hh := read_of_drop (drop_four x)
  have hl : x.capture.read (x.link.length + 4 + 1) = some (x.packet.payload.length % 256).toUInt8.toNat := by
    refine read_of_drop (l := nextId x.packet.exts x.packet.upper ::
      (x.packet.hopLimitAddresses.toList ++ (x.packet.payload ++ x.padding))) ?_
    rw [← drop_drop, drop_four]
    rfl
  rw [Capture.ntohs, hh, hl]
  simp only [bind_eq_bind, bind_some, some.injEq, Nat.toUInt8, UInt8.toNat_ofNat']
  omega

theorem read_nextHeader : x.capture.read (x.link.length + 6) = some (nextId x.packet.exts x.packet.upper).toNat := by
  refine read_of_drop (l := x.packet.hopLimitAddresses.toList ++ (x.packet.payload ++ x.padding)) ?_
  rw [show x.link.length + 6 = x.link.length + 4 + 2 by omega, ← drop_drop, drop_four]
  rfl

theorem drop_header : x.capture.bytes.drop (x.link.length + ip6HdrSize) =
    extBytes x.packet.upper x.packet.exts ++ (x.packet.upperLayer ++ x.padding) := by
  rw [show x.link.length + ip6HdrSize = x.link.length + 4 + (3 + 33) by rw [ip6HdrSize], ← drop_drop, drop_four,
    ← drop_drop]
  simp only [drop_succ_cons, drop_zero]
  rw [drop_left' x.packet.hopLimitAddresses.length_toList, payload, append_assoc]

def CapturedIpv6.behind (p : Parser) : Parser :=
  { x.present p with
    ethPld := .ipv6hdr x.link.length
    parsed := x.link.length + ip6HdrSize
    data := x.link.length + ip6HdrSize
    ipVersion := 6
    packetLen := x.link.length + ip6HdrSize + x.packet.payload.length }

theorem parseIpv6_eq (p : Parser) : netHeaderParseIpv6 x.capture (x.present p) =
    (ipv6Payload x.capture (x.behind p) (nextId x.packet.exts x.packet.upper).toNat).bind fun r =>
      if r.1 = 0 then some (0, r.2) else some (r.2.parsed, r.2) := by
  have hl : x.capture.bytes.length = x.link.length + (ip6HdrSize + x.packet.payload.length + x.padding.length) := by
    rw [capture, length_append, length_append, length_packet]
  have hs := x.capture.short
  have hsu : sizeSub (x.present p).packetLen (x.present p).parsed =
      ip6HdrSize + x.packet.payload.length + x.padding.length := by
    rw [present, sizeSub_eq (by dsimp only; omega) (by dsimp only; omega)]
    dsimp only
    omega
  have hh : netHeaderGetIpv6Payload x.capture (x.behind p) =
      ipv6Payload x.capture (x.behind p) (nextId x.packet.exts x.packet.upper).toNat := by
    rw [← ipv6PayloadLoop_eq x.capture ((x.behind p).packetLen + 1) (by omega)]
    simp [netHeaderGetIpv6Payload, netHeaderGetIpv6Hdr, netHeaderGetEthertype, behind, present, read_nextHeader]
  rw [netHeaderParseIpv6]
  simp only [hsu]
  rw [if_neg (by omega)]
  have hp : x.capture.ntohs ((x.present p).data + 4) = some x.packet.payload.length := read_plen x
  simp only [hp, bind_eq_bind, bind_some]
  rw [if_neg (by omega), ← hh]
  rfl

/-- The extension headers are skipped exactly if each is a hop-by-hop or destination options header; the loop over them
ends on every packet. -/
theorem extensions_skipped_iff (x : CapturedIpv6) (p : Parser) (c : Capture) (nextHeader : ℕ) :
    (Skipped x (netHeaderParseIpv6 x.capture (x.present p)) ↔
      ∀ e ∈ x.packet.exts, e.kind = .hopByHop ∨ e.kind = .dstOptions) ∧
    ipv6PayloadLoop c (p.packetLen + 1) p nextHeader = ipv6Payload c p nextHeader := by
  refine ⟨?_, ipv6PayloadLoop_eq c _ (by omega) nextHeader⟩
  have hf : (x.behind p).parsed + (extBytes x.packet.upper x.packet.exts).length ≤ (x.behind p).packetLen := by
    have hpa : x.packet.payload.length = (extBytes x.packet.upper x.packet.exts).length + x.packet.upperLayer.length := by
      rw [payload, length_append]
    dsimp only [behind]
    omega
  obtain ⟨skipped, others, hex, hs, ho, n, hn, hr⟩ :=
    ipv6Payload_chain x.capture x.packet.upper_not_ext x.packet.exts (drop_header x) hf
  have hpo : ¬ (x.behind p).parsed + n = 0 := by
    dsimp only [behind, ip6HdrSize]
    omega
  rw [parseIpv6_eq, hr, bind_some, if_neg hpo]
  constructor
  · rintro ⟨q, hq, -, hp, -⟩
    rw [← (Prod.mk.inj (some.inj hq)).2] at hp
    cases others with
    | nil =>
      rw [hex, append_nil]
      exact hs
    | cons e others =>
      -- the type left in the parser is that of an extension header
      have hm : x.packet.upper.toNat ∈ ipv6ExtensionsIds := hp ▸ kind_mem_ids e.kind
      exact absurd hm x.packet.upper_not_ext
  · intro ha
    cases others with
    | nil =>
      have hl : n = (extBytes x.packet.upper x.packet.exts).length := by simpa [extBytes] using hn
      exact ⟨_, rfl, hpo, rfl, by dsimp only [behind]; rw [hl]⟩
    | cons e others => exact absurd (ha e (by simp [hex])) (ho e rfl)

def routedPacket : CapturedIpv6 where
  pcapDatalink := 1
  link := List.replicate 14 0
  packet := {
    versionClassFlow := #v[96, 0, 0, 0]
    hopLimitAddresses := Vector.replicate 33 1
    exts := [⟨.routing, 0, List.replicate 6 0, rfl, nofun⟩]
    upper := 17
    upper_not_ext := by decide
    upperLayer := [0, 53, 0, 53, 0, 8, 0, 0]
    short := by decide }
  padding := []
  short := by decide

/-- The parser stays at the routing header. -/
theorem routing_not_skipped :
    ¬ Skipped routedPacket (netHeaderParseIpv6 routedPacket.capture (routedPacket.present blankParser)) := by
  rintro ⟨q, hq, -, hp, -⟩
  have hs : (netHeaderParseIpv6 routedPacket.capture (routedPacket.present blankParser)).map
      (fun r => r.2.ipProtocol) = some 43 := by decide +kernel
  rw [hq, map_some, hp] at hs
  exact absurd (some.inj hs) (by decide)

end OpenSync.NetHeader
