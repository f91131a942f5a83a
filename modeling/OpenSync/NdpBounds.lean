import OpenSync.NdpParse
import Mathlib.Data.List.GetD

/-!
# Bounds of neighbour messages

The kind of a message is told by bytes that are always captured. What is read, recorded and handed on then follows from
the kind, and with it how long a message has to be.
-/

namespace OpenSync.Ndp
open List

open NetHeader

/-! ## Reading what was captured -/

namespace Packet

variable (pkt : Packet)

theorem data_add_neighLen : pkt.net.data + pkt.neighLen = pkt.net.packetLen := by
  have hd := pkt.data_eq
  have hp := pkt.parsed_le
  unfold neighLen
  omega

theorem data_add_neighLen_le : pkt.net.data + pkt.neighLen ≤ pkt.size := by
  rw [data_add_neighLen]
  exact pkt.packetLen_le

variable {off : ℕ}

theorem byte_congr (h : off < pkt.size) (m m' : Memory) : pkt.byte m off = pkt.byte m' off := by
  unfold byte
  rw [getD_eq_getElem _ _ h, getD_eq_getElem _ _ h]

theorem byte_beyond (h : pkt.size ≤ off) (m : Memory) : pkt.byte m off = m off := getD_eq_default _ _ h

theorem ntohs_congr (h : off + 1 < pkt.size) (m m' : Memory) : pkt.ntohs m off = pkt.ntohs m' off := by
  unfold ntohs
  rw [pkt.byte_congr (by omega) m m', pkt.byte_congr h m m']

theorem slice_congr {off n : ℕ} (h : off + n ≤ pkt.size) (m m' : Memory) : pkt.slice m off n = pkt.slice m' off n := by
  apply map_congr_left
  intro i hi
  have hlt := mem_range.1 hi
  exact pkt.byte_congr (by omega) m m'

theorem slice_getLast {off n : ℕ} (h : pkt.size < off + n) (m : Memory) (hn : 0 < n) :
    (pkt.slice m off n).getLast? = some (m (off + n - 1)) := by
  obtain ⟨k, rfl⟩ := Nat.exists_eq_succ_of_ne_zero hn.ne'
  unfold slice
  rw [range_succ, map_append, map_cons, map_nil, getLast?_concat]
  exact congrArg some (pkt.byte_beyond (by omega) m)

theorem icmp6hdr_add_two_le (hp : pkt.net.ipProtocol = ipprotoIcmpv6) : pkt.icmp6hdr + 2 ≤ pkt.size := by
  obtain ⟨off, hpl, hle⟩ := pkt.icmp6hdr_le hp
  have ho : pkt.icmp6hdr = off := by simp [icmp6hdr, hpl]
  rw [ho, size]
  omega

end Packet

/-! ## Kinds of messages -/

def Memory.zero : Memory := fun _ => 0

inductive Message
  | ignored
  | request
  | reply
  | solicit (option : Bool)
  | advert (option : Bool)
  deriving DecidableEq

namespace Packet

variable (pkt : Packet)

/-- Whether a message with a target address has an option behind it. Nothing if the message is rejected for it. -/
def option (optType : UInt8) : Option Bool :=
  let data := pkt.net.data + in6AddrSize
  if pkt.neighLen < in6AddrSize then none
  else if pkt.neighLen = in6AddrSize then some false
  else if in6AddrSize + ndOptHdrSize ≤ pkt.neighLen ∧
      in6AddrSize + (pkt.byte .zero (data + 1)).toNat ≤ pkt.neighLen ∧ pkt.byte .zero data = optType then some true
  else none

def ndMessage : Message :=
  if pkt.byte .zero (pkt.icmp6hdr + 1) ≠ 0 then .ignored
  else if pkt.byte .zero pkt.icmp6hdr = ndNeighborSolicit then
    (pkt.option ndOptSourceLinkaddr).elim .ignored .solicit
  else if pkt.byte .zero pkt.icmp6hdr = ndNeighborAdvert then
    (pkt.option ndOptTargetLinkaddr).elim .ignored .advert
  else .ignored

def arpMessage : Message :=
  let data := pkt.net.data
  if pkt.neighLen < arphdrSize ∨ pkt.ntohs .zero data ≠ arphrdEther ∨ pkt.ntohs .zero (data + 2) ≠ ethPIp ∨
      (pkt.byte .zero (data + 4)).toNat ≠ ethAlen ∨ (pkt.byte .zero (data + 5)).toNat ≠ 4 then .ignored
  else if pkt.ntohs .zero (data + 6) = arpopRequest then .request
  else if pkt.ntohs .zero (data + 6) = arpopReply then .reply
  else .ignored

def message : Message :=
  if pkt.net.ipProtocol = ipprotoIcmpv6 then pkt.ndMessage
  else if netHeaderGetEthertype pkt.net = ethPArp then pkt.arpMessage
  else .ignored

end Packet

variable (m : Memory) (pkt : Packet) (s : NdpParser)

def Inside (reads : List Range) : Prop := ∀ r ∈ reads, r.1 + r.2 ≤ pkt.size

theorem inside_cons {r : Range} {reads : List Range} :
    Inside pkt (r :: reads) ↔ r.1 + r.2 ≤ pkt.size ∧ Inside pkt reads := forall_mem_cons

theorem inside_nil : Inside pkt [] := by
  intro r hr
  cases hr

/-! ## What becomes of each kind -/

def Rejects (out : Outcome) : Prop := out.len = 0 ∧ out.parser = s ∧ Inside pkt out.reads

theorem arpParseContent_spec :
    match pkt.arpMessage with
    | .request =>
      arpParseContent m pkt s = ⟨pkt.neighLen, { s with
          op := arpopRequest
          arp := { s.arp with
            sEth := some (pkt.slice m (pkt.net.data + 8) ethAlen), sIp := pkt.slice m (pkt.net.data + 14) 4 } },
        [(pkt.net.data, arphdrSize), (pkt.net.data + 14, 4)]⟩ ∧ arphdrSize ≤ pkt.neighLen
    | .reply =>
      arpParseContent m pkt s = ⟨pkt.neighLen, { s with
          op := arpopReply
          arp := {
            sEth := some (pkt.slice m (pkt.net.data + 8) ethAlen), sIp := pkt.slice m (pkt.net.data + 14) 4
            tEth := some (pkt.slice m (pkt.net.data + 18) ethAlen), tIp := pkt.slice m (pkt.net.data + 24) 4 }
          gratuitous := arpParseIsGratuitous { s.arp with tEth := some (pkt.slice m (pkt.net.data + 18) ethAlen) } },
        [(pkt.net.data, arphdrSize), (pkt.net.data + 14, 4), (pkt.net.data + 18, ethAlen), (pkt.net.data + 24, 4)]⟩ ∧
        arphdrSize ≤ pkt.neighLen
    | _ => Rejects pkt s (arpParseContent m pkt s) := by
  have hro := pkt.data_add_neighLen_le
  by_cases hl : pkt.neighLen < arphdrSize
  · simp [Packet.arpMessage, arpParseContent, hl, Rejects, Inside]
  have hge : 8 ≤ pkt.neighLen := not_lt.1 hl
  have hin : Inside pkt [(pkt.net.data, arphdrSize)] := by
    intro r hr
    rw [mem_singleton.1 hr]
    exact (Nat.add_le_add_left hge _).trans hro
  have hh : pkt.ntohs m pkt.net.data = _ := pkt.ntohs_congr (by omega) m .zero
  have hp : pkt.ntohs m (pkt.net.data + 2) = _ := pkt.ntohs_congr (by omega) m .zero
  have hhl : pkt.byte m (pkt.net.data + 4) = _ := pkt.byte_congr (by omega) m .zero
  have hpl : pkt.byte m (pkt.net.data + 5) = _ := pkt.byte_congr (by omega) m .zero
  have hop : pkt.ntohs m (pkt.net.data + 6) = _ := pkt.ntohs_congr (by omega) m .zero
  unfold Packet.arpMessage arpParseContent
  simp only [hh, hp, hhl, hpl, hop, hl, if_false, false_or]
  by_cases h1 : pkt.ntohs .zero pkt.net.data = arphrdEther
  · by_cases h2 : pkt.ntohs .zero (pkt.net.data + 2) = ethPIp
    · by_cases h3 : (pkt.byte .zero (pkt.net.data + 4)).toNat = ethAlen
      · by_cases h4 : (pkt.byte .zero (pkt.net.data + 5)).toNat = 4
        · by_cases h5 : pkt.ntohs .zero (pkt.net.data + 6) = arpopRequest
          · simpa [h1, h2, h3, h4, h5, arpopRequest, arpopReply] using not_lt.1 hl
          · by_cases h6 : pkt.ntohs .zero (pkt.net.data + 6) = arpopReply
            · simpa [h1, h2, h3, h4, h6, arpopRequest, arpopReply, arpParseIsGratuitous] using not_lt.1 hl
            · simpa [Rejects, h1, h2, h3, h4, h5, h6] using hin
        · simpa [Rejects, h1, h2, h3, h4] using hin
      · simpa [Rejects, h1, h2, h3] using hin
    · simpa [Rejects, h1, h2] using hin
  · simpa [Rejects, h1] using hin

theorem linkOption_spec (optType : UInt8) (hl : in6AddrSize ≤ pkt.neighLen) :
    match pkt.option optType with
    | none => ∃ reads, linkOption m pkt optType = (.rejected, reads) ∧ Inside pkt reads
    | some false => linkOption m pkt optType = (.absent, [])
    | some true => linkOption m pkt optType = (.present (pkt.slice m (pkt.net.data + 18) ethAlen),
        [(pkt.net.data + 16, ndOptHdrSize), (pkt.net.data + 18, ethAlen)]) ∧ 18 ≤ pkt.neighLen := by
  have hro := pkt.data_add_neighLen_le
  unfold Packet.option linkOption
  rw [if_neg (not_lt.2 hl)]
  by_cases hz : pkt.neighLen = in6AddrSize
  · simp [hz]
  have hne : ¬ pkt.neighLen - in6AddrSize = 0 := by omega
  by_cases htw : in6AddrSize + ndOptHdrSize ≤ pkt.neighLen
  · have hlt : ¬ pkt.neighLen - in6AddrSize < ndOptHdrSize := by omega
    have hge : 18 ≤ pkt.neighLen := htw
    have ht : pkt.byte m (pkt.net.data + in6AddrSize) = _ := pkt.byte_congr (by unfold in6AddrSize; omega) m .zero
    have hu : pkt.byte m (pkt.net.data + in6AddrSize + 1) = _ := pkt.byte_congr (by unfold in6AddrSize; omega) m .zero
    have hin : Inside pkt [(pkt.net.data + in6AddrSize, ndOptHdrSize)] := by
      intro r hr
      rw [mem_singleton.1 hr]
      omega
    simp only [ht, hu, hz, hne, hlt, htw, if_false, true_and]
    by_cases hs : in6AddrSize + (pkt.byte .zero (pkt.net.data + in6AddrSize + 1)).toNat ≤ pkt.neighLen
    · have hn : ¬ pkt.neighLen - in6AddrSize < (pkt.byte .zero (pkt.net.data + in6AddrSize + 1)).toNat := by omega
      by_cases hof : pkt.byte .zero (pkt.net.data + in6AddrSize) = optType
      · simp only [hs, hn, hof, and_self, if_true, if_false, ne_eq, not_true_eq_false]
        exact ⟨rfl, hge⟩
      · simpa [hs, hn, hof] using hin
    · have hlt : pkt.neighLen - in6AddrSize < (pkt.byte .zero (pkt.net.data + in6AddrSize + 1)).toNat := by omega
      simpa [hs, hlt] using hin
  · have hlt : pkt.neighLen - in6AddrSize < ndOptHdrSize := by omega
    simp [hz, hne, htw, hlt, Inside]

/-- How a solicitation and an advertisement are parsed; they end in different ways. -/
def parseTarget (optType : UInt8) (report : NdpParser → Option Mac → ℕ → List Range → Outcome) : Outcome :=
  let data := pkt.net.data
  if pkt.neighLen < in6AddrSize then ⟨0, s, []⟩
  else
    let parsed := pkt.net.parsed + in6AddrSize
    match linkOption m pkt optType with
    | (.rejected, reads) => ⟨0, s, (data, in6AddrSize) :: reads⟩
    | (.absent, reads) => report s none parsed ((data, in6AddrSize) :: reads)
    | (.present mac, reads) =>
      report { s with optMac := some mac } (some mac) (parsed + 2) ((data, in6AddrSize) :: reads)

/-- The outcome for a message with a target address, without or with an option behind it. -/
def targetOutcome (report : NdpParser → Option Mac → ℕ → List Range → Outcome) : Bool → Outcome
  | false => report s none (pkt.net.parsed + 16) [(pkt.net.data, 16)]
  | true =>
    let mac := some (pkt.slice m (pkt.net.data + 18) ethAlen)
    report { s with optMac := mac } mac (pkt.net.parsed + 18)
      [(pkt.net.data, 16), (pkt.net.data + 16, 2), (pkt.net.data + 18, 6)]

theorem parseTarget_spec (optType : UInt8) (report : NdpParser → Option Mac → ℕ → List Range → Outcome) :
    match pkt.option optType with
    | none => Rejects pkt s (parseTarget m pkt s optType report)
    | some option => parseTarget m pkt s optType report = targetOutcome m pkt s report option := by
  have hr := pkt.data_add_neighLen_le
  unfold parseTarget
  by_cases hs : pkt.neighLen < in6AddrSize
  · have hn : pkt.option optType = none := if_pos hs
    simp [hn, hs, Rejects, inside_nil]
  have hl : 16 ≤ pkt.neighLen := not_lt.1 hs
  have hsp := linkOption_spec m pkt optType hl
  simp only [hs, if_false]
  rcases ho : pkt.option optType with _ | _ | _ <;> rw [ho] at hsp
  · obtain ⟨reads, hre, hin⟩ := hsp
    simp only [hre]
    exact ⟨rfl, rfl, (inside_cons pkt).2 ⟨(Nat.add_le_add_left hl _).trans hr, hin⟩⟩
  · simp only [hsp]
    rfl
  · simp only [hsp.1]
    rfl

def Outcome.after (out : Outcome) (read : Range) : Outcome := { out with reads := read :: out.reads }

theorem Rejects.after {out : Outcome} (h : Rejects pkt s out) {read : Range} (hr : read.1 + read.2 ≤ pkt.size) :
    Rejects pkt s (out.after read) := ⟨h.1, h.2.1, (inside_cons pkt).2 ⟨hr, h.2.2⟩⟩

def solicitOutcome : Bool → Outcome := targetOutcome m pkt s (ndpParseSolicitReport m pkt)

def advertOutcome : Bool → Outcome := targetOutcome m pkt s fun s _ => ndpParseAdvertReport m pkt s

theorem icmpv6ParseContent_spec (hp : pkt.net.ipProtocol = ipprotoIcmpv6) :
    match pkt.ndMessage with
    | .solicit option => icmpv6ParseContent m pkt s = (solicitOutcome m pkt s option).after (pkt.icmp6hdr, 2)
    | .advert option => icmpv6ParseContent m pkt s = (advertOutcome m pkt s option).after (pkt.icmp6hdr, 2)
    | _ => Rejects pkt s (icmpv6ParseContent m pkt s) := by
  have hh : pkt.icmp6hdr + 2 ≤ pkt.size := pkt.icmp6hdr_add_two_le hp
  have hc : pkt.byte m (pkt.icmp6hdr + 1) = _ := pkt.byte_congr (by omega) m .zero
  have ht : pkt.byte m pkt.icmp6hdr = _ := pkt.byte_congr (by omega) m .zero
  have hr : Rejects pkt s ⟨0, s, [(pkt.icmp6hdr, 2)]⟩ := ⟨rfl, rfl, (inside_cons pkt).2 ⟨hh, inside_nil pkt⟩⟩
  unfold Packet.ndMessage icmpv6ParseContent
  simp only [hc, ht]
  split_ifs with hz hs ha
  · exact hr
  · have hsp := parseTarget_spec m pkt s ndOptSourceLinkaddr (ndpParseSolicitReport m pkt)
    cases ho : pkt.option ndOptSourceLinkaddr <;> rw [ho] at hsp
    · exact hsp.after pkt s hh
    · exact congrArg (Outcome.after · (pkt.icmp6hdr, 2)) hsp
  · have hsp := parseTarget_spec m pkt s ndOptTargetLinkaddr fun s _ => ndpParseAdvertReport m pkt s
    cases ho : pkt.option ndOptTargetLinkaddr <;> rw [ho] at hsp
    · exact hsp.after pkt s hh
    · exact congrArg (Outcome.after · (pkt.icmp6hdr, 2)) hsp
  · exact hr

/-! ## What is read -/

def Message.readEnd : Message → ℕ
  | .request => 18
  | .reply => 28
  | .solicit true | .advert true => 24
  | _ => 0

theorem arpMessage_cases : pkt.arpMessage = .ignored ∨ pkt.arpMessage = .request ∨ pkt.arpMessage = .reply := by
  simp only [Packet.arpMessage]
  split_ifs <;> simp

theorem arpParseContent_inside_iff :
    Inside pkt (arpParseContent m pkt s).reads ↔ pkt.net.data + pkt.arpMessage.readEnd ≤ pkt.size := by
  have hr := pkt.data_add_neighLen_le
  have hs := arpParseContent_spec m pkt s
  rcases arpMessage_cases pkt with hk | hk | hk
  · rw [hk] at hs
    simp only [hs.2.2, hk, Message.readEnd, true_iff]
    omega
  · rw [hk] at hs
    have hl : 8 ≤ pkt.neighLen := hs.2
    rw [hs.1, hk]
    simp only [inside_cons, inside_nil, arphdrSize, Message.readEnd, and_true]
    omega
  · rw [hk] at hs
    rw [hs.1, hk]
    simp only [inside_cons, inside_nil, arphdrSize, ethAlen, Message.readEnd, and_true]
    omega

theorem ndMessage_cases : pkt.ndMessage = .ignored ∨
    ∃ option, pkt.ndMessage = .solicit option ∨ pkt.ndMessage = .advert option := by
  unfold Packet.ndMessage
  split_ifs
  · exact .inl rfl
  · cases pkt.option ndOptSourceLinkaddr with
    | none => exact .inl rfl
    | some option => exact .inr ⟨option, .inl rfl⟩
  · cases pkt.option ndOptTargetLinkaddr with
    | none => exact .inl rfl
    | some option => exact .inr ⟨option, .inr rfl⟩
  · exact .inl rfl

theorem inside_append {reads more : List Range} :
    Inside pkt (reads ++ more) ↔ Inside pkt reads ∧ Inside pkt more := forall_mem_append

theorem ndpParseSolicitReport_inside_iff (optMac : Option Mac) (parsed : ℕ) (reads : List Range) :
    Inside pkt (ndpParseSolicitReport m pkt s optMac parsed reads).reads ↔ Inside pkt reads := by
  unfold ndpParseSolicitReport ndpPopulateSockaddr
  split_ifs
  · exact Iff.rfl
  cases hh : netHeaderGetIpv6Hdr pkt.net with
  | none => exact Iff.rfl
  | some hdr =>
    have hle := pkt.ipv6hdr_le hdr hh
    have hs : Inside pkt [(hdr + 8, in6AddrSize)] := by
      refine (inside_cons pkt).2 ⟨?_, inside_nil pkt⟩
      unfold ip6HdrSize at hle
      unfold in6AddrSize Packet.size
      omega
    exact (inside_append pkt).trans (and_iff_left hs)

theorem ndpParseAdvertReport_reads (parsed : ℕ) (reads : List Range) :
    (ndpParseAdvertReport m pkt s parsed reads).reads = reads := by
  unfold ndpParseAdvertReport
  cases s.optMac <;> rfl

theorem neighLen_of_ndMessage {option : Bool} (h : pkt.ndMessage = .solicit option ∨ pkt.ndMessage = .advert option) :
    16 ≤ pkt.neighLen := by
  by_contra hs
  have hn (t : UInt8) : pkt.option t = none := if_pos (not_le.1 hs)
  have hig : pkt.ndMessage = .ignored := by simp [Packet.ndMessage, hn]
  simp [hig] at h

theorem icmpv6ParseContent_inside_iff (hp : pkt.net.ipProtocol = ipprotoIcmpv6) :
    Inside pkt (icmpv6ParseContent m pkt s).reads ↔ pkt.net.data + pkt.ndMessage.readEnd ≤ pkt.size := by
  have hr := pkt.data_add_neighLen_le
  have hh := pkt.icmp6hdr_add_two_le hp
  have hs := icmpv6ParseContent_spec m pkt s hp
  rcases ndMessage_cases pkt with hk | ⟨option, hk⟩
  · rw [hk] at hs
    simp only [hs.2.2, hk, Message.readEnd, true_iff]
    omega
  · have hl := neighLen_of_ndMessage pkt hk
    rcases hk with hk | hk <;> cases option <;> rw [hk] at hs <;> rw [hs, hk] <;>
      simp only [Outcome.after, solicitOutcome, advertOutcome, targetOutcome, inside_cons, ndpParseSolicitReport_inside_iff, ndpParseAdvertReport_reads, inside_nil,
        Message.readEnd, and_true] <;> omega

theorem ndpParseMessage_inside_iff :
    Inside pkt (ndpParseMessage m pkt s).reads ↔ pkt.net.data + pkt.message.readEnd ≤ pkt.size := by
  have hr := pkt.data_add_neighLen_le
  unfold ndpParseMessage Packet.message
  by_cases hp : pkt.net.ipProtocol = ipprotoIcmpv6
  · simp only [if_pos hp]
    exact icmpv6ParseContent_inside_iff m pkt s hp
  simp only [if_neg hp]
  by_cases ha : netHeaderGetEthertype pkt.net = ethPArp
  · simp only [if_pos ha]
    exact arpParseContent_inside_iff m pkt s
  · simp only [if_neg ha, inside_nil, Message.readEnd, true_iff]
    omega

/-! ## What is handed on -/

namespace Packet

def arpSender : NeighbourEntry where
  ipaddr := pkt.slice m (pkt.net.data + 14) 4
  mac := some (pkt.slice m (pkt.net.data + 8) ethAlen)
  source := .fsmArp

def arpTarget : NeighbourEntry where
  ipaddr := pkt.slice m (pkt.net.data + 24) 4
  mac := some (pkt.slice m (pkt.net.data + 18) ethAlen)
  source := .fsmArp

/-- Whether the target of a reply is no address of its own. -/
def gratuitous : Bool :=
  let tEth := pkt.slice m (pkt.net.data + 18) ethAlen
  tEth = List.replicate ethAlen 0 || tEth = List.replicate ethAlen 0xff

def ndEntry (ipaddr : ℕ) (mac : Mac) : NeighbourEntry where
  ipaddr := pkt.slice m ipaddr in6AddrSize
  mac := some mac
  source := .fsmNdp

/-- What is handed on for a packet while a MAC is kept. -/
def learned (kept : Option Mac) : List NeighbourEntry :=
  match pkt.message with
  | .ignored | .solicit false => []
  | .request => [pkt.arpSender m]
  | .reply => if pkt.gratuitous m then [pkt.arpSender m] else [pkt.arpSender m, pkt.arpTarget m]
  | .solicit true =>
    (netHeaderGetIpv6Hdr pkt.net).elim [] fun hdr =>
      [pkt.ndEntry m (hdr + 8) (pkt.slice m (pkt.net.data + 18) ethAlen)]
  | .advert true => [pkt.ndEntry m pkt.net.data (pkt.slice m (pkt.net.data + 18) ethAlen)]
  | .advert false => (kept.or (pkt.srcmac m)).elim [] fun mac => [pkt.ndEntry m pkt.net.data mac]

def keeps (kept : Option Mac) : Option Mac :=
  match pkt.message with
  | .solicit true =>
    (netHeaderGetIpv6Hdr pkt.net).elim (some (pkt.slice m (pkt.net.data + 18) ethAlen)) fun _ => none
  | .advert _ => none
  | _ => kept

end Packet

open Packet

theorem arpProcessMessage_optMac : (arpProcessMessage s).1.optMac = s.optMac := by
  unfold arpProcessMessage arpPopulateNeighEntries
  dsimp only
  split_ifs <;> rfl

theorem arpProcessMessage_learned : (arpProcessMessage s).2 =
    if s.op = arpopRequest ∨ s.gratuitous = true ∨ s.arp.tEth = none then [⟨s.arp.sIp, s.arp.sEth, .fsmArp⟩]
    else [⟨s.arp.sIp, s.arp.sEth, .fsmArp⟩, ⟨s.arp.tIp, s.arp.tEth, .fsmArp⟩] := by
  unfold arpProcessMessage arpPopulateNeighEntries
  by_cases hop : s.op = arpopRequest <;> by_cases hg : s.gratuitous = true <;> by_cases ht : s.arp.tEth = none <;>
    simp [hop, hg, ht]

theorem handler_arp (hp : pkt.net.ipProtocol ≠ ipprotoIcmpv6) (ha : netHeaderGetEthertype pkt.net = ethPArp) :
    (ndpPluginHandler m pkt s).2 = pkt.learned m s.optMac ∧
      (ndpPluginHandler m pkt s).1.optMac = pkt.keeps m s.optMac := by
  have hm : pkt.message = pkt.arpMessage := by simp [Packet.message, hp, ha]
  have hs := arpParseContent_spec m pkt s
  unfold ndpPluginHandler ndpParseMessage learned keeps
  simp only [hp, ha, if_true, if_false, hm]
  rcases arpMessage_cases pkt with hk | hk | hk
  · rw [hk] at hs
    simp [hs.1, hs.2.1, hk]
  · rw [hk] at hs
    have hpo : ¬ pkt.neighLen = 0 := (Nat.lt_of_lt_of_le (by decide) hs.2).ne'
    simp [hs.1, hk, hpo, arpProcessMessage_learned, arpProcessMessage_optMac, arpSender]
  · rw [hk] at hs
    have hpo : ¬ pkt.neighLen = 0 := (Nat.lt_of_lt_of_le (by decide) hs.2).ne'
    have hop : ¬ arpopReply = arpopRequest := by decide
    simp [hs.1, hk, hpo, hop, arpProcessMessage_learned, arpProcessMessage_optMac, arpParseIsGratuitous,
      gratuitous, arpSender, arpTarget]

theorem handler_icmpv6 (hp : pkt.net.ipProtocol = ipprotoIcmpv6) :
    (ndpPluginHandler m pkt s).2 = pkt.learned m s.optMac ∧
      (ndpPluginHandler m pkt s).1.optMac = pkt.keeps m s.optMac := by
  have hm : pkt.message = pkt.ndMessage := by simp [Packet.message, hp]
  have hs := icmpv6ParseContent_spec m pkt s hp
  unfold ndpPluginHandler ndpParseMessage learned keeps
  simp only [hp, if_true, hm]
  rcases ndMessage_cases pkt with hk | ⟨option, hk | hk⟩ <;> rw [hk] at hs
  · simp [hs.1, hs.2.1, hk]
  · rw [hs, hk]
    cases option with
    | false =>
      -- A MAC that is kept lets the message through, and the entry then has none.
      by_cases hke : s.optMac = none <;> cases hh : netHeaderGetIpv6Hdr pkt.net <;>
        simp [solicitOutcome, targetOutcome, ndpParseSolicitReport, ndpPopulateSockaddr, Outcome.after, icmpv6ProcessMessage,
          hke, hh]
    | true =>
      cases hh : netHeaderGetIpv6Hdr pkt.net <;>
        simp [solicitOutcome, targetOutcome, ndpParseSolicitReport, ndpPopulateSockaddr, Outcome.after, icmpv6ProcessMessage,
          hh, Packet.ndEntry]
  · rw [hs, hk]
    cases option with
    | false =>
      cases hke : s.optMac <;> cases hsr : pkt.srcmac m <;>
        simp [advertOutcome, targetOutcome, ndpParseAdvertReport, Outcome.after, icmpv6ProcessMessage, hke, hsr,
          Packet.ndEntry]
    | true =>
      simp [advertOutcome, targetOutcome, ndpParseAdvertReport, Outcome.after, icmpv6ProcessMessage, Packet.ndEntry]

theorem handler_spec : (ndpPluginHandler m pkt s).2 = pkt.learned m s.optMac ∧
      (ndpPluginHandler m pkt s).1.optMac = pkt.keeps m s.optMac := by
  by_cases hp : pkt.net.ipProtocol = ipprotoIcmpv6
  · exact handler_icmpv6 m pkt s hp
  · by_cases ha : netHeaderGetEthertype pkt.net = ethPArp
    · exact handler_arp m pkt s hp ha
    · have hm : pkt.message = .ignored := by simp [Packet.message, hp, ha]
      simp [ndpPluginHandler, ndpParseMessage, hp, ha, learned, keeps, hm]

/-! ## Messages that are long enough -/

/-- How many bytes behind the headers hold all of the binding with this number. -/
def Message.bindingEnd : Message → ℕ → ℕ
  | .ignored, _ => 0
  | .request, _ | .reply, 0 => 18
  | .reply, _ + 1 => 28
  | .solicit false, _ | .advert false, _ => 16
  | .solicit true, _ | .advert true, _ => 24

/-- Only captured bytes are read, and each binding that is recorded is all in the packet. -/
structure InBounds : Prop where
  inside : Inside pkt (ndpParseMessage m pkt s).reads
  present : ∀ i < (ndpPluginHandler m pkt s).2.length, pkt.message.bindingEnd i ≤ pkt.neighLen

def LongEnough : Prop :=
  match pkt.message with
  | .request => 18 ≤ pkt.neighLen
  | .reply => 18 ≤ pkt.neighLen ∧ pkt.net.data + 28 ≤ pkt.size ∧ (pkt.gratuitous .zero = false → 28 ≤ pkt.neighLen)
  | .solicit true => pkt.net.data + 24 ≤ pkt.size ∧ ((netHeaderGetIpv6Hdr pkt.net).isSome → 24 ≤ pkt.neighLen)
  | .advert true => 24 ≤ pkt.neighLen
  | _ => True

theorem inBounds_iff : InBounds m pkt s ↔ pkt.net.data + pkt.message.readEnd ≤ pkt.size ∧
    ∀ i < (pkt.learned m s.optMac).length, pkt.message.bindingEnd i ≤ pkt.neighLen := by
  rw [← ndpParseMessage_inside_iff m pkt s, ← (handler_spec m pkt s).1]
  exact ⟨fun h => ⟨h.inside, h.present⟩, fun h => ⟨h.1, h.2⟩⟩

theorem gratuitous_congr (h : pkt.net.data + 24 ≤ pkt.size) (m' : Memory) : pkt.gratuitous m = pkt.gratuitous m' := by
  have hs : pkt.slice m (pkt.net.data + 18) ethAlen = pkt.slice m' (pkt.net.data + 18) ethAlen :=
    pkt.slice_congr (by unfold ethAlen; omega) m m'
  unfold gratuitous
  rw [hs]

theorem neighLen_of_message {option : Bool} (h : pkt.message = .advert option) : 16 ≤ pkt.neighLen := by
  unfold Packet.message at h
  split_ifs at h with hp ha
  · exact neighLen_of_ndMessage pkt (.inr h)
  · rcases arpMessage_cases pkt with hk | hk | hk <;> rw [hk] at h <;> cases h

open Message

/-- Parsing stays in bounds exactly if the message has all that its kind, told by its first bytes, makes the code read
and record. -/
theorem parsing_in_bounds_iff : InBounds m pkt s ↔ LongEnough pkt := by
  have hro := pkt.data_add_neighLen_le
  rw [inBounds_iff]
  unfold learned LongEnough
  cases hk : pkt.message with
  | ignored =>
    simp only [Message.readEnd, length_nil, Nat.not_lt_zero, IsEmpty.forall_iff, implies_true, and_true, iff_true]
    omega
  | request =>
    simp only [Message.readEnd, bindingEnd, length_singleton, Nat.lt_one_iff, forall_eq]
    omega
  | reply =>
    have hgr (h : pkt.net.data + 28 ≤ pkt.size) := gratuitous_congr m pkt (by omega) .zero
    cases hg : pkt.gratuitous m with
    | true =>
      simp only [if_true, Message.readEnd, bindingEnd, length_singleton, Nat.lt_one_iff, forall_eq]
      constructor
      · rintro ⟨hr, hle⟩
        refine ⟨hle, hr, fun hn => ?_⟩
        rw [← hgr hr, hg] at hn
        cases hn
      · rintro ⟨hle, hr, -⟩
        exact ⟨hr, hle⟩
    | false =>
      simp only [Bool.false_eq_true, if_false, Message.readEnd, length_cons, length_nil]
      constructor
      · rintro ⟨hr, hle⟩
        exact ⟨hle 0 (by decide), hr, fun _ => hle 1 (by decide)⟩
      · rintro ⟨hle, hr, hl⟩
        refine ⟨hr, fun i hi => ?_⟩
        have ha := hl (by rw [← hgr hr, hg])
        cases i with
        | zero => exact hle
        | succ i => exact ha
  | solicit option =>
    cases option with
    | false =>
      simp only [Message.readEnd, length_nil, Nat.not_lt_zero, IsEmpty.forall_iff, implies_true, and_true, iff_true]
      omega
    | true =>
      simp only [Message.readEnd, bindingEnd]
      refine and_congr_right fun _ => ?_
      cases netHeaderGetIpv6Hdr pkt.net <;> simp
  | advert option =>
    cases option with
    | false =>
      have hle := neighLen_of_message pkt hk
      simp only [Message.readEnd, bindingEnd, hle, implies_true, and_true, iff_true]
      omega
    | true =>
      simp only [Message.readEnd, bindingEnd, length_singleton, Nat.lt_one_iff, forall_eq]
      omega

def linkCapture (high low : UInt8) (rest : List UInt8) (h : rest.length < 2 ^ 32) : Capture where
  bytes := List.replicate 12 0 ++ [high, low] ++ rest
  pcapDatalink := 1
  short := by
    simp only [List.length_append, List.length_replicate, List.length_cons, List.length_nil]
    omega

def linkHeader (ethertype : ℕ) : EthHeader := { dstmac := 0, srcmac := 6, ethertype, vlanId := 0 }

def cutRequest : Packet where
  capture := linkCapture 0x08 0x06 [0, 1, 0x08, 0x00, 6, 4, 0, 1] (by decide)
  net :=
    { packetLen := 22, parsed := 14, ethHeader := linkHeader ethPArp, ipVersion := 0, ipProtocol := 0
      ethPld := .payload 14, ipPld := none, data := 14, start := 0, ethHeaderAvailable := true }
  data_eq := rfl
  parsed_le := by decide
  packetLen_le := by decide
  icmp6hdr_le := fun h => absurd h (by decide)
  ipv6hdr_le := fun off h => absurd h (by simp [netHeaderGetIpv6Hdr, netHeaderGetEthertype, linkHeader, ethPArp, ethPIpv6])
  srcmac_le := fun _ => by decide

example : (netHeaderParse cutRequest.capture { cutRequest.net with data := 0 }).map
    (fun r => (r.2.packetLen, r.2.parsed, r.2.data, r.2.ethHeader.ethertype)) = some (22, 14, 14, ethPArp) := by
  decide +kernel

/-- The address of the sender is read behind the captured bytes, and handed on. -/
theorem cut_request_recorded : cutRequest.size = 22 ∧ (28, 4) ∈ (ndpParseMessage .zero cutRequest .fresh).reads ∧
      (ndpPluginHandler .zero cutRequest .fresh).2.length = 1 ∧ ¬ InBounds .zero cutRequest .fresh := by
  have hs : cutRequest.size = 22 := by decide
  have hr : (28, 4) ∈ (ndpParseMessage .zero cutRequest .fresh).reads := by decide +kernel
  refine ⟨hs, hr, by decide +kernel, fun h => ?_⟩
  have hle := h.inside _ hr
  exact absurd hle (by decide)

end OpenSync.Ndp
