import OpenSync.NdpBounds

/-!
# What each packet teaches

A packet should teach what it would teach alone, whatever came before it in the session and whatever is behind its
captured bytes. The MAC of an option is what is kept from one packet to the next.
-/

namespace OpenSync.Ndp
open List Option

open NetHeader

/-! ## Runs -/

structure Event where
  pkt : Packet
  memory : Memory

def step (s : NdpParser) (e : Event) : NdpParser := (ndpPluginHandler e.memory e.pkt s).1

def run (events : List Event) : NdpParser := events.foldl step .fresh

def contributes (s : NdpParser) (e : Event) : List NeighbourEntry := (ndpPluginHandler e.memory e.pkt s).2

theorem contributes_eq (s : NdpParser) (e : Event) : contributes s e = e.pkt.learned e.memory s.optMac :=
  (handler_spec e.memory e.pkt s).1

/-! ## Specification -/

namespace Packet

variable (pkt : Packet)

/-- The types of the options from an offset on, each of which says its length in units of eight bytes. -/
def optionTypes : ℕ → ℕ → ℕ → Option (List UInt8)
  | _, _, 0 => some []
  | 0, _, _ + 1 => none
  | fuel + 1, off, len + 1 =>
    let size := 8 * (pkt.byte .zero (off + 1)).toNat
    if size = 0 ∨ len + 1 < size then none
    else (optionTypes fuel (off + size) (len + 1 - size)).map (pkt.byte .zero off :: ·)

/-- A message of neighbour discovery with well formed options, none of which is of this type. -/
def Lacks (type optType : UInt8) : Prop :=
  pkt.net.ipProtocol = ipprotoIcmpv6 ∧ pkt.byte .zero (pkt.icmp6hdr + 1) = 0 ∧ pkt.byte .zero pkt.icmp6hdr = type ∧
    in6AddrSize ≤ pkt.neighLen ∧
    ∃ types, pkt.optionTypes pkt.neighLen (pkt.net.data + in6AddrSize) (pkt.neighLen - in6AddrSize) = some types ∧
      optType ∉ types

end Packet

/-- A packet contributes what it contributes alone in a new session, whatever is behind its bytes. Without an option, a
solicitation contributes nothing and an advertisement the source of its Ethernet header. -/
structure PerPacket (s : NdpParser) (e : Event) : Prop where
  own : ∀ memory, contributes s e = contributes .fresh { e with memory }
  solicit : e.pkt.Lacks ndNeighborSolicit ndOptSourceLinkaddr → contributes s e = []
  advert : e.pkt.Lacks ndNeighborAdvert ndOptTargetLinkaddr → contributes s e =
    (e.pkt.srcmac e.memory).elim [] fun mac => [e.pkt.ndEntry e.memory e.pkt.net.data mac]

def Captured (pkt : Packet) : Prop :=
  match pkt.message with
  | .request => pkt.net.data + 18 ≤ pkt.size
  | .reply => pkt.net.data + 24 ≤ pkt.size ∧ (pkt.gratuitous .zero = false → pkt.net.data + 28 ≤ pkt.size)
  | .solicit true => (netHeaderGetIpv6Hdr pkt.net).isSome → pkt.net.data + 24 ≤ pkt.size
  | .advert true => pkt.net.data + 24 ≤ pkt.size
  | _ => True

/-- A packet that is captured, an advertisement without option while no other MAC is kept, and no advertisement with
other options only. -/
structure Clean (kept : Option Mac) (pkt : Packet) : Prop where
  captured : Captured pkt
  kept : pkt.message = .advert false → kept = none ∨ kept = pkt.srcmac .zero
  options : pkt.Lacks ndNeighborAdvert ndOptTargetLinkaddr → in6AddrSize < pkt.neighLen →
    pkt.net.ethHeaderAvailable = false

/-! ## Memory -/

namespace Packet

variable (pkt : Packet)

theorem srcmac_congr (m m' : Memory) : pkt.srcmac m = pkt.srcmac m' := by
  unfold srcmac
  split_ifs with ha
  · exact congrArg some (pkt.slice_congr (pkt.srcmac_le ha) m m')
  · rfl

theorem size_of_slice_eq {off n : ℕ} (hn : 0 < n)
    (h : pkt.slice (fun _ => 1) off n = pkt.slice (fun _ => 2) off n) : off + n ≤ pkt.size := by
  by_contra hs
  have hl := congrArg getLast? h
  rw [pkt.slice_getLast (not_le.1 hs) _ hn, pkt.slice_getLast (not_le.1 hs) _ hn] at hl
  exact absurd hl (by decide)

theorem gratuitous_one (h : pkt.size < pkt.net.data + 24) (b : UInt8) (hb : b = 1 ∨ b = 2) :
    pkt.gratuitous (fun _ => b) = false := by
  have hl : (pkt.slice (fun _ => b) (pkt.net.data + 18) ethAlen).getLast? = some b :=
    pkt.slice_getLast (by unfold ethAlen; omega) (fun _ => b) (by decide)
  unfold gratuitous
  simp only [Bool.or_eq_false_iff, decide_eq_false_iff_not]
  constructor
  all_goals
    intro heq
    rw [heq] at hl
    rcases hb with rfl | rfl <;> exact absurd hl (by decide)

/-! ## Options -/

theorem byte_mem_optionTypes {fuel off len : ℕ} {types : List UInt8} (hl : 0 < len)
    (h : pkt.optionTypes fuel off len = some types) : pkt.byte .zero off ∈ types := by
  obtain ⟨len, rfl⟩ := Nat.exists_eq_succ_of_ne_zero hl.ne'
  cases fuel with
  | zero => simp [optionTypes] at h
  | succ fuel =>
    unfold optionTypes at h
    dsimp only at h
    split_ifs at h
    obtain ⟨rest, -, rfl⟩ := map_eq_some_iff.1 h
    exact mem_cons_self

variable {pkt} in
theorem Lacks.option {type optType : UInt8} (h : pkt.Lacks type optType) :
    pkt.option optType = if in6AddrSize < pkt.neighLen then none else some false := by
  obtain ⟨-, -, -, hl, types, ht, hn⟩ := h
  unfold Packet.option
  by_cases hm : in6AddrSize < pkt.neighLen
  · have hf := pkt.byte_mem_optionTypes (Nat.sub_pos_of_lt hm) ht
    have hne : pkt.byte .zero (pkt.net.data + in6AddrSize) ≠ optType := fun heq => hn (heq ▸ hf)
    simp [hm, hm.ne', hne]
  · have heq : pkt.neighLen = in6AddrSize := by omega
    simp [heq]

variable {pkt} in
theorem Lacks.message_solicit (h : pkt.Lacks ndNeighborSolicit ndOptSourceLinkaddr) :
    pkt.message = .ignored ∨ pkt.message = .solicit false := by
  have ho := h.option
  obtain ⟨hp, hc, ht, -⟩ := h
  simp only [message, ndMessage, hp, hc, ht, ho, if_true, ne_eq, not_true_eq_false, if_false]
  split_ifs <;> simp

variable {pkt} in
theorem Lacks.message_advert (h : pkt.Lacks ndNeighborAdvert ndOptTargetLinkaddr) :
    pkt.message = if in6AddrSize < pkt.neighLen then .ignored else .advert false := by
  have ho := h.option
  have hne : ¬ ndNeighborAdvert = ndNeighborSolicit := by decide
  obtain ⟨hp, hc, ht, -⟩ := h
  simp only [message, ndMessage, hp, hc, ht, ho, if_true, ne_eq, not_true_eq_false, if_false, hne]
  split_ifs <;> rfl

end Packet

open Packet

/-! ## One packet -/

variable {pkt : Packet} {m : Memory} {kept : Option Mac}

theorem ndEntry_congr {ipaddr : ℕ} (h : ipaddr + in6AddrSize ≤ pkt.size) (mac : Mac) (m' : Memory) :
    pkt.ndEntry m ipaddr mac = pkt.ndEntry m' ipaddr mac := by
  unfold ndEntry
  rw [pkt.slice_congr h m m']

theorem arpSender_congr (h : pkt.net.data + 18 ≤ pkt.size) (m' : Memory) : pkt.arpSender m = pkt.arpSender m' := by
  unfold arpSender
  rw [pkt.slice_congr (by omega) m m', pkt.slice_congr (by unfold ethAlen; omega) m m']

theorem arpTarget_congr (h : pkt.net.data + 28 ≤ pkt.size) (m' : Memory) : pkt.arpTarget m = pkt.arpTarget m' := by
  unfold arpTarget
  rw [pkt.slice_congr (by omega) m m', pkt.slice_congr (by unfold ethAlen; omega) m m']

theorem captured_of_learned (h : pkt.learned (fun _ => 1) none = pkt.learned (fun _ => 2) none) : Captured pkt := by
  unfold learned at h
  unfold Captured
  cases hk : pkt.message with
  | ignored => trivial
  | request =>
    simp only [hk, cons.injEq, and_true] at h
    have hse : pkt.slice (fun _ => 1) (pkt.net.data + 14) 4 = pkt.slice (fun _ => 2) (pkt.net.data + 14) 4 :=
      congrArg NeighbourEntry.ipaddr h
    have hle := pkt.size_of_slice_eq (by decide) hse
    exact hle
  | reply =>
    simp only [hk] at h
    have ht (heq : pkt.arpTarget (fun _ => 1) = pkt.arpTarget (fun _ => 2)) : pkt.net.data + 28 ≤ pkt.size := by
      have hip : pkt.slice (fun _ => 1) (pkt.net.data + 24) 4 = pkt.slice (fun _ => 2) (pkt.net.data + 24) 4 :=
        congrArg NeighbourEntry.ipaddr heq
      have hle := pkt.size_of_slice_eq (by decide) hip
      exact hle
    have hm : pkt.net.data + 24 ≤ pkt.size := by
      by_contra hs
      rw [pkt.gratuitous_one (not_le.1 hs) 1 (.inl rfl), pkt.gratuitous_one (not_le.1 hs) 2 (.inr rfl)] at h
      simp only [Bool.false_eq_true, if_false, cons.injEq, and_true] at h
      have hle := ht h.2
      omega
    refine ⟨hm, fun hn => ?_⟩
    rw [gratuitous_congr _ pkt hm .zero, gratuitous_congr (fun _ => 2) pkt hm .zero, hn] at h
    simp only [Bool.false_eq_true, if_false, cons.injEq, and_true] at h
    exact ht h.2
  | solicit option =>
    cases option with
    | false => trivial
    | true =>
      intro hso
      obtain ⟨hdr, hh⟩ := isSome_iff_exists.1 hso
      simp only [hk, hh, elim_some, cons.injEq, and_true] at h
      have hm := some.inj (congrArg NeighbourEntry.mac h)
      have hle := pkt.size_of_slice_eq (by decide) hm
      exact hle
  | advert option =>
    cases option with
    | false => trivial
    | true =>
      simp only [hk, cons.injEq, and_true] at h
      have hm := some.inj (congrArg NeighbourEntry.mac h)
      have hle := pkt.size_of_slice_eq (by decide) hm
      exact hle

theorem data_add_target_le {option : Bool} (h : pkt.message = .advert option) :
    pkt.net.data + in6AddrSize ≤ pkt.size := by
  have hr := pkt.data_add_neighLen_le
  have hl := neighLen_of_message pkt h
  unfold in6AddrSize
  omega

theorem learned_congr (hc : Captured pkt)
    (hke : pkt.message = .advert false → kept = none ∨ kept = pkt.srcmac .zero) (m' : Memory) :
    pkt.learned m kept = pkt.learned m' none := by
  unfold learned
  unfold Captured at hc
  cases hk : pkt.message with
  | ignored => rfl
  | request =>
    rw [hk] at hc
    exact congrArg ([·]) (arpSender_congr hc m')
  | reply =>
    rw [hk] at hc
    obtain ⟨hm, ha⟩ := hc
    have hs : pkt.arpSender m = pkt.arpSender m' := arpSender_congr (by omega) m'
    simp only [gratuitous_congr m pkt hm .zero, gratuitous_congr m' pkt hm .zero, hs]
    cases hg : pkt.gratuitous .zero with
    | true => rfl
    | false => rw [arpTarget_congr (ha hg) m']
  | solicit option =>
    cases option with
    | false => rfl
    | true =>
      rw [hk] at hc
      cases hh : netHeaderGetIpv6Hdr pkt.net with
      | none => rfl
      | some hdr =>
        have hle := pkt.ipv6hdr_le hdr hh
        have hm := hc (by rw [hh]; rfl)
        simp only [elim_some]
        rw [pkt.slice_congr (by unfold ethAlen; omega) m m',
          ndEntry_congr (by unfold in6AddrSize size; unfold ip6HdrSize at hle; omega) _ m']
  | advert option =>
    have ht := data_add_target_le hk
    cases option with
    | false =>
      have hso := pkt.srcmac_congr m m'
      have hz := pkt.srcmac_congr .zero m'
      simp only [ndEntry_congr (m := m) ht _ m', hso, none_or]
      rcases hke hk with rfl | rfl
      · rfl
      · rw [hz, Option.or_self]
    | true =>
      rw [hk] at hc
      simp only
      rw [pkt.slice_congr (by unfold ethAlen; omega) m m', ndEntry_congr ht _ m']

theorem kept_of_learned (hk : pkt.message = .advert false) (h : pkt.learned m kept = pkt.learned m none) :
    kept = none ∨ kept = pkt.srcmac .zero := by
  cases hke : kept with
  | none => exact .inl rfl
  | some mac =>
    right
    rw [pkt.srcmac_congr .zero m]
    unfold learned at h
    rw [hk, hke] at h
    cases hs : pkt.srcmac m with
    | none => simp [hs] at h
    | some source =>
      simp only [hs, some_or, none_or, elim_some, cons.injEq, and_true] at h
      exact congrArg NeighbourEntry.mac h

theorem perPacket_iff (s : NdpParser) (e : Event) : PerPacket s e ↔ Clean s.optMac e.pkt := by
  constructor
  · intro h
    have ho (memory : Memory) : e.pkt.learned e.memory s.optMac = e.pkt.learned memory none := by
      have heq := h.own memory
      rwa [contributes_eq, contributes_eq] at heq
    refine ⟨captured_of_learned ((ho _).symm.trans (ho _)), fun hk => ?_, fun hl hm => ?_⟩
    · exact kept_of_learned hk (ho e.memory)
    · have hn : contributes s e = [] := by
        rw [contributes_eq, learned, hl.message_advert, if_pos hm]
      have hs := h.advert hl
      rw [hn] at hs
      cases ha : e.pkt.net.ethHeaderAvailable with
      | false => rfl
      | true => simp [srcmac, ha] at hs
  · intro h
    refine ⟨fun memory => ?_, fun hl => ?_, fun hl => ?_⟩
    · rw [contributes_eq, contributes_eq]
      exact learned_congr h.captured h.kept memory
    · rw [contributes_eq, learned]
      rcases hl.message_solicit with hk | hk <;> rw [hk]
    · rw [contributes_eq, learned_congr h.captured h.kept e.memory, learned, hl.message_advert]
      by_cases hm : in6AddrSize < e.pkt.neighLen
      · simp [hm, srcmac, h.options hl hm]
      · simp [hm]

/-- In a run, each packet teaches by its own bytes alone exactly if each packet is clean when it comes. -/
theorem learning_per_packet_iff (events : List Event) :
    (∀ before e after, events = before ++ e :: after → PerPacket (run before) e) ↔
      ∀ before e after, events = before ++ e :: after → Clean (run before).optMac e.pkt :=
  forall_congr' fun before => forall_congr' fun e => forall_congr' fun _ => imp_congr_right fun _ =>
    perPacket_iff (run before) e

def ipv4Solicit : Packet where
  capture := linkCapture 0x08 0x00
    ([0x45, 0, 0, 52, 0, 0, 0, 0, 64, 58] ++ List.replicate 10 0 ++ [135, 0, 0, 0, 0, 0, 0, 0] ++ List.replicate 16 0 ++
      [1, 1, 2, 0, 0, 0, 0, 9]) (by decide)
  net :=
    { packetLen := 66, parsed := 42, ethHeader := linkHeader ethPIp, ipVersion := 4, ipProtocol := ipprotoIcmpv6
      ethPld := .iphdr 14, ipPld := some (.icmp6hdr 34), data := 42, start := 0, ethHeaderAvailable := true }
  data_eq := rfl
  parsed_le := by decide
  packetLen_le := by decide
  icmp6hdr_le := fun _ => ⟨34, rfl, by decide⟩
  ipv6hdr_le := fun off h => absurd h (by simp [netHeaderGetIpv6Hdr, netHeaderGetEthertype, linkHeader, ethPIp, ethPIpv6])
  srcmac_le := fun _ => by decide

example : (netHeaderParse ipv4Solicit.capture { ipv4Solicit.net with data := 0, ipPld := none }).map
    (fun r => (r.2.packetLen, r.2.parsed, r.2.data, r.2.ethHeader.ethertype, r.2.ipProtocol)) =
      some (66, 42, 42, ethPIp, ipprotoIcmpv6) := by
  decide +kernel

def bareAdvert : Packet where
  capture := linkCapture 0x86 0xDD
    ([0x60, 0, 0, 0, 0, 24, 58, 255] ++ List.replicate 32 0 ++ [136, 0, 0, 0, 0, 0, 0, 0] ++ List.replicate 16 7)
    (by decide)
  net :=
    { packetLen := 78, parsed := 62, ethHeader := linkHeader ethPIpv6, ipVersion := 6, ipProtocol := ipprotoIcmpv6
      ethPld := .ipv6hdr 14, ipPld := some (.icmp6hdr 54), data := 62, start := 0, ethHeaderAvailable := true }
  data_eq := rfl
  parsed_le := by decide
  packetLen_le := by decide
  icmp6hdr_le := fun _ => ⟨54, rfl, by decide⟩
  ipv6hdr_le := by
    intro off h
    obtain rfl : 14 = off := Option.some.inj h
    decide
  srcmac_le := fun _ => by decide

example : (netHeaderParse bareAdvert.capture { bareAdvert.net with data := 0, ipPld := none }).map
    (fun r => (r.2.packetLen, r.2.parsed, r.2.data, r.2.ethHeader.ethertype, r.2.ipProtocol)) =
      some (78, 62, 62, ethPIpv6, ipprotoIcmpv6) := by
  decide +kernel

/-- The MAC of a message that was rejected is taught with the address of the next one. -/
theorem rejected_mac_learned :
    contributes .fresh ⟨ipv4Solicit, .zero⟩ = [] ∧ contributes (run [⟨ipv4Solicit, .zero⟩]) ⟨bareAdvert, .zero⟩ =
        [⟨List.replicate 16 7, some [2, 0, 0, 0, 0, 9], .fsmNdp⟩] ∧
      contributes .fresh ⟨bareAdvert, .zero⟩ = [⟨List.replicate 16 7, some (List.replicate 6 0), .fsmNdp⟩] ∧
      ¬ PerPacket (run [⟨ipv4Solicit, .zero⟩]) ⟨bareAdvert, .zero⟩ := by
  have ha : contributes (run [⟨ipv4Solicit, .zero⟩]) ⟨bareAdvert, .zero⟩ =
      [⟨replicate 16 7, some [2, 0, 0, 0, 0, 9], .fsmNdp⟩] := by decide +kernel
  have hal : contributes .fresh ⟨bareAdvert, .zero⟩ =
      [⟨replicate 16 7, some (replicate 6 0), .fsmNdp⟩] := by decide +kernel
  refine ⟨by decide +kernel, ha, hal, fun h => ?_⟩
  have heq := h.own .zero
  rw [ha, hal] at heq
  exact absurd heq (by decide +kernel)

end OpenSync.Ndp
