import OpenSync.NetHeader

/-!
# Headers inside the captured bytes

Parsing a packet stays inside the captured bytes exactly for captures that fit. The conditions say what is not compared:
whether the type of the link is there, whether an extension header starts and the offset of a segment's data is inside,
and whether the whole datagram, not only its data, was captured.
-/

namespace OpenSync.NetHeader
open List Capture

variable (c : Capture)

/-! ## Specification -/

def IpPayload.extent : IpPayload → ℕ × ℕ
  | .udphdr off => (off, 8)
  | .tcphdr off => (off, 20)
  | .icmphdr off => (off, 8)
  | .icmp6hdr off => (off, 8)

def EthPayload.extents : EthPayload → List (ℕ × ℕ)
  | .payload _ => []
  | .iphdr off => [(off, iphdrSize)]
  | .ipv6hdr off => [(off, ip6HdrSize)]

def Parser.headers (p : Parser) : List (ℕ × ℕ) :=
  [(p.ethHeader.dstmac, ethAlen), (p.ethHeader.srcmac, ethAlen)] ++ p.ethPld.extents ++
    p.ipPld.toList.map IpPayload.extent

def HeadersInside (p : Parser) : Prop := ∀ h ∈ p.headers, h.1 + h.2 ≤ c.bytes.length

def Inside (r : Result) : Prop :=
  ∃ size p, r = some (size, p) ∧
    (size ≠ 0 → p.parsed ≤ p.packetLen ∧ p.packetLen ≤ c.bytes.length ∧ p.data = p.start + p.parsed ∧ HeadersInside c p)

def presented (p : Parser) : Parser := { p with packetLen := c.bytes.length, data := 0, ipPld := none }

/-! ## Captures that fit -/

def Capture.byte (off : ℕ) : ℕ := (c.read off).getD 0

def Capture.word (off : ℕ) : ℕ := c.byte off * 256 + c.byte (off + 1)

def Capture.typeOff : ℕ := if c.pcapDatalink = dltLinuxSll then 14 else 12

def Capture.Tagged : Prop := c.word c.typeOff = ethP8021Q

instance : Decidable c.Tagged := inferInstanceAs (Decidable (_ = _))

def Capture.linkType : ℕ := if c.Tagged then c.word (c.typeOff + 4) else c.word c.typeOff

def Capture.linkEnd : ℕ := if c.Tagged then c.typeOff + 6 else c.typeOff + 2

/-- The type of the link is there, and that behind a tag. -/
def LinkFits : Prop := c.typeOff + 2 ≤ c.bytes.length ∧ (c.Tagged → c.typeOff + 6 ≤ c.bytes.length)

/-- A transport that starts at one offset, of a datagram that ends at another one: it is refused for its length, or the
datagram was captured. -/
def TransportFits (protocol off stop : ℕ) : Prop :=
  if protocol = ipprotoTcp then
    off + 12 < c.bytes.length ∧ (c.byte (off + 12) / 16 = 0 ∨ stop - off < c.byte (off + 12) / 16 * 4 ∨
      stop ≤ c.bytes.length ∧ off + 20 ≤ c.bytes.length)
  else if protocol = ipprotoUdp ∨ protocol = ipprotoIcmp ∨ protocol = ipprotoIcmpv6 then
    stop - off < 8 ∨ stop ≤ c.bytes.length
  else stop ≤ c.bytes.length

/-- A datagram behind the link: it is refused for its length, or its transport fits. -/
def Ipv4Fits (off : ℕ) : Prop :=
  let hlen := c.byte off % 16 * 4
  let total := c.word (off + 2)
  c.bytes.length - off < iphdrSize ∨ total < hlen ∨ c.bytes.length - off < total - hlen ∨
    TransportFits c (c.byte (off + 9)) (off + hlen) (off + total)

/-- From an extension header to the next header, given by their offsets and types. -/
def Hop (stop : ℕ) (h h' : ℕ × ℕ) : Prop :=
  isIpv6Extension h.2 = true ∧ h.1 + 2 ≤ c.bytes.length ∧ h' = (h.1 + 8 * (c.byte (h.1 + 1) + 1), c.byte h.1) ∧ h'.1 ≤ stop

/-- Extension headers start inside, and the transport behind them fits. -/
def Ipv6Fits (off : ℕ) : Prop :=
  let stop := off + ip6HdrSize + c.word (off + 4)
  c.bytes.length - off < ip6HdrSize ∨ c.bytes.length - off < c.word (off + 4) ∨
    ∀ h, Relation.ReflTransGen (Hop c stop) (off + ip6HdrSize, c.byte (off + 6)) h →
      if isIpv6Extension h.2 = true then h.1 + 2 ≤ c.bytes.length else TransportFits c h.2 h.1 stop

def Fits : Prop :=
  c.bytes.length < ethHlen ∨
    LinkFits c ∧ (c.linkType = ethPIp → Ipv4Fits c c.linkEnd) ∧ (c.linkType = ethPIpv6 → Ipv6Fits c c.linkEnd)

variable {c} {p : Parser}

/-! ## Reads -/

variable {off : ℕ}

theorem read_eq (h : off < c.bytes.length) : c.read off = some (c.byte off) := by
  simp [Capture.byte, Capture.read, getElem?_eq_getElem h]

theorem read_none (h : c.bytes.length ≤ off) : c.read off = none := by
  simp [Capture.read, getElem?_eq_none h]

theorem ntohs_eq (h : off + 2 ≤ c.bytes.length) : c.ntohs off = some (c.word off) := by
  rw [ntohs, read_eq (by omega), read_eq (by omega)]
  rfl

theorem ntohs_none (h : c.bytes.length < off + 2) : c.ntohs off = none := by
  rw [ntohs, read_none (show c.bytes.length ≤ off + 1 by omega)]
  cases c.read off <;> rfl

theorem byte_lt (off : ℕ) : c.byte off < 256 := by
  rw [Capture.byte, Capture.read]
  cases c.bytes[off]? with
  | none => decide
  | some b => exact b.toNat_lt

theorem sizeSub_eq {a b : ℕ} (h : b ≤ a) (ha : a < 2 ^ 64) : sizeSub a b = a - b := by
  rw [sizeSub]
  omega

theorem sizeSub_wrap {a b : ℕ} (h : a < b) (hb : b < 2 ^ 64) : sizeSub a b = 2 ^ 64 - (b - a) := by
  rw [sizeSub]
  omega

theorem not_inside_none : ¬ Inside c none := by
  rintro ⟨size, p, h, -⟩
  cases h

theorem inside_zero (p : Parser) : Inside c (some (0, p)) := ⟨0, p, rfl, fun h => absurd rfl h⟩

theorem inside_some_iff {size : ℕ} (h : size ≠ 0) : Inside c (some (size, p)) ↔
    p.parsed ≤ p.packetLen ∧ p.packetLen ≤ c.bytes.length ∧ p.data = p.start + p.parsed ∧ HeadersInside c p := by
  constructor
  · rintro ⟨_, _, heq, hin⟩
    cases heq
    exact hin h
  · exact fun hin => ⟨size, p, rfl, fun _ => hin⟩

/-! ## Transport -/

structure AtTransport (c : Capture) (p : Parser) : Prop where
  start : p.start = 0
  data : p.data = p.parsed
  parsed : p.parsed ≤ p.packetLen
  short : p.packetLen < 2 ^ 64
  ipPld : p.ipPld = none
  headers : HeadersInside c p

section

variable (h : AtTransport c p)
include h

theorem headersInside_transport (parsed data : ℕ) (pld : IpPayload) :
    HeadersInside c { p with ipPld := some pld, parsed, data } ↔ pld.extent.1 + pld.extent.2 ≤ c.bytes.length := by
  have ho := h.headers
  simp only [HeadersInside, Parser.headers, h.ipPld, Option.toList_none, map_nil, append_nil] at ho
  simp only [HeadersInside, Parser.headers, Option.toList_some, map_cons, map_nil, forall_mem_append,
    forall_mem_singleton]
  rw [← forall_mem_append]
  exact ⟨And.right, fun hex => ⟨ho, hex⟩⟩

theorem inside_parseEightBytes {hdr : ℕ → IpPayload} (hd8 : ∀ off, (hdr off).extent = (off, 8)) :
    Inside c (parseEightBytes hdr p) ↔ p.packetLen - p.parsed < 8 ∨ p.packetLen ≤ c.bytes.length := by
  have hs := h.start
  have hd := h.data
  rw [parseEightBytes, sizeSub_eq h.parsed h.short]
  by_cases hl : p.packetLen - p.parsed < 8
  · simp only [hl, if_true, true_or, iff_true]
    exact inside_zero p
  · simp only [hl, if_false, false_or]
    rw [inside_some_iff (by decide), headersInside_transport h, hd8]
    dsimp only
    omega

theorem inside_tcp : Inside c (netHeaderParseTcp c p) ↔
    p.parsed + 12 < c.bytes.length ∧ (c.byte (p.parsed + 12) / 16 = 0 ∨
      p.packetLen - p.parsed < c.byte (p.parsed + 12) / 16 * 4 ∨
      p.packetLen ≤ c.bytes.length ∧ p.parsed + 20 ≤ c.bytes.length) := by
  have hs := h.start
  rw [netHeaderParseTcp, h.data, sizeSub_eq h.parsed h.short]
  by_cases hr : p.parsed + 12 < c.bytes.length
  · simp only [read_eq hr, Option.bind_eq_bind, Option.bind_some, hr, true_and]
    by_cases hl : p.packetLen - p.parsed < c.byte (p.parsed + 12) / 16 * 4
    · simp only [hl, if_true, true_or, or_true, iff_true]
      exact inside_zero p
    simp only [hl, if_false, false_or]
    by_cases hz : c.byte (p.parsed + 12) / 16 = 0
    · simp only [hz, true_or, iff_true]
      exact inside_zero _
    · rw [inside_some_iff (by omega), headersInside_transport h]
      dsimp only [IpPayload.extent]
      omega
  · simp only [read_none (Nat.le_of_not_lt hr), Option.bind_eq_bind, Option.bind_none, hr, false_and, iff_false]
    exact not_inside_none

theorem inside_transport {len : ℕ} (hl : len ≠ 0) :
    Inside c (parseTransport c len p) ↔ TransportFits c p.ipProtocol p.parsed p.packetLen := by
  rw [parseTransport, TransportFits]
  by_cases ht : p.ipProtocol = ipprotoTcp
  · rw [if_pos ht, if_pos ht, inside_tcp h]
  rw [if_neg ht, if_neg ht]
  by_cases hu : p.ipProtocol = ipprotoUdp
  · rw [if_pos hu, if_pos (.inl hu), netHeaderParseUdp, inside_parseEightBytes h fun _ => rfl]
  rw [if_neg hu]
  by_cases hic : p.ipProtocol = ipprotoIcmp
  · rw [if_pos hic, if_pos (.inr (.inl hic)), netHeaderParseIcmp, inside_parseEightBytes h fun _ => rfl]
  rw [if_neg hic]
  by_cases hi6 : p.ipProtocol = ipprotoIcmpv6
  · rw [if_pos hi6, if_pos (.inr (.inr hi6)), netHeaderParseIcmp6, inside_parseEightBytes h fun _ => rfl]
  rw [if_neg hi6, if_neg (by simp [hu, hic, hi6]), inside_some_iff hl]
  have hd : p.data = p.start + p.parsed := by rw [h.start, Nat.zero_add, h.data]
  exact ⟨fun hin => hin.2.1, fun hs => ⟨h.parsed, hs, hd, h.headers⟩⟩

end

/-! ## Network -/

def behindIp (c : Capture) (r : Result) : Result :=
  r.bind fun res => if res.1 = 0 then some (0, res.2) else parseTransport c res.1 res.2

theorem behindIp_zero (p : Parser) : behindIp c (some (0, p)) = some (0, p) := by
  rw [behindIp, Option.bind_some, if_pos rfl]

structure AtNetwork (c : Capture) (p : Parser) : Prop where
  start : p.start = 0
  data : p.data = p.parsed
  packetLen : p.packetLen = c.bytes.length
  parsed : p.parsed ≤ c.bytes.length
  parsed_ne_zero : p.parsed ≠ 0
  ipPld : p.ipPld = none
  macs : p.ethHeader.dstmac + ethAlen ≤ c.bytes.length ∧ p.ethHeader.srcmac + ethAlen ≤ c.bytes.length

theorem AtNetwork.len (h : AtNetwork c p) : sizeSub p.packetLen p.parsed = c.bytes.length - p.parsed := by
  have hs := c.short
  rw [h.packetLen, sizeSub_eq h.parsed (by omega)]

theorem AtNetwork.headersInside (h : AtNetwork c p) {p' : Parser} (het : p'.ethHeader = p.ethHeader)
    (hp : p'.ipPld = p.ipPld) (hr : ∀ x ∈ p'.ethPld.extents, x.1 + x.2 ≤ c.bytes.length) : HeadersInside c p' := by
  intro x hx
  simp only [Parser.headers, het, hp, h.ipPld, Option.toList_none, map_nil, append_nil, mem_append, mem_cons,
    not_mem_nil, or_false] at hx
  rcases hx with (rfl | rfl) | hx
  · exact h.macs.1
  · exact h.macs.2
  · exact hr x hx

theorem word_lt (off : ℕ) : c.word off < 65536 := by
  have hh := byte_lt (c := c) off
  have hl := byte_lt (c := c) (off + 1)
  rw [word]
  omega

theorem inside_ipv4 (h : AtNetwork c p) : Inside c (behindIp c (netHeaderParseIpv4 c p)) ↔ Ipv4Fits c p.parsed := by
  have hsh := c.short
  have hne := h.parsed_ne_zero
  have ht := word_lt (c := c) (p.parsed + 2)
  rw [netHeaderParseIpv4, h.len, h.data, Ipv4Fits]
  by_cases hl : c.bytes.length - p.parsed < iphdrSize
  · simp only [hl, if_true, behindIp_zero, true_or, iff_true]
    exact inside_zero p
  have hr : p.parsed + 20 ≤ c.bytes.length := by
    rw [iphdrSize] at hl
    omega
  have hir := read_eq (show p.parsed < c.bytes.length by omega)
  have htr := ntohs_eq (show p.parsed + 2 + 2 ≤ c.bytes.length by omega)
  have hp := read_eq (show p.parsed + 9 < c.bytes.length by omega)
  simp only [hl, if_false, false_or]
  rw [hir, Option.bind_eq_bind, Option.bind_some, htr, Option.bind_some]
  by_cases hs : c.word (p.parsed + 2) < c.byte p.parsed % 16 * 4
  · -- the length wraps round, and no packet is so long
    have hw : c.bytes.length - p.parsed < sizeSub (c.word (p.parsed + 2)) (c.byte p.parsed % 16 * 4) := by
      rw [sizeSub_wrap hs (by omega)]
      omega
    rw [if_pos hw, behindIp_zero]
    exact iff_of_true (inside_zero _) (.inl hs)
  rw [sizeSub_eq (Nat.le_of_not_lt hs) (by omega), or_iff_right hs]
  by_cases hd : c.bytes.length - p.parsed < c.word (p.parsed + 2) - c.byte p.parsed % 16 * 4
  · rw [if_pos hd, behindIp_zero]
    exact iff_of_true (inside_zero _) (.inl hd)
  have hst : p.parsed + c.byte p.parsed % 16 * 4 + (c.word (p.parsed + 2) - c.byte p.parsed % 16 * 4) =
      p.parsed + c.word (p.parsed + 2) := by omega
  rw [if_neg hd, hp, Option.bind_some, behindIp, Option.bind_some,
    if_neg (by dsimp only; omega), or_iff_right hd, ← hst]
  refine inside_transport ?_ (by omega)
  refine ⟨h.start, rfl, ?_, ?_, h.ipPld, ?_⟩
  · dsimp only
    omega
  · dsimp only
    omega
  · exact h.headersInside rfl rfl (forall_mem_singleton.mpr hr)

/-! ## Extension headers -/

structure AtExtension (c : Capture) (p : Parser) : Prop extends AtTransport c p where
  parsed_ne_zero : p.parsed ≠ 0

theorem forall_hops_iff {P : ℕ × ℕ → Prop} {stop : ℕ} {x : ℕ × ℕ} :
    (∀ y, Relation.ReflTransGen (Hop c stop) x y → P y) ↔
      P x ∧ ∀ y, Hop c stop x y → ∀ z, Relation.ReflTransGen (Hop c stop) y z → P z := by
  refine ⟨fun h => ⟨h x .refl, fun y hy z hz => h z (.head hy hz)⟩, fun h z hz => ?_⟩
  rcases Relation.ReflTransGen.cases_head hz with rfl | ⟨y, hy, hr⟩
  · exact h.1
  · exact h.2 y hy z hr

theorem inside_loop {fuel id : ℕ} (h : AtExtension c p) (hf : p.packetLen - p.parsed < fuel) :
    Inside c (behindIp c (ipv6PayloadLoop c fuel p id)) ↔
      ∀ x, Relation.ReflTransGen (Hop c p.packetLen) (p.parsed, id) x →
        if isIpv6Extension x.2 = true then x.1 + 2 ≤ c.bytes.length else TransportFits c x.2 x.1 p.packetLen := by
  induction fuel generalizing p id with
  | zero => exact absurd hf (Nat.not_lt_zero _)
  | succ fuel ih =>
    have hne := h.parsed_ne_zero
    rw [ipv6PayloadLoop, h.data, forall_hops_iff]
    by_cases hex : isIpv6Extension id = true
    · rw [if_pos hex, if_pos hex]
      by_cases hr : p.parsed + 2 ≤ c.bytes.length
      · simp only [read_eq (show p.parsed < c.bytes.length by omega),
          read_eq (show p.parsed + 1 < c.bytes.length by omega), Option.bind_eq_bind, Option.bind_some]
        rw [and_iff_right hr]
        by_cases hl : p.parsed + 8 * (c.byte (p.parsed + 1) + 1) > p.packetLen
        · -- the header ends behind the datagram, so that there is no other one
          rw [if_pos hl, behindIp_zero]
          refine iff_of_true (inside_zero p) fun y hy => ?_
          obtain ⟨-, -, rfl, hs⟩ := hy
          exact absurd hl (Nat.not_lt.mpr hs)
        · rw [if_neg hl]
          have hn : AtExtension c { p with
              data := p.parsed + 8 * (c.byte (p.parsed + 1) + 1)
              parsed := p.parsed + 8 * (c.byte (p.parsed + 1) + 1) } :=
            ⟨⟨h.start, rfl, Nat.le_of_not_lt hl, h.short, h.ipPld, h.headers⟩, by dsimp only; omega⟩
          rw [ih hn (by dsimp only; omega)]
          refine ⟨fun ha y hy => ?_, fun ha => ha _ ⟨hex, hr, rfl, Nat.le_of_not_lt hl⟩⟩
          obtain ⟨-, -, rfl, -⟩ := hy
          exact ha
      · refine iff_of_false (fun hin => ?_) fun ha => hr ha.1
        -- one of the two bytes is not there
        have hno : (c.read p.parsed).bind (fun nextHeader => (c.read (p.parsed + 1)).bind fun extLen =>
            if p.parsed + 8 * (extLen + 1) > p.packetLen then some (0, p)
            else ipv6PayloadLoop c fuel { p with
              data := p.parsed + 8 * (extLen + 1), parsed := p.parsed + 8 * (extLen + 1) } nextHeader) = none := by
          rw [read_none (show c.bytes.length ≤ p.parsed + 1 by omega)]
          cases c.read p.parsed <;> rfl
        rw [behindIp] at hin
        simp only [Option.bind_eq_bind] at hin
        rw [hno] at hin
        exact not_inside_none hin
    · have hat : AtTransport c { p with ipProtocol := id, data := p.parsed } :=
        ⟨h.start, rfl, h.parsed, h.short, h.ipPld, h.headers⟩
      rw [if_neg hex, if_neg hex, behindIp, Option.bind_some, if_neg hne, and_iff_left fun y hy => absurd hy.1 hex]
      exact inside_transport hat hne

theorem loop_result {fuel id : ℕ} {res : ℕ × Parser} (h : ipv6PayloadLoop c fuel p id = some res) :
    res.1 = 0 ∨ res.1 = res.2.parsed := by
  induction fuel generalizing p id with
  | zero => cases h
  | succ fuel ih =>
    rw [ipv6PayloadLoop] at h
    split at h
    · obtain ⟨next, -, h⟩ := Option.bind_eq_some_iff.mp h
      obtain ⟨len, -, h⟩ := Option.bind_eq_some_iff.mp h
      dsimp only at h
      split at h
      · cases h
        exact .inl rfl
      · exact ih h
    · cases h
      exact .inr rfl

theorem behindIp_again {r : Result} (h : ∀ res, r = some res → res.1 = 0 ∨ res.1 = res.2.parsed) :
    behindIp c (r.bind fun res => if res.1 = 0 then some (0, res.2) else some (res.2.parsed, res.2)) = behindIp c r := by
  cases r with
  | none => rfl
  | some res =>
    rw [Option.bind_some]
    rcases h res rfl with hz | hp
    · simp [behindIp, hz]
    · by_cases hz : res.2.parsed = 0
      · simp [behindIp, hp, hz]
      · simp [behindIp, hp, hz]

theorem inside_ipv6 (h : AtNetwork c p) (ht : p.ethHeader.ethertype = ethPIpv6) :
    Inside c (behindIp c (netHeaderParseIpv6 c p)) ↔ Ipv6Fits c p.parsed := by
  have hs := c.short
  rw [netHeaderParseIpv6, h.len, h.data, Ipv6Fits]
  by_cases hl : c.bytes.length - p.parsed < ip6HdrSize
  · simp only [hl, if_true, behindIp_zero, true_or, iff_true]
    exact inside_zero p
  have hr : p.parsed + 40 ≤ c.bytes.length := by
    rw [ip6HdrSize] at hl
    omega
  simp only [hl, if_false, false_or, ntohs_eq (show p.parsed + 4 + 2 ≤ c.bytes.length by omega), Option.bind_eq_bind,
    Option.bind_some]
  by_cases hd : c.bytes.length - p.parsed < c.word (p.parsed + 4)
  · simp only [hd, if_true, behindIp_zero, true_or, iff_true]
    exact inside_zero _
  simp only [hd, if_false, false_or, netHeaderGetIpv6Payload, netHeaderGetIpv6Hdr, netHeaderGetEthertype, ht,
    ne_eq, not_true_eq_false, read_eq (show p.parsed + 6 < c.bytes.length by omega), Option.bind_eq_bind,
    Option.bind_some]
  rw [behindIp_again fun res hre => loop_result hre]
  refine inside_loop ?_ ?_
  · refine ⟨⟨h.start, rfl, ?_, ?_, h.ipPld, ?_⟩, ?_⟩
    · dsimp only
      omega
    · dsimp only [ip6HdrSize]
      omega
    · exact h.headersInside rfl rfl (forall_mem_singleton.mpr hr)
    · dsimp only [ip6HdrSize]
      omega
  · dsimp only
    omega

/-! ## Link -/

theorem parseEth_none (hl : ¬ c.bytes.length < ethHlen) (hd : p.data = 0) (hp : p.packetLen = c.bytes.length)
    (h : ¬ LinkFits c) : netHeaderParseEth c p = none := by
  have ht : (if c.pcapDatalink = dltLinuxSll then 2 * ethAlen + 2 else 2 * ethAlen) = c.typeOff := by
    rw [typeOff]
    rfl
  simp only [netHeaderParseEth, hp, hl, if_false, hd, ht, Nat.zero_add, Option.bind_eq_bind]
  by_cases hr : c.typeOff + 2 ≤ c.bytes.length
  · rw [LinkFits, and_iff_right hr, Classical.not_imp] at h
    obtain ⟨hta, hs⟩ := h
    have hw : c.word c.typeOff = ethP8021Q := hta
    rw [ntohs_eq hr, Option.bind_some, if_pos hw, ntohs_none (show c.bytes.length < c.typeOff + 4 + 2 by omega)]
    cases c.ntohs (c.typeOff + 2) <;> rfl
  · rw [ntohs_none (Nat.lt_of_not_le hr)]
    rfl

theorem parseEth_some (hl : ¬ c.bytes.length < ethHlen) (hd : p.data = 0) (hp : p.packetLen = c.bytes.length)
    (hs : p.start = 0) (hpl : p.ipPld = none) (h : LinkFits c) :
    ∃ p', netHeaderParseEth c p = some (c.linkEnd, p') ∧ AtNetwork c p' ∧ p'.parsed = c.linkEnd ∧
      p'.ethHeader.ethertype = c.linkType ∧ p'.ethPld = .payload c.linkEnd := by
  have hty : (if c.pcapDatalink = dltLinuxSll then 2 * ethAlen + 2 else 2 * ethAlen) = c.typeOff := by
    rw [typeOff]
    rfl
  have hm : 0 + ethAlen ≤ c.bytes.length ∧ ethAlen + ethAlen ≤ c.bytes.length := by
    rw [ethHlen] at hl
    rw [ethAlen]
    omega
  simp only [netHeaderParseEth, hp, hl, if_false, hd, hty, Nat.zero_add, Option.bind_eq_bind,
    ntohs_eq h.1, Option.bind_some, linkEnd, linkType]
  by_cases ht : c.Tagged
  · have hr := h.2 ht
    have hw : c.word c.typeOff = ethP8021Q := ht
    rw [if_pos hw, if_pos ht, if_pos ht, ntohs_eq (show c.typeOff + 2 + 2 ≤ c.bytes.length by omega),
      Option.bind_some, ntohs_eq (show c.typeOff + 4 + 2 ≤ c.bytes.length by omega)]
    exact ⟨_, rfl, ⟨hs, rfl, rfl, hr, Nat.succ_ne_zero _, hpl, hm⟩, rfl, rfl, rfl⟩
  · have hw : ¬ c.word c.typeOff = ethP8021Q := ht
    rw [if_neg hw, if_neg ht, if_neg ht]
    exact ⟨_, rfl, ⟨hs, rfl, rfl, h.1, Nat.succ_ne_zero _, hpl, hm⟩, rfl, rfl, rfl⟩

/-! ## All layers -/

/-- Parsing reads and finds nothing outside the captured bytes if and only if each layer fits. -/
theorem parse_inside_iff (c : Capture) (p : Parser) : Inside c (netHeaderParse c (presented c p)) ↔ Fits c := by
  rw [netHeaderParse, Fits]
  by_cases hle : c.bytes.length < ethHlen
  · simp only [netHeaderParseEth, presented, hle, if_true, Option.bind_eq_bind, Option.bind_some, true_or, iff_true]
    exact inside_zero _
  simp only [hle, false_or, Option.bind_eq_bind]
  by_cases hl : LinkFits c
  · obtain ⟨p', het, hat, hp, ht, hpl⟩ := parseEth_some
      (p := { presented c p with start := (presented c p).data, parsed := 0 }) hle rfl rfl rfl rfl hl
    have hne : c.linkEnd ≠ 0 := hp ▸ hat.parsed_ne_zero
    simp only [het, Option.bind_some, hne, if_false, hl, true_and, netHeaderGetEthertype, ht]
    have hk : ethPIpv6 ≠ ethPIp := by decide
    by_cases hip : c.linkType = ethPIp
    · simp only [hip, hk.symm, true_or, not_true_eq_false, if_false, netHeaderParseIp, netHeaderGetEthertype, ht,
        if_true, true_imp_iff, false_imp_iff, and_true]
      rw [← hp]
      exact inside_ipv4 hat
    · by_cases hi6 : c.linkType = ethPIpv6
      · simp only [hi6, hk, or_true, not_true_eq_false, if_false, netHeaderParseIp, netHeaderGetEthertype, ht,
          if_true, true_imp_iff, false_imp_iff, true_and]
        rw [← hp]
        exact inside_ipv6 hat (ht.trans hi6)
      · simp only [hip, hi6, or_self, not_false_eq_true, if_true, false_imp_iff, and_self, iff_true]
        rw [inside_some_iff hne, hat.packetLen, hat.start, Nat.zero_add]
        exact ⟨hat.parsed, Nat.le_refl _, hat.data, hat.headersInside rfl rfl (by simp [hpl, EthPayload.extents])⟩
  · rw [parseEth_none hle rfl rfl hl]
    exact iff_of_false not_inside_none fun h => hl h.1

instance (off : ℕ) (protocol stop : ℕ) : Decidable (TransportFits c protocol off stop) :=
  inferInstanceAs (Decidable (ite _ _ (ite _ _ _)))

def blankParser : Parser where
  packetLen := 0
  parsed := 0
  ethHeader := ⟨0, 0, 0, 0⟩
  ipVersion := 0
  ipProtocol := 0
  ethPld := .payload 0
  ipPld := none
  data := 0
  start := 0
  ethHeaderAvailable := false

def ipv4Capture (total protocol : UInt8) (rest : List UInt8) (h : rest.length < 2 ^ 32) : Capture where
  bytes := List.replicate 12 0 ++ [0x08, 0x00, 0x45, 0, 0, total, 0, 0, 0, 0, 64, protocol] ++ List.replicate 10 0 ++ rest
  pcapDatalink := 1
  short := by
    simp only [List.length_append, List.length_replicate, List.length_cons, List.length_nil]
    omega

def udpCapture : Capture := ipv4Capture 28 17 [0, 53, 0, 53, 0, 8, 0, 0] (by decide)

theorem udpCapture_inside : Inside udpCapture (netHeaderParse udpCapture (presented udpCapture blankParser)) :=
  (parse_inside_iff udpCapture blankParser).mpr
    (.inr ⟨⟨by decide, fun h => absurd h (by decide)⟩, fun _ => .inr (.inr (.inr (by decide))),
      fun h => absurd h (by decide)⟩)

def cutCapture : Capture := ipv4Capture 40 47 [] (by decide)

def cookedCapture : Capture where
  bytes := List.replicate 14 0
  pcapDatalink := dltLinuxSll
  short := by decide

/-- A read outside the packet, and a length of it that is more than what was captured. -/
theorem cut_capture_outside :
    ¬ Inside cookedCapture (netHeaderParse cookedCapture (presented cookedCapture blankParser)) ∧
      (netHeaderParse cutCapture (presented cutCapture blankParser)).map (fun r => (r.1, r.2.packetLen)) = some (34, 54) ∧
      cutCapture.bytes.length = 34 ∧
      ¬ Inside cutCapture (netHeaderParse cutCapture (presented cutCapture blankParser)) := by
  have hc : (netHeaderParse cookedCapture (presented cookedCapture blankParser)).isNone = true := by decide +kernel
  have hcu : (netHeaderParse cutCapture (presented cutCapture blankParser)).map (fun r => (r.1, r.2.packetLen)) =
      some (34, 54) := by decide +kernel
  refine ⟨?_, hcu, by decide, ?_⟩
  · rw [Option.isNone_iff_eq_none.mp hc]
    exact not_inside_none
  · rintro ⟨size, p, heq, hin⟩
    rw [heq, Option.map_some, Option.some.injEq, Prod.mk.injEq] at hcu
    obtain ⟨hs, hl⟩ : size = 34 ∧ p.packetLen = 54 := hcu
    have hle := (hin (by rw [hs]; decide)).2.1
    rw [hl] at hle
    exact absurd hle (by decide)

end OpenSync.NetHeader
