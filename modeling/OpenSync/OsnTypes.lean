import Mathlib.Tactic
import OpenSync.Address

/-!
# Subnets and kinds of IPv6 addresses

`osn_types.c` compares two addresses up to the prefix of a subnet. The prefix is passed on as it is stored: a prefix of
zero compares the whole first byte, and an absent one goes on behind addresses that are equal.
-/

namespace OpenSync.Osn
open List Option

open Net (bytesCmp bytesCmp_eq_zero)

/-- An address with the prefix that is `-1` where there is none, and its lifetimes. -/
structure Ip6Addr where
  ia6Addr : List UInt8
  ia6Prefix : ℤ
  ia6PrefLft : ℤ
  ia6ValidLft : ℤ
  length_addr : ia6Addr.length = 16
  range : -1 ≤ ia6Prefix ∧ ia6Prefix ≤ 128

def masked (j : ℕ) (x : UInt8) : BitVec 8 := x.toBitVec &&& 0xff#8 <<< j

/-- The loop of `bitcmp` from bit `ii` on; without bytes it would read behind the addresses. -/
def bitcmpFrom (nbits : ℕ) : ℕ → List UInt8 → List UInt8 → Option ℤ
  | ii, x :: a, y :: b =>
    let j := (((ii : ℤ) - nbits) % 8).toNat
    if ii + 8 < nbits then if x ≠ y then some (x.toNat - y.toNat) else bitcmpFrom nbits (ii + 8) a b
    else if masked j x ≠ masked j y then some ((masked j x).toNat - (masked j y).toNat)
    else some 0
  | _, _, _ => none

def bitcmp (a b : List UInt8) (nbits : ℕ) : Option ℤ := bitcmpFrom nbits 0 a b

/-- The prefix counted in bits. -/
def Ip6Addr.len (a : Ip6Addr) : ℤ := if a.ia6Prefix = -1 then 128 else a.ia6Prefix

def osnIp6AddrIsSubnet (addr subnet : Ip6Addr) : Option Bool :=
  if addr.len < subnet.len then some false
  else (bitcmp addr.ia6Addr subnet.ia6Addr (subnet.ia6Prefix % 2 ^ 64).toNat).map (· == 0)

/-! ## Membership -/

/-- The first `n` bits are the same: of each byte those in front. -/
def agree : ℕ → List UInt8 → List UInt8 → Bool
  | n, x :: a, y :: b => x.toBitVec >>> (8 - n) == y.toBitVec >>> (8 - n) && agree (n - 8) a b
  | _, _, _ => true

def InSubnet (a s : Ip6Addr) : Prop := s.len ≤ a.len ∧ agree s.len.toNat a.ia6Addr s.ia6Addr = true

variable {x y : UInt8} {a b : List UInt8} {nbits ii n : ℕ} {addr subnet : Ip6Addr}

theorem masked_inj {j : ℕ} (hj : j < 8) : masked j x = masked j y ↔ x.toBitVec >>> j = y.toBitVec >>> j := by
  have hs : ∀ j < 8, ∀ v : BitVec 8, v &&& 0xff#8 <<< j = v >>> j <<< j ∧ v >>> j <<< j >>> j = v >>> j := by
    decide +kernel
  rw [masked, masked, (hs j hj _).1, (hs j hj _).1]
  refine ⟨fun h => ?_, fun h => h ▸ rfl⟩
  rw [← (hs j hj x.toBitVec).2, h, (hs j hj _).2]

theorem toNat_sub_eq_zero {v w : BitVec 8} : (v.toNat : ℤ) - w.toNat = 0 ↔ v = w := by
  rw [← BitVec.toNat_inj]
  omega

theorem agree_zero (a b : List UInt8) : agree 0 a b = true := by
  induction a generalizing b with
  | nil => rfl
  | cons x a ih =>
    cases b with
    | nil => rfl
    | cons y b => simp [agree, ih, BitVec.ushiftRight_eq_zero]

theorem eq_of_agree (hl : a.length = b.length) (h : agree (8 * a.length) a b = true) : a = b := by
  induction a generalizing b with
  | nil => exact (length_eq_zero_iff.mp hl.symm).symm
  | cons x a ih =>
    obtain _ | ⟨y, b⟩ := b
    · cases hl
    rw [length_cons, Nat.mul_succ, agree, Nat.add_sub_cancel, Nat.sub_eq_zero_of_le (Nat.le_add_left 8 _)] at h
    simp only [BitVec.ushiftRight_zero, Bool.and_eq_true, beq_iff_eq, UInt8.toBitVec_inj] at h
    rw [h.1, ih (Nat.succ.inj hl) h.2]

theorem bitcmpFrom_more (hm : ii + 8 < nbits) : bitcmpFrom nbits ii (x :: a) (y :: b) =
      if x = y then bitcmpFrom nbits (ii + 8) a b else some ((x.toNat : ℤ) - y.toNat) :=
  (if_pos hm).trans (ite_not ..)

theorem bitcmpFrom_last (hl : ¬ ii + 8 < nbits) : ∃ r, bitcmpFrom nbits ii (x :: a) (y :: b) = some r ∧
      (r = 0 ↔ x.toBitVec >>> (((ii : ℤ) - nbits) % 8).toNat = y.toBitVec >>> (((ii : ℤ) - nbits) % 8).toNat) := by
  rw [← masked_inj (by omega), ← toNat_sub_eq_zero]
  refine ⟨_, (if_neg hl).trans ?_, Iff.rfl⟩
  split_ifs with heq
  · rfl
  · rw [toNat_sub_eq_zero.mpr (not_not.mp heq)]

theorem bitcmpFrom_agree (hl : a.length = b.length) (hii : ii < nbits) (hb : nbits ≤ ii + 8 * a.length) :
    ∃ r, bitcmpFrom nbits ii a b = some r ∧ (r = 0 ↔ agree (nbits - ii) a b = true) := by
  induction a generalizing b ii with
  | nil => rw [length_nil] at hb; omega
  | cons x a ih =>
    obtain _ | ⟨y, b⟩ := b
    · cases hl
    rw [length_cons] at hl hb
    rw [agree, Bool.and_eq_true, beq_iff_eq]
    by_cases hm : ii + 8 < nbits
    · rw [bitcmpFrom_more hm, Nat.sub_eq_zero_of_le (by omega : 8 ≤ nbits - ii), BitVec.ushiftRight_zero,
        BitVec.ushiftRight_zero, UInt8.toBitVec_inj, Nat.sub_sub]
      split_ifs with hxy
      · obtain ⟨r, hr, hif⟩ := ih (Nat.succ.inj hl) hm (by omega)
        exact ⟨r, hr, hif.trans (and_iff_right hxy).symm⟩
      · exact ⟨_, rfl, iff_of_false (fun h => hxy (UInt8.toBitVec_inj.mp (toNat_sub_eq_zero.mp h))) fun h => hxy h.1⟩
    · obtain ⟨r, hr, hif⟩ := bitcmpFrom_last hm (x := x) (y := y) (a := a) (b := b)
      rw [show (((ii : ℤ) - nbits) % 8).toNat = 8 - (nbits - ii) by omega] at hif
      rw [show nbits - ii - 8 = 0 by omega]
      exact ⟨r, hr, hif.trans (and_iff_left (agree_zero a b)).symm⟩

/-- Further than the addresses go, only a difference stops the loop. -/
theorem bitcmpFrom_unbounded (hl : a.length = b.length) (hb : ii + 8 * a.length < nbits) :
    (bitcmpFrom nbits ii a b = none ↔ a = b) ∧ bitcmpFrom nbits ii a b ≠ some 0 := by
  induction a generalizing b ii with
  | nil => rw [length_eq_zero_iff.mp hl.symm]; exact ⟨iff_of_true rfl rfl, nofun⟩
  | cons x a ih =>
    obtain _ | ⟨y, b⟩ := b
    · cases hl
    rw [length_cons] at hl hb
    rw [bitcmpFrom_more (by omega)]
    split_ifs with hxy
    · rw [hxy, cons.injEq, and_iff_right rfl]
      exact ih (Nat.succ.inj hl) (by omega)
    · refine ⟨iff_of_false nofun fun h => hxy (cons.inj h).1, fun h => ?_⟩
      exact hxy (UInt8.toBitVec_inj.mp (toNat_sub_eq_zero.mp (some.inj h)))

theorem isSubnet_of_pos (hp : 0 < subnet.ia6Prefix) :
    ∃ r, osnIp6AddrIsSubnet addr subnet = some r ∧ (r = true ↔ InSubnet addr subnet) := by
  have hra := subnet.range.2
  have hle : subnet.len = subnet.ia6Prefix := if_neg (by omega)
  rw [osnIp6AddrIsSubnet, InSubnet, hle]
  split_ifs with hl
  · exact ⟨false, rfl, iff_of_false Bool.false_ne_true fun h => by omega⟩
  · have hp : 0 < subnet.ia6Prefix.toNat := by omega
    have hb : subnet.ia6Prefix.toNat ≤ 0 + 8 * addr.ia6Addr.length := by rw [addr.length_addr]; omega
    obtain ⟨r, hr, hif⟩ := bitcmpFrom_agree (addr.length_addr.trans subnet.length_addr.symm) hp hb
    rw [Int.emod_eq_of_lt (by omega) (by omega), bitcmp, hr]
    exact ⟨r == 0, rfl, by rw [beq_iff_eq, hif, Nat.sub_zero, and_iff_right (by omega)]⟩

/-- Membership is right for a prefix of zero where the first bytes are the same, and without a prefix where the addresses
differ. -/
theorem isSubnet_right_iff (addr subnet : Ip6Addr) :
    (∃ r, osnIp6AddrIsSubnet addr subnet = some r ∧ (r = true ↔ InSubnet addr subnet)) ↔
      (subnet.ia6Prefix = 0 → addr.ia6Addr.head? = subnet.ia6Addr.head?) ∧
        (subnet.ia6Prefix = -1 → addr.len = 128 → addr.ia6Addr ≠ subnet.ia6Addr) := by
  have hl := addr.length_addr.trans subnet.length_addr.symm
  have hra := subnet.range.1
  have hlen : 0 ≤ addr.len ∧ addr.len ≤ 128 := by
    have had := addr.range
    rw [Ip6Addr.len]
    split_ifs <;> omega
  rcases lt_trichotomy 0 subnet.ia6Prefix with hp | hz | hneg
  · exact iff_of_true (isSubnet_of_pos hp) ⟨by omega, by omega⟩
  · obtain ⟨x, a, ha⟩ := exists_cons_of_length_pos (by rw [addr.length_addr]; decide : 0 < addr.ia6Addr.length)
    obtain ⟨y, b, hb⟩ := exists_cons_of_length_pos (by rw [subnet.length_addr]; decide : 0 < subnet.ia6Addr.length)
    obtain ⟨r, hr, (hby : r = 0 ↔ x.toBitVec >>> 0 = y.toBitVec >>> 0)⟩ :=
      bitcmpFrom_last (by decide : ¬ 0 + 8 < 0) (x := x) (y := y) (a := a) (b := b)
    have hs : subnet.len = 0 := by rw [Ip6Addr.len, ← hz]; rfl
    rw [osnIp6AddrIsSubnet, InSubnet, hs, if_neg (by omega), ← hz, bitcmp, Int.toNat_zero, agree_zero, ha, hb,
      Int.zero_emod, Int.toNat_zero, hr]
    simp [hby, hlen, UInt8.toBitVec_inj]
  · have hm : subnet.ia6Prefix = -1 := by omega
    rw [osnIp6AddrIsSubnet, InSubnet, show subnet.len = 128 from if_pos hm]
    split_ifs with hle
    · exact iff_of_true ⟨false, rfl, iff_of_false Bool.false_ne_true fun h => by omega⟩ ⟨by omega, by omega⟩
    have hbi : (subnet.ia6Prefix % 2 ^ 64).toNat = 2 ^ 64 - 1 := by rw [hm]; rfl
    have hmo : 0 + 8 * addr.ia6Addr.length < 2 ^ 64 - 1 := by rw [addr.length_addr]; decide
    obtain ⟨hn, hne⟩ := bitcmpFrom_unbounded hl hmo
    rw [hbi, bitcmp]
    cases hr : bitcmpFrom (2 ^ 64 - 1) 0 addr.ia6Addr subnet.ia6Addr with
    | none => exact iff_of_false (fun ⟨r, h, _⟩ => nomatch h) fun h => h.2 hm (by omega) (hn.mp hr)
    | some v =>
      have hd : addr.ia6Addr ≠ subnet.ia6Addr := fun h => nomatch (hn.mpr h).symm.trans hr
      refine iff_of_true ⟨v == 0, rfl, ?_⟩ ⟨by omega, fun _ _ => hd⟩
      refine iff_of_false (fun h => hne (hr.trans (congrArg some (beq_iff_eq.mp h)))) fun h => hd ?_
      exact eq_of_agree hl (by rw [addr.length_addr]; exact h.2)

/-! ## Kinds of addresses -/

inductive Ip6AddrType
  | invalid | loopback | localLink | localUnique | multicast | global
  deriving DecidableEq

def intMin : ℤ := -2 ^ 31

/-- What `osn_ip6_addr_from_str` makes of an address with two bytes in front and one at the end. -/
def net (x y z : UInt8) (n : Fin 129) : Ip6Addr :=
  ⟨[x, y, 0, 0, 0, 0, 0, 0, 0, 0, 0, 0, 0, 0, 0, z], n, intMin, intMin, rfl, by omega⟩

/-- Not every address is in the subnet of all addresses. -/
theorem everything_not_default : osnIp6AddrIsSubnet (net 0x20 0 0 128) (net 0 0 0 0) = some false ∧
    InSubnet (net 0x20 0 0 128) (net 0 0 0 0) :=
  ⟨by decide, by decide, by decide⟩

def osnIp6AddrCmp (a b : Ip6Addr) : ℤ :=
  let rc := bytesCmp a.ia6Addr b.ia6Addr
  if rc ≠ 0 then rc
  else if a.ia6Prefix - b.ia6Prefix ≠ 0 then a.ia6Prefix - b.ia6Prefix
  else if a.ia6PrefLft - b.ia6PrefLft ≠ 0 then a.ia6PrefLft - b.ia6PrefLft
  else b.ia6ValidLft - b.ia6ValidLft

/-- The text for multicast addresses is `ff::/8`, whose first byte is zero. -/
def osnIp6AddrType (ip6 : Ip6Addr) : Option Ip6AddrType := do
  if osnIp6AddrCmp ip6 (net 0 0 1 128) = 0 then return .loopback
  if ← osnIp6AddrIsSubnet ip6 (net 0xfe 0x80 0 10) then return .localLink
  if ← osnIp6AddrIsSubnet ip6 (net 0xfc 0 0 7) then return .localUnique
  if ← osnIp6AddrIsSubnet ip6 (net 0 0xff 0 8) then return .multicast
  if ← osnIp6AddrIsSubnet ip6 (net 0x20 0 0 3) then return .global
  return .invalid

/-- The kind of an address; the subnets have no address in common. -/
def kind (a : List UInt8) : Ip6AddrType :=
  if a = (net 0 0 1 128).ia6Addr then .loopback
  else if agree 10 a (net 0xfe 0x80 0 10).ia6Addr then .localLink
  else if agree 7 a (net 0xfc 0 0 7).ia6Addr then .localUnique
  else if agree 8 a (net 0xff 0 0 8).ia6Addr then .multicast
  else if agree 3 a (net 0x20 0 0 3).ia6Addr then .global
  else .invalid

theorem cmp_eq_zero : osnIp6AddrCmp addr subnet = 0 ↔
    addr.ia6Addr = subnet.ia6Addr ∧ addr.ia6Prefix = subnet.ia6Prefix ∧ addr.ia6PrefLft = subnet.ia6PrefLft := by
  rw [← bytesCmp_eq_zero (addr.length_addr.trans subnet.length_addr.symm)]
  simp only [osnIp6AddrCmp]
  split_ifs <;> omega

theorem isSubnet_net (h : addr.len = 128) (x y : UInt8) (n : Fin 129) (hn : 0 < n) :
    osnIp6AddrIsSubnet addr (net x y 0 n) = some (agree n addr.ia6Addr (net x y 0 n).ia6Addr) := by
  have hl : (net x y 0 n).len = n := if_neg (by simp only [net]; omega)
  have hp : 0 < (net x y 0 n).ia6Prefix := by simpa [net] using hn
  obtain ⟨r, hr, hif⟩ := @isSubnet_of_pos addr _ hp
  rw [InSubnet, hl, h, Int.toNat_natCast, and_iff_right (by omega)] at hif
  rw [hr, Bool.eq_iff_iff.mpr hif]

theorem type_eq (h : addr.len = 128) : osnIp6AddrType addr = some (
      if addr.ia6Addr = (net 0 0 1 128).ia6Addr ∧ addr.ia6Prefix = 128 ∧ addr.ia6PrefLft = intMin then .loopback
      else if agree 10 addr.ia6Addr (net 0xfe 0x80 0 10).ia6Addr then .localLink
      else if agree 7 addr.ia6Addr (net 0xfc 0 0 7).ia6Addr then .localUnique
      else if agree 8 addr.ia6Addr (net 0 0xff 0 8).ia6Addr then .multicast
      else if agree 3 addr.ia6Addr (net 0x20 0 0 3).ia6Addr then .global
      else .invalid) := by
  have hn := isSubnet_net h
  simp only [osnIp6AddrType, cmp_eq_zero, hn _ _ 10 (by decide), hn _ _ 7 (by decide), hn _ _ 8 (by decide),
    hn _ _ 3 (by decide), bind_eq_bind, bind_some, ← apply_ite some, pure]
  rfl

/-- The kind is right for the loopback address with its prefix and without a lifetime, and for other addresses whose first
byte is neither zero nor that of multicast addresses. -/
theorem type_right_iff (ip6 : Ip6Addr) (h : ip6.ia6Prefix = -1 ∨ ip6.ia6Prefix = 128) :
    osnIp6AddrType ip6 = some (kind ip6.ia6Addr) ↔
      if ip6.ia6Addr = (net 0 0 1 128).ia6Addr then ip6.ia6Prefix = 128 ∧ ip6.ia6PrefLft = intMin
      else ip6.ia6Addr.head? ≠ some 0 ∧ ip6.ia6Addr.head? ≠ some 0xff := by
  have hle : ip6.len = 128 := by
    rw [Ip6Addr.len]
    split_ifs <;> omega
  obtain ⟨x, a, ha⟩ := exists_cons_of_length_pos (by rw [ip6.length_addr]; decide : 0 < ip6.ia6Addr.length)
  have hh : ∀ {n y b}, agree n ip6.ia6Addr (y :: b) = true → x.toBitVec >>> (8 - n) = y.toBitVec >>> (8 - n) := by
    intro n y b hag
    rw [ha, agree, Bool.and_eq_true, beq_iff_eq] at hag
    exact hag.1
  have hli (hag : agree 10 ip6.ia6Addr (net 0xfe 0x80 0 10).ia6Addr = true) : x ≠ 0 ∧ x ≠ 0xff :=
    ⟨fun hx => absurd (hx ▸ hh hag) (by decide), fun hx => absurd (hx ▸ hh hag) (by decide)⟩
  have hu (hag : agree 7 ip6.ia6Addr (net 0xfc 0 0 7).ia6Addr = true) : x ≠ 0 ∧ x ≠ 0xff :=
    ⟨fun hx => absurd (hx ▸ hh hag) (by decide), fun hx => absurd (hx ▸ hh hag) (by decide)⟩
  have hf : ∀ y z, agree 8 ip6.ia6Addr (net y z 0 8).ia6Addr = decide (x = y) := by
    intro y z
    rw [ha, Bool.eq_iff_iff]
    simp [net, agree, agree_zero, UInt8.toBitVec_inj]
  rw [type_eq hle, kind, some.injEq, hf, hf, ha, head?_cons, ← ha]
  generalize agree 10 ip6.ia6Addr (net 0xfe 0x80 0 10).ia6Addr = r₁ at hli ⊢
  generalize agree 7 ip6.ia6Addr (net 0xfc 0 0 7).ia6Addr = r₂ at hu ⊢
  by_cases hl : ip6.ia6Addr = (net 0 0 1 128).ia6Addr
  · split_ifs <;> simp_all
  · split_ifs <;> simp_all

theorem linkLocal_type : osnIp6AddrType (net 0xfe 0x80 1 128) = some .localLink :=
  (type_right_iff (net 0xfe 0x80 1 128) (.inr rfl)).mpr (by decide)

theorem multicast_invalid : osnIp6AddrType (net 0xff 2 1 128) = some .invalid ∧
    kind (net 0xff 2 1 128).ia6Addr = .multicast := by
  decide

end OpenSync.Osn
