import OpenSync.Comparator

/-!
# Comparators of the libraries

Trees of numbers, pointers and addresses are ordered by differences of type `int`, which go round the circle of the
machine's integers. A difference of pointers is cut to its low half, and the last lifetime of an address is compared
with itself.
-/

namespace OpenSync.LibraryOrder
open Comparator

def dsIntCmp (a b : Int32) : Int32 := a - b

def dsVoidCmp (a b : UInt64) : Int32 := (a.toInt64 - b.toInt64).toInt32

def reflinkCmp (a b : UInt64) : Int32 := (a - b).toInt64.toInt32

structure IpAddr where
  iaAddr : Vector UInt8 4
  iaPrefix : Int32

def osnIpAddrCmp (a b : IpAddr) : ℤ :=
  orElse (memcmp 4 a.iaAddr.toList b.iaAddr.toList) (a.iaPrefix - b.iaPrefix).toInt

structure Ip6Addr where
  ia6Addr : Vector UInt8 16
  ia6Prefix : Int32
  ia6PrefLft : Int32
  ia6ValidLft : Int32

def osnIp6AddrCmp (a b : Ip6Addr) : ℤ :=
  orElse (memcmp 16 a.ia6Addr.toList b.ia6Addr.toList)
    (orElse (a.ia6Prefix - b.ia6Prefix).toInt
      (orElse (a.ia6PrefLft - b.ia6PrefLft).toInt (b.ia6ValidLft - b.ia6ValidLft).toInt))

structure TotalOrderOn {α : Type} (s : Set α) (r : α → α → ℤ) : Prop extends LawfulOn s r where
  eq_iff : ∀ a ∈ s, ∀ b ∈ s, (r a b = 0 ↔ a = b)

/-- What is left of a pointer in an `int`. -/
def lowWord (p : UInt64) : Int32 := p.toInt64.toInt32

/-- Pointers that are not half a turn apart in their low words, and differ there. -/
structure PointersNear (s : Set UInt64) : Prop where
  halfTurn : InHalfTurn s lowWord
  injOn : Set.InjOn lowWord s

/-- Prefixes of one address are near each other, and lifetimes of one address and prefix; and addresses that are equal
up to the last lifetime are equal there. -/
structure AddressesNear (s : Set Ip6Addr) : Prop where
  prefixes : ∀ x ∈ s, InHalfTurn {y ∈ s | x.ia6Addr = y.ia6Addr} Ip6Addr.ia6Prefix
  lifetimes : ∀ x ∈ s, InHalfTurn {y ∈ s | x.ia6Addr = y.ia6Addr ∧ x.ia6Prefix = y.ia6Prefix} Ip6Addr.ia6PrefLft
  last : ∀ x ∈ s, ∀ y ∈ s, x.ia6Addr = y.ia6Addr → x.ia6Prefix = y.ia6Prefix → x.ia6PrefLft = y.ia6PrefLft →
    x.ia6ValidLft = y.ia6ValidLft

variable {α : Type} {n : ℕ}

theorem memcmp_toList {x y : Vector UInt8 n} : memcmp n x.toList y.toList = 0 ↔ x = y := by
  rw [memcmp_eq_zero x.length_toList.ge y.length_toList.ge, List.take_of_length_le x.length_toList.le,
    List.take_of_length_le y.length_toList.le, Vector.toList_inj]

theorem lawfulOn_bytes_iff {s : Set α} {k : α → Vector UInt8 n} {r : α → α → ℤ} :
    LawfulOn s (fun a b => orElse (memcmp n (k a).toList (k b).toList) (r a b)) ↔
      ∀ x ∈ s, LawfulOn {y ∈ s | k x = k y} r := by
  have hf : LawfulOn s fun a b => memcmp n (k a).toList (k b).toList :=
    (memcmp_lawfulOn n).comap fun a _ => (k a).length_toList.ge
  have hif := @lawfulOn_orElse_iff _ _ s k (fun x y => memcmp n x.toList y.toList) r fun a _ b _ => memcmp_toList
  rwa [and_iff_right hf] at hif

theorem lawfulOn_number_iff {s : Set α} {f : α → Int32} {r : α → α → ℤ} :
    LawfulOn s (fun a b => orElse (f a - f b).toInt (r a b)) ↔
      InHalfTurn s f ∧ ∀ x ∈ s, LawfulOn {y ∈ s | f x = f y} r := by
  rw [← lawfulOn_sub_iff]
  exact @lawfulOn_orElse_iff _ _ s f (fun x y => (x - y).toInt) r fun a _ b _ => toInt_sub_eq_zero

theorem pointers_iff {s : Set UInt64} : TotalOrderOn s (fun a b => (lowWord a - lowWord b).toInt) ↔ PointersNear s := by
  refine ⟨fun h => ⟨lawfulOn_sub_iff.mp h.toLawfulOn, fun a ha b hb hab => ?_⟩, fun h => ⟨lawfulOn_sub_iff.mpr h.1, ?_⟩⟩
  · exact (h.eq_iff a ha b hb).mp (toInt_sub_eq_zero.mpr hab)
  · intro a ha b hb
    rw [toInt_sub_eq_zero, h.injOn.eq_iff ha hb]

theorem ipAddr_iff {s : Set IpAddr} :
    TotalOrderOn s osnIpAddrCmp ↔ ∀ x ∈ s, InHalfTurn {y ∈ s | x.iaAddr = y.iaAddr} IpAddr.iaPrefix := by
  have hl : LawfulOn s osnIpAddrCmp ↔ ∀ x ∈ s, InHalfTurn {y ∈ s | x.iaAddr = y.iaAddr} IpAddr.iaPrefix :=
    lawfulOn_bytes_iff.trans (forall₂_congr fun x _ => lawfulOn_sub_iff)
  refine ⟨fun h => hl.mp h.toLawfulOn, fun h => ⟨hl.mpr h, fun a _ b _ => ?_⟩⟩
  rw [osnIpAddrCmp, orElse_eq_zero, memcmp_toList, toInt_sub_eq_zero]
  cases a
  cases b
  simp

theorem lawfulOn_ip6Addr_iff {s : Set Ip6Addr} : LawfulOn s osnIp6AddrCmp ↔ ∀ x ∈ s,
    InHalfTurn {y ∈ s | x.ia6Addr = y.ia6Addr} Ip6Addr.ia6Prefix ∧
    InHalfTurn {y ∈ s | x.ia6Addr = y.ia6Addr ∧ x.ia6Prefix = y.ia6Prefix} Ip6Addr.ia6PrefLft := by
  have hl : ∀ t : Set Ip6Addr, LawfulOn t fun _ b => (b.ia6ValidLft - b.ia6ValidLft).toInt := by
    intro t
    simp only [toInt_sub_eq_zero.mpr rfl]
    exact ⟨fun _ _ _ _ => Iff.rfl, fun _ _ _ _ _ _ _ _ => le_rfl⟩
  have hs : ∀ t : Set Ip6Addr, LawfulOn t (fun a b => orElse (a.ia6PrefLft - b.ia6PrefLft).toInt
      (b.ia6ValidLft - b.ia6ValidLft).toInt) ↔ InHalfTurn t Ip6Addr.ia6PrefLft := fun t =>
    lawfulOn_number_iff.trans (and_iff_left fun _ _ => hl _)
  refine lawfulOn_bytes_iff.trans ?_
  simp only [lawfulOn_number_iff, hs]
  -- the addresses of one prefix, among those that are equal to `x`, are the same for each of them
  have hse : ∀ x y : Ip6Addr, x.ia6Addr = y.ia6Addr → {z ∈ {z ∈ s | x.ia6Addr = z.ia6Addr} | y.ia6Prefix = z.ia6Prefix} =
      {z ∈ s | y.ia6Addr = z.ia6Addr ∧ y.ia6Prefix = z.ia6Prefix} := by
    intro x y hxy
    ext z
    simp [hxy, and_assoc]
  constructor
  · intro h x hx
    exact ⟨(h x hx).1, hse x x rfl ▸ (h x hx).2 x ⟨hx, rfl⟩⟩
  · intro h x hx
    refine ⟨(h x hx).1, fun y hy => ?_⟩
    rw [hse x y hy.2]
    exact (h y hy.1).2

theorem ip6Addr_iff {s : Set Ip6Addr} : TotalOrderOn s osnIp6AddrCmp ↔ AddressesNear s := by
  have hz : ∀ a b : Ip6Addr, osnIp6AddrCmp a b = 0 ↔
      a.ia6Addr = b.ia6Addr ∧ a.ia6Prefix = b.ia6Prefix ∧ a.ia6PrefLft = b.ia6PrefLft := fun a b => by
    simp only [osnIp6AddrCmp, orElse_eq_zero, memcmp_toList, toInt_sub_eq_zero, and_true]
  constructor
  · intro h
    have hl := lawfulOn_ip6Addr_iff.mp h.toLawfulOn
    refine ⟨fun x hx => (hl x hx).1, fun x hx => (hl x hx).2, fun x hx y hy h₁ h₂ h₃ => ?_⟩
    rw [(h.eq_iff x hx y hy).mp ((hz x y).mpr ⟨h₁, h₂, h₃⟩)]
  · intro h
    refine ⟨lawfulOn_ip6Addr_iff.mpr fun x hx => ⟨h.prefixes x hx, h.lifetimes x hx⟩, fun a ha b hb => ?_⟩
    rw [hz]
    refine ⟨fun ⟨h₁, h₂, h₃⟩ => ?_, fun hab => hab ▸ ⟨rfl, rfl, rfl⟩⟩
    have h₄ := h.last a ha b hb h₁ h₂ h₃
    cases a
    cases b
    simp_all

/-- On any keys the comparators are total orders exactly if what they subtract is less than half a turn apart, pointers
differ in their low words, and last lifetimes in nothing else than what is compared. -/
theorem comparators_total_iff (ints : Set Int32) (ptrs links : Set UInt64) (v4 : Set IpAddr) (v6 : Set Ip6Addr) :
    (TotalOrderOn ints (fun a b => (dsIntCmp a b).toInt) ∧ TotalOrderOn ptrs (fun a b => (dsVoidCmp a b).toInt) ∧
      TotalOrderOn links (fun a b => (reflinkCmp a b).toInt) ∧ TotalOrderOn v4 osnIpAddrCmp ∧
      TotalOrderOn v6 osnIp6AddrCmp) ↔
    InHalfTurn ints id ∧ PointersNear ptrs ∧ PointersNear links ∧
      (∀ x ∈ v4, InHalfTurn {y ∈ v4 | x.iaAddr = y.iaAddr} IpAddr.iaPrefix) ∧ AddressesNear v6 := by
  have hin : TotalOrderOn ints (fun a b => (dsIntCmp a b).toInt) ↔ InHalfTurn ints id := by
    rw [← lawfulOn_sub_iff]
    exact ⟨fun h => h.toLawfulOn, fun h => ⟨h, fun a _ b _ => toInt_sub_eq_zero⟩⟩
  have hv : (fun a b => (dsVoidCmp a b).toInt) = fun a b => (lowWord a - lowWord b).toInt := by
    funext a b
    rw [dsVoidCmp, Int64.toInt32_sub, lowWord, lowWord]
  have hl : (fun a b => (reflinkCmp a b).toInt) = fun a b => (lowWord a - lowWord b).toInt := by
    funext a b
    rw [reflinkCmp, UInt64.toInt64_sub, Int64.toInt32_sub, lowWord, lowWord]
  rw [hin, hv, hl, pointers_iff, pointers_iff, ipAddr_iff, ip6Addr_iff]

/-- Numbers half a turn apart are each less than the other, pointers may differ in their high words only, and so may
addresses in their last lifetimes. -/
theorem comparators_not_total : ¬ TotalOrderOn Set.univ (fun a b => (dsIntCmp a b).toInt) ∧
    ¬ TotalOrderOn Set.univ (fun a b => (dsVoidCmp a b).toInt) ∧
    ¬ TotalOrderOn Set.univ (fun a b => (reflinkCmp a b).toInt) ∧ ¬ TotalOrderOn Set.univ osnIpAddrCmp ∧
    ¬ TotalOrderOn Set.univ osnIp6AddrCmp := by
  refine ⟨fun h => ?_, fun h => ?_, fun h => ?_, fun h => ?_, fun h => ?_⟩
  · exact absurd (h.anti (-2 ^ 31) trivial 0 trivial) (by decide)
  · exact absurd (h.eq_iff (2 ^ 32) trivial 0 trivial) (by decide)
  · exact absurd (h.eq_iff (2 ^ 32) trivial 0 trivial) (by decide)
  · exact absurd (h.anti ⟨.replicate 4 0, -2 ^ 31⟩ trivial ⟨.replicate 4 0, 0⟩ trivial) (by decide)
  · have heq := (h.eq_iff ⟨.replicate 16 0, 64, 0, 0⟩ trivial ⟨.replicate 16 0, 64, 0, 9⟩ trivial).mp (by decide)
    exact absurd (congrArg Ip6Addr.ia6ValidLft heq) (by decide)

end OpenSync.LibraryOrder
