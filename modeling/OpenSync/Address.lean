import Mathlib.Data.BitVec

/-!
# Addresses

Hardware addresses and internet addresses as the tables of the repository are keyed by them, and the
comparison of internet addresses, by family and then byte by byte.
-/

namespace OpenSync.Net

inductive Family
  | inet | inet6
  deriving DecidableEq, Repr

def Family.number : Family → Nat
  | .inet => 2
  | .inet6 => 10

def Family.len : Family → Nat
  | .inet => 4
  | .inet6 => 16

structure Ip where
  family : Family
  bytes : List UInt8
  len : bytes.length = family.len
  deriving DecidableEq, Repr

abbrev Mac := BitVec 48

def bytesCmp : List UInt8 → List UInt8 → Int
  | a :: as, b :: bs =>
    let idiff : Int := (a.toNat : Int) - b.toNat
    if idiff ≠ 0 then idiff else bytesCmp as bs
  | _, _ => 0

theorem bytesCmp_eq_zero {as bs : List UInt8} (h : as.length = bs.length) : bytesCmp as bs = 0 ↔ as = bs := by
  induction as generalizing bs with
  | nil =>
    cases bs with
    | nil => simp [bytesCmp]
    | cons b bs => simp at h
  | cons a as ih =>
    cases bs with
    | nil => simp at h
    | cons b bs =>
      have hab : ((a.toNat : Int) - b.toNat = 0) ↔ a = b := by
        rw [← UInt8.toNat_inj]
        omega
      simp only [bytesCmp, List.cons.injEq]
      by_cases hd : a = b
      · subst hd
        have hih : bytesCmp as bs = 0 ↔ as = bs := ih (by simpa using h)
        simp [hih]
      · have hne : (a.toNat : Int) - b.toNat ≠ 0 := fun h0 => hd (hab.mp h0)
        simp [hne, hd]

def ipCmp (a b : Ip) : Int :=
  let fdiff : Int := (a.family.number : Int) - b.family.number
  if fdiff ≠ 0 then fdiff else bytesCmp a.bytes b.bytes

theorem ipCmp_eq_zero (a b : Ip) : ipCmp a b = 0 ↔ a = b := by
  rcases a with ⟨fa, ba, ha⟩
  rcases b with ⟨fb, bb, hb⟩
  by_cases hf : fa = fb
  · subst hf
    have hby : bytesCmp ba bb = 0 ↔ ba = bb := bytesCmp_eq_zero (ha.trans hb.symm)
    simp [ipCmp, hby]
  · have hne : (fa.number : Int) - fb.number ≠ 0 := by
      cases fa <;> cases fb <;> simp_all [Family.number]
    simp [ipCmp, hne, hf]

end OpenSync.Net
