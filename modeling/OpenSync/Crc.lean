import Mathlib

/-!
# Bit-serial reflected CRC registers

One `shift` of the register is linear over exclusive or, so a byte fed after some shifts can be fed
before them, moved up by as many bits. Feeding the four little-endian bytes of a word is therefore
the same as mixing the word into the register and shifting 32 times, and feeding the complement of
the register always ends in the same constant.
-/

namespace OpenSync.Crc
open BitVec

variable (poly : BitVec 32)

def shift (c : BitVec 32) : BitVec 32 :=
  if c.getLsbD 0 then (c >>> 1) ^^^ poly else c >>> 1

def shifts : ℕ → BitVec 32 → BitVec 32
  | 0, c => c
  | n + 1, c => shifts n (shift poly c)

def byte (c : BitVec 32) (b : UInt8) : BitVec 32 :=
  shifts poly 8 (c ^^^ b.toBitVec.setWidth 32)

def bytes (c : BitVec 32) (d : List UInt8) : BitVec 32 := d.foldl (byte poly) c

theorem bytes_append (c : BitVec 32) (d e : List UInt8) :
    bytes poly c (d ++ e) = bytes poly (bytes poly c d) e := List.foldl_append

theorem shift_xor (a b : BitVec 32) : shift poly (a ^^^ b) = shift poly a ^^^ shift poly b := by
  have hx (x y z : BitVec 32) : x ^^^ y = (x ^^^ z) ^^^ (y ^^^ z) := by
    rw [BitVec.xor_assoc, BitVec.xor_comm y z, ← BitVec.xor_assoc z, BitVec.xor_self, BitVec.zero_xor]
  unfold shift
  rw [BitVec.getLsbD_xor, BitVec.ushiftRight_xor_distrib]
  cases a.getLsbD 0 <;> cases b.getLsbD 0
  · rfl
  · exact BitVec.xor_assoc _ _ _
  · change (a >>> 1 ^^^ b >>> 1) ^^^ poly = (a >>> 1 ^^^ poly) ^^^ b >>> 1
    rw [BitVec.xor_assoc, BitVec.xor_assoc, BitVec.xor_comm (b >>> 1)]
  · exact hx _ _ _

theorem shifts_xor (n : ℕ) (a b : BitVec 32) : shifts poly n (a ^^^ b) = shifts poly n a ^^^ shifts poly n b := by
  induction n generalizing a b with
  | zero => rfl
  | succ n ih => rw [shifts, shift_xor, ih]; rfl

theorem shifts_add (m n : ℕ) (c : BitVec 32) : shifts poly (m + n) c = shifts poly n (shifts poly m c) := by
  induction m generalizing c with
  | zero => rw [Nat.zero_add]; rfl
  | succ m ih => rw [Nat.succ_add]; exact ih _

theorem shift_shiftLeft (n : ℕ) (hn : n < 32) (v : BitVec 32) (hv : v.toNat < 2 ^ (31 - n)) :
    shift poly (v <<< (n + 1)) = v <<< n := by
  rw [shift, if_neg (by simp)]
  apply eq_of_toNat_eq
  have hp : 2 ^ (31 - n) * 2 ^ n = 2 ^ 31 := by rw [← pow_add]; congr 1; omega
  have hlt : v.toNat * 2 ^ n < 2 ^ 31 := by
    rw [← hp]; exact Nat.mul_lt_mul_of_pos_right hv (by positivity)
  rw [toNat_ushiftRight, toNat_shiftLeft, toNat_shiftLeft,
    Nat.shiftLeft_eq, Nat.shiftLeft_eq, Nat.shiftRight_eq_div_pow, pow_succ, ← mul_assoc,
    Nat.mod_eq_of_lt (by omega), Nat.mod_eq_of_lt (by omega)]
  omega

theorem shifts_shiftLeft (n : ℕ) (hn : n < 32) (v : BitVec 32) (hv : v.toNat < 2 ^ (32 - n)) :
    shifts poly n (v <<< n) = v := by
  induction n with
  | zero => simp [shifts]
  | succ n ih =>
    have hv' : v.toNat < 2 ^ (31 - n) := by
      rwa [show 31 - n = 32 - (n + 1) by omega]
    have hle : (2 : ℕ) ^ (32 - (n + 1)) ≤ 2 ^ (32 - n) := Nat.pow_le_pow_right (by omega) (by omega)
    rw [shifts, shift_shiftLeft poly n (by omega) v hv', ih (by omega) (by omega)]

def leBytes (w : BitVec 32) : List UInt8 :=
  [⟨w.setWidth 8⟩, ⟨(w >>> 8).setWidth 8⟩, ⟨(w >>> 16).setWidth 8⟩, ⟨(w >>> 24).setWidth 8⟩]

theorem leBytes_join (w : BitVec 32) : ((w.setWidth 8).setWidth 32 ^^^ (((w >>> 8).setWidth 8).setWidth 32) <<< 8 ^^^
      (((w >>> 16).setWidth 8).setWidth 32) <<< 16 ^^^
      (((w >>> 24).setWidth 8).setWidth 32) <<< 24) = w := by
  apply eq_of_getLsbD_eq
  intro i hi
  simp only [getLsbD_xor, getLsbD_setWidth, getLsbD_shiftLeft, getLsbD_ushiftRight, hi, decide_true, Bool.true_and]
  by_cases h8 : i < 8
  · simp [h8, show i < 16 by omega, show i < 24 by omega]
  by_cases h16 : i < 16
  · simp [h8, h16, show i < 24 by omega, show i - 8 < 8 by omega, show 8 + (i - 8) = i by omega,
      show i - 8 < 32 by omega]
  · by_cases h24 : i < 24
    · simp [h8, h16, h24, show ¬ i - 8 < 8 by omega, show i - 16 < 8 by omega,
        show 16 + (i - 16) = i by omega, show i - 16 < 32 by omega]
    · simp [h8, h16, h24, show ¬ i - 8 < 8 by omega, show ¬ i - 16 < 8 by omega,
        show i - 24 < 8 by omega, show 24 + (i - 24) = i by omega, show i - 24 < 32 by omega]

theorem bytes_leBytes (c w : BitVec 32) : bytes poly c (leBytes w) = shifts poly 32 (c ^^^ w) := by
  have hb (n : ℕ) (hn : n ≤ 24) (b : BitVec 8) :
      shifts poly n ((b.setWidth 32) <<< n) = b.setWidth 32 := by
    apply shifts_shiftLeft poly n (by omega)
    rw [toNat_setWidth]
    have h2 : (2 : ℕ) ^ 8 ≤ 2 ^ (32 - n) := Nat.pow_le_pow_right (by omega) (by omega)
    omega
  -- A byte fed after `n` shifts can be fed first, moved up by `n` bits.
  have hs (n : ℕ) (hn : n ≤ 24) (x y : BitVec 32) (hy : y = shifts poly n x) (b : BitVec 8) :
      shifts poly 8 (y ^^^ b.setWidth 32) = shifts poly (n + 8) (x ^^^ (b.setWidth 32) <<< n) := by
    rw [hy, shifts_add, shifts_xor poly n, hb n hn]
  have h1 := hs 0 (by omega) c c rfl (w.setWidth 8)
  have h2 := hs 8 (by omega) _ _ h1 ((w >>> 8).setWidth 8)
  have h3 := hs 16 (by omega) _ _ h2 ((w >>> 16).setWidth 8)
  have h4 := hs 24 (by omega) _ _ h3 ((w >>> 24).setWidth 8)
  refine h4.trans ?_
  conv_rhs => rw [← leBytes_join w]
  simp [xor_assoc]

theorem bytes_residue (c : BitVec 32) : bytes poly c (leBytes (~~~c)) = shifts poly 32 (BitVec.allOnes 32) := by
  rw [bytes_leBytes, ← BitVec.not_xor_right, BitVec.xor_self, BitVec.not_zero]

end OpenSync.Crc
