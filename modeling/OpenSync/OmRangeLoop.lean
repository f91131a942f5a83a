import OpenSync.OmRangeText
import OpenSync.Product
import Mathlib.Tactic.Linarith
import Mathlib.Tactic.Ring

/-!
# Loops over ranges

The three loops of `om_monitor.c` count in different ways: with 32 bits, octet by octet, and with an integer. Each of them
goes through the numbers of its range one by one, apart from two cases: a loop over addresses of the fourth version never
ends when its range ends with the last address, and one over addresses of the sixth version starts before it looks at the
end.
-/

namespace OpenSync.OmRange
open List OmRange.Field

open Tags (Text)

/-! ## Addresses as numbers -/

@[grind =] def octetsValue : Octets → Nat
  | [] => 0
  | a :: as => a.toNat * 256 ^ as.length + octetsValue as

def octetsOf : Nat → Nat → Octets
  | 0, _ => []
  | k + 1, n => BitVec.ofNat 8 (n / 256 ^ k) :: octetsOf k (n % 256 ^ k)

variable (as : Octets)

theorem octetsValue_lt : octetsValue as < 256 ^ as.length := by
  induction as with
  | nil => exact Nat.one_pos
  | cons a as ih =>
    have ha : a.toNat + 1 ≤ 256 := a.isLt
    have hm := Nat.mul_le_mul_right (256 ^ as.length) ha
    rw [octetsValue, length_cons, Nat.pow_succ']
    rw [Nat.add_mul, Nat.one_mul] at hm
    omega

theorem octetsOf_value : octetsOf as.length (octetsValue as) = as := by
  induction as with
  | nil => rfl
  | cons a as ih =>
    have hlt := octetsValue_lt as
    rw [octetsValue, length_cons, octetsOf, Nat.mul_comm, Nat.mul_add_div (Nat.zero_lt_of_lt hlt),
      Nat.div_eq_of_lt hlt, Nat.add_zero, Nat.mul_add_mod, Nat.mod_eq_of_lt hlt, ih, BitVec.ofNat_toNat,
      BitVec.setWidth_eq]

theorem octetsCmp_sign {as bs : Octets} (h : as.length = bs.length) :
    0 ≤ octetsCmp as bs ↔ octetsValue bs ≤ octetsValue as := by
  induction as generalizing bs with
  | nil =>
    cases bs with
    | nil => simp [octetsCmp, octetsValue]
    | cons => cases h
  | cons a as ih =>
    cases bs with
    | nil => cases h
    | cons b bs =>
      have hl : as.length = bs.length := Nat.succ.inj h
      rw [octetsCmp, octetsValue, octetsValue, ← hl]
      by_cases hab : a = b
      · rw [if_pos hab, ih hl, hab]
        omega
      rw [if_neg hab]
      have hne : a.toNat ≠ b.toNat := fun heq => hab (BitVec.eq_of_toNat_eq heq)
      have ha := octetsValue_lt as
      have hb := octetsValue_lt bs
      rw [← hl] at hb
      rcases Nat.lt_or_gt_of_ne hne with hlt | hlt
      all_goals
        have hm := Nat.mul_le_mul_right (256 ^ as.length) (Nat.succ_le_of_lt hlt)
        rw [Nat.succ_mul] at hm
        omega

theorem length_increment : (increment as).1.length = as.length := by
  fun_induction increment as with grind

theorem increment_carry : (increment as).2 = true → octetsValue (increment as).1 = 0 ∧
    octetsValue as + 1 = 256 ^ as.length := by
  induction as with
  | nil => simp [increment, octetsValue]
  | cons a as ih =>
    have hl := length_increment as
    rw [increment]
    rcases hn : increment as with ⟨bs, carry⟩
    rw [hn] at ih hl
    cases carry with
    | false => exact nofun
    | true =>
      obtain ⟨hz, hal⟩ := ih rfl
      by_cases ha : a.toNat < 255
      · simp [ha]
      · have ha' : a.toNat = 255 := by omega
        simp only [if_neg ha]
        rw [octetsValue, octetsValue, length_cons, Nat.pow_succ', hz, ha']
        exact fun _ => ⟨by simp, by omega⟩

theorem increment_value : (increment as).2 = false →
    octetsValue (increment as).1 = octetsValue as + 1 := by
  induction as with
  | nil => exact nofun
  | cons a as ih =>
    have hl := length_increment as
    have hc := increment_carry as
    rw [increment]
    rcases hn : increment as with ⟨bs, carry⟩
    rw [hn] at ih hl hc
    cases carry with
    | false =>
      intro _
      simp only [octetsValue, hl, Nat.add_assoc]
      rw [ih rfl]
    | true =>
      obtain ⟨hz, hal⟩ := hc rfl
      by_cases ha : a.toNat < 255
      · intro _
        have had : (a + 1).toNat = a.toNat + 1 := by
          exact Nat.mod_eq_of_lt (Nat.succ_lt_succ ha)
        simp only [ha, if_true, octetsValue, hl, had, hz, Nat.add_mul, Nat.one_mul]
        omega
      · simp [ha]

/-! ## Ranges as numbers -/

structure Range where
  field : Field
  start : Text
  stop : Text

variable (lib : Libc)

def Field.number : Field → Text → Int
  | .ipv4Src, t | .ipv4Dst, t => (lib.inetAddr t).toNat
  | .ipv6Src, t | .ipv6Dst, t => octetsValue (lib.inetPton t)
  | .portSrc, t | .portDst, t => lib.atoi t

def Field.print : Field → Int → Text
  | .ipv4Src, i | .ipv4Dst, i => longToDotIp (BitVec.ofInt 32 i)
  | .ipv6Src, i | .ipv6Dst, i => lib.inetNtop (octetsOf 16 i.toNat)
  | .portSrc, i | .portDst, i => (toString i).toList

def Field.isIpv4 : Field → Bool
  | .ipv4Src | .ipv4Dst => true
  | _ => false

def Field.isIpv6 : Field → Bool
  | .ipv6Src | .ipv6Dst => true
  | _ => false

def Range.low (r : Range) : Int := r.field.number lib r.start

def Range.high (r : Range) : Int := r.field.number lib r.stop

/-- So many numbers, from one on. -/
def counted (a : Int) (n : Nat) : List Int := (List.range n).map fun k : Nat => a + k

/-- The texts of all numbers of a range; both endpoints belong to it. -/
def values (r : Range) : List Text :=
  (counted (r.low lib) (r.high lib + 1 - r.low lib).toNat).map (r.field.print lib)

/-- The range ends before it starts. -/
def Range.Reversed (r : Range) : Prop := r.high lib < r.low lib

/-- The range ends with the last address of the fourth version. -/
def Range.Unending (r : Range) : Prop := r.field.isIpv4 = true ∧ r.high lib = 2 ^ 32 - 1

instance (r : Range) : Decidable (r.Reversed lib) := inferInstanceAs (Decidable (_ < _))

instance (r : Range) : Decidable (r.Unending lib) := inferInstanceAs (Decidable (_ ∧ _))

/-- The texts a loop goes through. -/
def produced (r : Range) : List Text :=
  if r.field.isIpv6 = true ∧ r.Reversed lib then [r.field.print lib (r.low lib)] else values lib r

theorem counted_zero (a : Int) : counted a 0 = [] := rfl

theorem counted_succ (a : Int) (n : Nat) : counted a (n + 1) = a :: counted (a + 1) n := by
  rw [counted, range_succ_eq_map, map_cons, map_map]
  congr 1
  · simp
  · apply map_congr_left
    intro k _
    simp only [Function.comp_apply, Nat.cast_succ]
    omega

/-! ## What loops do -/

section Loops

variable {lib}
variable {parse : Text → List Text → Result} {f : Field} {rule : Text} {out : Text → List Text}

/-- The rules that come of a text are put in front of those that are there. -/
def Parses (parse : Text → List Text → Result) (t : Text) (out : List Text) : Prop :=
  ∀ rules, parse t rules = some (true, out.reverse ++ rules)

def Stuck (parse : Text → List Text → Result) (t : Text) : Prop := ∀ rules, parse t rules = none

variable {rules : List Text} {iterator : BitVec 32}

theorem ipv4Loop_eq {endIp fuel n : Nat} (hen : endIp + 1 < 2 ^ 32)
    (hn : ((endIp : Int) + 1 - iterator.toNat).toNat = n) (hf : n < fuel)
    (ho : ∀ i ∈ counted iterator.toNat n, Parses parse (withValue rule f (longToDotIp (BitVec.ofInt 32 i)))
      (out (longToDotIp (BitVec.ofInt 32 i)))) :
    ipv4Loop parse f rule endIp fuel iterator true rules =
      some (true, (((counted iterator.toNat n).map fun i => longToDotIp (BitVec.ofInt 32 i)).flatMap out).reverse
        ++ rules) := by
  induction n generalizing iterator fuel rules with
  | zero =>
    obtain ⟨fuel, rfl⟩ := Nat.exists_eq_add_of_lt hf
    rw [ipv4Loop, if_neg (by omega)]
    rfl
  | succ n ih =>
    obtain ⟨fuel, rfl⟩ := Nat.exists_eq_add_of_lt hf
    have hle : iterator.toNat ≤ endIp := by omega
    have hne : ((iterator + 1).toNat : Int) = iterator.toNat + 1 := by
      rw [BitVec.toNat_add, show (1 : BitVec 32).toNat = 1 from rfl, Nat.mod_eq_of_lt (by omega)]
      rfl
    have hs : BitVec.ofInt 32 (iterator.toNat : Int) = iterator := by
      rw [BitVec.ofInt_natCast, BitVec.ofNat_toNat, BitVec.setWidth_eq]
    rw [counted_succ] at ho ⊢
    have hfi := ho _ mem_cons_self rules
    rw [hs] at hfi
    rw [ipv4Loop, if_pos hle, andThen, if_pos rfl, hfi, Option.bind_eq_bind, Option.bind_some,
      ih (by omega) (by omega) fun i hi => ho i (mem_cons_of_mem _ (hne ▸ hi)), hne, map_cons, hs,
      flatMap_cons, reverse_append, append_assoc]

theorem ipv4Loop_stuck {endIp fuel : Nat}
    (hle : iterator.toNat ≤ endIp) (h : Stuck parse (withValue rule f (longToDotIp iterator))) :
    ipv4Loop parse f rule endIp fuel iterator true rules = none := by
  cases fuel with
  | zero => rfl
  | succ fuel =>
    rw [ipv4Loop, if_pos hle, andThen, if_pos rfl, h]
    rfl

theorem ipv4Loop_unending (fuel : Nat) (iterator : BitVec 32) (ret : Bool) (rules : List Text) :
    ipv4Loop parse f rule (2 ^ 32 - 1) fuel iterator ret rules = none := by
  induction fuel generalizing iterator ret rules with
  | zero => rfl
  | succ fuel ih =>
    rw [ipv4Loop, if_pos (Nat.le_sub_one_of_lt iterator.isLt)]
    cases andThen parse (withValue rule f (longToDotIp iterator)) ret rules with
    | none => rfl
    | some r => exact ih _ _ _

theorem ipv6Loop_eq {en sn : Octets} {fuel n : Nat} (hsn : sn.length = 16) (hen : en.length = 16)
    (hn : octetsValue en - octetsValue sn = n) (hfu : n < fuel)
    (ho : ∀ i ∈ counted (octetsValue sn) (n + 1), Parses parse (withValue rule f (lib.inetNtop (octetsOf 16 i.toNat)))
      (out (lib.inetNtop (octetsOf 16 i.toNat)))) :
    ipv6Loop lib parse f rule en fuel sn true rules =
      some (true, (((counted (octetsValue sn) (n + 1)).map fun i => lib.inetNtop (octetsOf 16 i.toNat)).flatMap
        out).reverse ++ rules) := by
  induction n generalizing sn fuel rules with
  | zero =>
    obtain ⟨fuel, rfl⟩ := Nat.exists_eq_add_of_lt hfu
    have hs : octetsOf 16 (octetsValue sn : Int).toNat = sn := hsn ▸ octetsOf_value sn
    rw [counted_succ, counted_zero] at ho ⊢
    have hf := ho _ mem_cons_self rules
    rw [hs] at hf
    have hd : octetsCmp sn en ≥ 0 := (octetsCmp_sign (hsn.trans hen.symm)).mpr (Nat.sub_eq_zero_iff_le.mp hn)
    rw [ipv6Loop, andThen, if_pos rfl, hf, Option.bind_eq_bind, Option.bind_some, if_pos hd, map_cons, hs]
    simp
  | succ n ih =>
    obtain ⟨fuel, rfl⟩ := Nat.exists_eq_add_of_lt hfu
    have hs : octetsOf 16 (octetsValue sn : Int).toNat = sn := hsn ▸ octetsOf_value sn
    have hm : ¬ octetsCmp sn en ≥ 0 := fun hcm => by
      have hle := (octetsCmp_sign (hsn.trans hen.symm)).mp hcm
      omega
    -- what is below the end is not the last address
    have hc : (increment sn).2 = false := by
      cases hc : (increment sn).2 with
      | false => rfl
      | true =>
        have ha := (increment_carry sn hc).2
        have hlt := octetsValue_lt en
        rw [hen] at hlt
        rw [hsn] at ha
        omega
    have hv := increment_value sn hc
    rw [counted_succ] at ho ⊢
    have hf := ho _ mem_cons_self rules
    rw [hs] at hf
    have hne : (octetsValue (increment sn).1 : Int) = octetsValue sn + 1 := by rw [hv, Nat.cast_succ]
    simp only [ipv6Loop, andThen, if_pos, hf, Option.bind_eq_bind, Option.bind_some, if_neg hm, hc]
    rw [if_neg Bool.false_ne_true, ih ((length_increment sn).trans hsn) (by omega) (by omega)
      fun i hi => ho i (mem_cons_of_mem _ (hne ▸ hi)), hne, map_cons, hs, flatMap_cons,
      reverse_append, append_assoc]

variable {fuel : Nat}

theorem ipv6Loop_stuck {en sn : Octets}
    (h : Stuck parse (withValue rule f (lib.inetNtop sn))) : ipv6Loop lib parse f rule en fuel sn true rules = none := by
  cases fuel with
  | zero => rfl
  | succ fuel =>
    rw [ipv6Loop, andThen, if_pos rfl, h]
    rfl

theorem portLoop_eq {stop i : Int} {fuel n : Nat} (hn : (stop + 1 - i).toNat = n) (hf : n < fuel)
    (ho : ∀ j ∈ counted i n, Parses parse (withValue rule f (toString j).toList) (out (toString j).toList)) :
    portLoop parse f rule stop fuel i true rules =
      some (true, (((counted i n).map fun j => (toString j).toList).flatMap out).reverse ++ rules) := by
  induction n generalizing i fuel rules with
  | zero =>
    obtain ⟨fuel, rfl⟩ := Nat.exists_eq_add_of_lt hf
    rw [portLoop, if_neg (by omega)]
    rfl
  | succ n ih =>
    obtain ⟨fuel, rfl⟩ := Nat.exists_eq_add_of_lt hf
    rw [counted_succ] at ho ⊢
    have hfi := ho _ mem_cons_self rules
    rw [portLoop, if_pos (by omega), hfi, Option.bind_eq_bind, Option.bind_some, Bool.and_self,
      ih (by omega) (by omega) (forall_mem_cons.mp ho).2, map_cons, flatMap_cons,
      reverse_append, append_assoc]

theorem portLoop_stuck {stop i : Int} (hle : i ≤ stop)
    (h : Stuck parse (withValue rule f (toString i).toList)) : portLoop parse f rule stop fuel i true rules = none := by
  cases fuel with
  | zero => rfl
  | succ fuel =>
    rw [portLoop, if_pos hle, h]
    rfl

variable {r : Range}

theorem produced_of_not_ipv6 (h : r.field.isIpv6 = false) : produced lib r = values lib r := by
  rw [produced, if_neg (by simp [h])]

theorem values_eq_nil_iff : values lib r = [] ↔ r.Reversed lib := by
  simp only [values, counted, map_eq_nil_iff, range_eq_nil, Range.Reversed]
  omega

theorem produced_eq_nil_iff : produced lib r = [] ↔ r.field.isIpv6 = false ∧ r.Reversed lib := by
  rw [produced]
  split
  · rename_i h
    simp [h.1]
  · rename_i h
    rw [values_eq_nil_iff]
    simp only [not_and'] at h
    exact ⟨fun hr => ⟨Bool.eq_false_iff.mpr (h hr), hr⟩, And.right⟩

open Range

theorem generate_eq (hen : ¬ r.Unending lib) (hf : (r.high lib + 1 - r.low lib).toNat < fuel)
    (ho : ∀ v ∈ produced lib r, Parses parse (withValue rule r.field v) (out v)) :
    generate lib parse fuel r.field r.start r.stop rule rules =
      some (true, ((produced lib r).flatMap out).reverse ++ rules) := by
  obtain ⟨f, start, stop⟩ := r
  cases f with
  | ipv4Src | ipv4Dst =>
    have hl : (lib.inetAddr stop).toNat + 1 < 2 ^ 32 := by
      have hne : ((lib.inetAddr stop).toNat : Int) ≠ 2 ^ 32 - 1 := fun heq => hen ⟨rfl, heq⟩
      omega
    exact ipv4Loop_eq hl rfl hf fun i hi => ho _ (mem_map_of_mem hi)
  | ipv6Src | ipv6Dst =>
    have hp : ∀ g : Field, g.isIpv6 = true → g.number lib = (fun t => (octetsValue (lib.inetPton t) : Int)) →
        produced lib ⟨g, start, stop⟩ = (counted (octetsValue (lib.inetPton start))
          (octetsValue (lib.inetPton stop) - octetsValue (lib.inetPton start) + 1)).map (g.print lib) := by
      intro g hg hn
      rw [produced]
      simp only [hg, true_and, Range.Reversed, low, high, hn, values]
      split
      · rw [show octetsValue (lib.inetPton stop) - octetsValue (lib.inetPton start) = 0 by omega, counted_succ]
        rfl
      · congr 2
        omega
    rw [hp _ rfl rfl] at ho ⊢
    simp only [high, low, number] at hf
    exact ipv6Loop_eq (lib.length_inetPton start) (lib.length_inetPton stop) rfl (by omega) fun i hi =>
      ho _ (mem_map_of_mem hi)
  | portSrc | portDst =>
    rw [produced_of_not_ipv6 rfl] at ho ⊢
    exact portLoop_eq rfl hf fun i hi => ho _ (mem_map_of_mem hi)

theorem generate_unending (fuel : Nat) (rules : List Text) (h : r.Unending lib) :
    generate lib parse fuel r.field r.start r.stop rule rules = none := by
  obtain ⟨f, start, stop⟩ := r
  obtain ⟨hf, hh⟩ := h
  cases f with
  | ipv4Src | ipv4Dst =>
    have hl : (lib.inetAddr stop).toNat = 2 ^ 32 - 1 := by
      simp only [high, number] at hh
      omega
    rw [generate, hl]
    exact ipv4Loop_unending fuel _ true rules
  | ipv6Src | ipv6Dst | portSrc | portDst => cases hf

theorem generate_stuck (fuel : Nat) (rules : List Text) (hne : produced lib r ≠ [])
    (h : ∀ v ∈ produced lib r, Stuck parse (withValue rule r.field v)) :
    generate lib parse fuel r.field r.start r.stop rule rules = none := by
  have hfi : r.field.print lib (r.low lib) ∈ produced lib r := by
    rw [produced]
    split
    · exact mem_singleton_self _
    rename_i hc
    have hle : 0 < (r.high lib + 1 - r.low lib).toNat := by
      by_contra hz
      rw [produced, if_neg hc] at hne
      exact hne (values_eq_nil_iff.mpr (by rw [Range.Reversed]; omega))
    obtain ⟨n, hn⟩ := Nat.exists_eq_succ_of_ne_zero hle.ne'
    rw [values, hn, counted_succ]
    exact mem_map_of_mem mem_cons_self
  have hs := h _ hfi
  obtain ⟨f, start, stop⟩ := r
  have hle : f.isIpv6 = false → f.number lib start ≤ f.number lib stop := fun hf =>
    not_lt.mp fun hlt => hne (produced_eq_nil_iff.mpr ⟨hf, hlt⟩)
  cases f with
  | ipv4Src | ipv4Dst =>
    simp only [low, number, print, BitVec.ofInt_natCast, BitVec.ofNat_toNat, BitVec.setWidth_eq] at hs
    exact ipv4Loop_stuck (Int.ofNat_le.mp (hle rfl)) hs
  | ipv6Src | ipv6Dst =>
    have hse : octetsOf 16 (octetsValue (lib.inetPton start) : Int).toNat = lib.inetPton start :=
      lib.length_inetPton start ▸ octetsOf_value _
    simp only [low, number, print, hse] at hs
    exact ipv6Loop_stuck hs
  | portSrc | portDst => exact portLoop_stuck (hle rfl) hs

end Loops

end OpenSync.OmRange
