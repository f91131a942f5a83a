import OpenSync.Search
import OpenSync.Template

/-!
# Rules with ranges

A rule text may give ranges of addresses and ports; `om_monitor.c` generates one rule for each choice of values. It takes
one range out of the text, and for each of its values puts that at the end and goes on with the new text. What the C
library makes of addresses and numbers is a parameter.
-/

namespace OpenSync.OmRange

open Search Template
open Tags (Text)

inductive Field
  | ipv4Src
  | ipv4Dst
  | ipv6Src
  | ipv6Dst
  | portSrc
  | portDst
  deriving DecidableEq

def Field.order : List Field := [.ipv4Src, .ipv4Dst, .ipv6Src, .ipv6Dst, .portSrc, .portDst]

def Field.name : Field → Text
  | .ipv4Src => "nw_src=".toList
  | .ipv4Dst => "nw_dst=".toList
  | .ipv6Src => "ipv6_src=".toList
  | .ipv6Dst => "ipv6_dst=".toList
  | .portSrc => "tp_src=".toList
  | .portDst => "tp_dst=".toList

def templateRange : Text := ['$', '<']

def Field.pattern (f : Field) : Text := f.name ++ templateRange

/-- An address of the sixth version, the highest octet first. -/
abbrev Octets := List (BitVec 8)

/-- What the C library does: `inet_addr` in the order of the host, what `inet_pton` leaves in the address, `inet_ntop`,
and `atoi`. -/
structure Libc where
  inetAddr : Text → BitVec 32
  inetPton : Text → Octets
  inetNtop : Octets → Text
  atoi : Text → Int
  length_inetPton : ∀ s, (inetPton s).length = 16
  plain_inetNtop : ∀ a, '$' ∉ inetNtop a

variable (lib : Libc)

def ruleSize : Nat := 256

def strscpy (s : Text) : Text := s.take (ruleSize - 1)

/-! ## Taking a range out -/

def isRangeSpecified (rule : Text) : Bool := (strstr templateRange rule).isSome

def getRangeType (rule : Text) : Option Field := Field.order.find? fun f => (strstr f.pattern rule).isSome

/-- The part of a text up to a character, and what comes behind it, if there is such a character. -/
def strsep (c : Char) (s : Text) : Text × Option Text :=
  match cutAt c s with
  | some (a, b) => (a, some b)
  | none => (s, none)

def extract (f : Field) (rule : Text) : Option (Text × Text × Text) := do
  let found ← strstr f.pattern rule
  let eq ← strstr ['='] (f.pattern ++ found.2)
  let iter := ('=' :: eq.2).drop 3
  let token := strsep '-' iter
  let start := strscpy token.1
  let rest ← token.2
  let stop := strscpy (strsep '>' rest).1
  let removing := ',' :: f.pattern ++ start ++ '-' :: stop ++ ['>']
  if (strstr removing rule).isSome then some (start, stop, remove removing (strscpy rule)) else none

/-! ## Loops over values -/

/-- What is said about a rule, and all rules so far, the last one first; without fuel there is no result. -/
abbrev Result := Option (Bool × List Text)

def withValue (rule : Text) (f : Field) (value : Text) : Text := strscpy (rule ++ ',' :: f.name ++ value)

def decimal (n : Nat) : Text := (Nat.repr n).toList

def longToDotIp (ip : BitVec 32) : Text :=
  decimal ((ip >>> 24) &&& 255).toNat ++ '.' :: decimal ((ip >>> 16) &&& 255).toNat ++
    '.' :: decimal ((ip >>> 8) &&& 255).toNat ++ '.' :: decimal (ip &&& 255).toNat

/-- `ret = ret && om_range_recurse_parse(&out)` -/
def andThen (parse : Text → List Text → Result) (rule : Text) (ret : Bool) (rules : List Text) : Result :=
  if ret then parse rule rules else some (false, rules)

/-- The iterator has 32 bits, whatever the end. -/
@[grind =] def ipv4Loop (parse : Text → List Text → Result) (f : Field) (rule : Text) (endIp : Nat) :
    Nat → BitVec 32 → Bool → List Text → Result
  | 0, _, _, _ => none
  | fuel + 1, iterator, ret, rules =>
    if iterator.toNat ≤ endIp then do
      let r ← andThen parse (withValue rule f (longToDotIp iterator)) ret rules
      ipv4Loop parse f rule endIp fuel (iterator + 1) r.1 r.2
    else some (ret, rules)

def octetsCmp : Octets → Octets → Int
  | a :: as, b :: bs => if a = b then octetsCmp as bs else (a.toNat : Int) - b.toNat
  | _, _ => 0

/-- Adds one from the last octet on; tells whether all octets were 255. -/
@[grind =] def increment : Octets → Octets × Bool
  | [] => ([], true)
  | a :: as =>
    match increment as with
    | (as, false) => (a :: as, false)
    | (as, true) => if a.toNat < 255 then ((a + 1) :: as, false) else (0 :: as, true)

/-- The body is run before the end is looked at. -/
def ipv6Loop (parse : Text → List Text → Result) (f : Field) (rule : Text) (en : Octets) :
    Nat → Octets → Bool → List Text → Result
  | 0, _, _, _ => none
  | fuel + 1, sn, ret, rules => do
    let r ← andThen parse (withValue rule f (lib.inetNtop sn)) ret rules
    if octetsCmp sn en ≥ 0 then some r
    else
      let next := increment sn
      if next.2 then some r else ipv6Loop parse f rule en fuel next.1 r.1 r.2

/-- Here the recursion comes first: `ret = om_range_recurse_parse(&out) && ret`. -/
def portLoop (parse : Text → List Text → Result) (f : Field) (rule : Text) (stop : Int) :
    Nat → Int → Bool → List Text → Result
  | 0, _, _, _ => none
  | fuel + 1, i, ret, rules =>
    if i ≤ stop then do
      let r ← parse (withValue rule f (toString i).toList) rules
      portLoop parse f rule stop fuel (i + 1) (r.1 && ret) r.2
    else some (ret, rules)

def generate (parse : Text → List Text → Result) (fuel : Nat) (f : Field) (start stop rule : Text)
    (rules : List Text) : Result :=
  match f with
  | .ipv4Src => ipv4Loop parse f rule (lib.inetAddr stop).toNat fuel (lib.inetAddr start) true rules
  | .ipv4Dst => ipv4Loop parse f rule (lib.inetAddr stop).toNat fuel (lib.inetAddr start) true rules
  | .ipv6Src => ipv6Loop lib parse f rule (lib.inetPton stop) fuel (lib.inetPton start) true rules
  | .ipv6Dst => ipv6Loop lib parse f rule (lib.inetPton stop) fuel (lib.inetPton start) true rules
  | .portSrc => portLoop parse f rule (lib.atoi stop) fuel (lib.atoi start) true rules
  | .portDst => portLoop parse f rule (lib.atoi stop) fuel (lib.atoi start) true rules

/-- A rule without ranges is put in front of the list. -/
@[grind =] def omRangeRecurseParse : Nat → Text → List Text → Result
  | 0, _, _ => none
  | fuel + 1, rule, rules =>
    if !isRangeSpecified rule then some (true, rule :: rules)
    else
      match getRangeType rule with
      | none => some (false, rules)
      | some f =>
        match extract f rule with
        | none => some (false, rules)
        | some (start, stop, out) => generate lib (omRangeRecurseParse fuel) fuel f start stop out rules

def omRangeGenerateRangeRules (fuel : Nat) (rule : Text) (rules : List Text) : Result :=
  if isRangeSpecified rule then omRangeRecurseParse lib fuel rule rules else some (true, rule :: rules)

end OpenSync.OmRange
