import Mathlib.Data.List.Sort
import Mathlib.Data.List.Basic
import Mathlib.Logic.Function.Basic

/-!
# The firewall layer

`osn_fw_iptables_full.c` keeps the chains and rules of both address families in memory. Every addition is first
checked by a test run of `iptables-restore` on the table; `osfw_apply` then restores all tables of a family that
was modified. The result of a check is an argument here, and so is what `iptables-restore` does with each table.
-/

namespace OpenSync.Osfw
open List

abbrev Text := List Char

inductive Family
  | inet | inet6
  deriving DecidableEq, Repr

inductive Table
  | filter | nat | mangle | raw | security
  deriving DecidableEq, Repr

def sizeChain : Nat := 64

def sizeMatch : Nat := 512

def sizeTarget : Nat := 128

def strscpy (n : Nat) (s : Text) : Text := s.take (n - 1)

def strncmpEq (n : Nat) (a b : Text) : Bool := decide (a.take n = b.take n)

theorem strncmpEq_short {n : Nat} {a b : Text} (h : b.length < n) : strncmpEq n a b = true ↔ a = b := by
  unfold strncmpEq
  rw [decide_eq_true_eq, take_of_length_le h.le]
  constructor
  · intro heq
    have hl := congrArg length heq
    rw [length_take] at hl
    rw [← heq, take_of_length_le (by omega)]
  · rintro rfl
    exact take_of_length_le h.le

structure NfRule where
  chain : Text
  prio : Int
  mtch : Text
  target : Text
  deriving DecidableEq, Repr

structure NfTable where
  issupported : Bool
  chains : List Text
  rules : List NfRule

structure NfInet where
  ismodified : Bool
  tables : Table → NfTable

abbrev NfBase := Family → NfInet

/-! ## Chains -/

def targetBuiltin : List String :=
  ["ACCEPT", "CLASSIFY", "DNAT", "DROP", "DSCP", "ECN", "LOG", "MARK", "MASQUERADE", "MIRROR", "NETMAP", "NFLOG",
    "NFQUEUE", "QUEUE", "REDIRECT", "REJECT", "RETURN", "SAME", "SNAT", "TCPMSS", "TOS", "TPROXY", "TTL", "ULOG"]

def chainBuiltin : Table → List String
  | .filter => ["INPUT", "FORWARD", "OUTPUT"]
  | .nat => ["PREROUTING", "OUTPUT", "POSTROUTING"]
  | .mangle => ["PREROUTING", "INPUT", "FORWARD", "OUTPUT", "POSTROUTING"]
  | .raw => ["PREROUTING", "OUTPUT"]
  | .security => ["INPUT", "FORWARD", "OUTPUT"]

def isBuiltinChain (table : Table) (chain : Text) : Bool :=
  (targetBuiltin ++ chainBuiltin table).any fun s => decide (s.toList = chain)

def isValidChain (chain : Text) : Bool := !chain.contains ' '

def nfchainMatch (chain : Text) (self : Text) : Bool := strncmpEq sizeChain self chain

/-- An added chain whose table then fails the check is taken out again. -/
def nftableAddNfchain (check : Bool) (self : NfTable) (chain : Text) : Bool × NfTable :=
  if !self.issupported then (false, self)
  else if !check then (false, self)
  else (true, { self with chains := self.chains ++ [strscpy sizeChain chain] })

def nftableDelNfchain (self : NfTable) (chain : Text) : Bool × NfTable :=
  if self.chains.any (nfchainMatch chain) then
    (true, { self with chains := self.chains.eraseP (nfchainMatch chain) })
  else (false, self)

/-! ## Rules -/

def nfruleOf (chain : Text) (prio : Int) (mtch target : Text) : NfRule :=
  ⟨strscpy sizeChain chain, prio, strscpy sizeMatch mtch, strscpy sizeTarget target⟩

/-- A rule goes in front of the first one with a greater priority. -/
def nfruleSet (rules : List NfRule) (self : NfRule) : List NfRule :=
  rules.orderedInsert (fun a b => a.prio < b.prio) self

def nfruleMatch (chain : Text) (prio : Int) (mtch target : Text) (self : NfRule) : Bool :=
  decide (self.prio = prio) && strncmpEq sizeChain self.chain chain && strncmpEq sizeMatch self.mtch mtch &&
    strncmpEq sizeTarget self.target target

def nftableAddNfrule (check : Bool) (self : NfTable) (chain : Text) (prio : Int) (mtch target : Text) :
    Bool × NfTable :=
  if !self.issupported then (false, self)
  else if !check then (false, self)
  else (true, { self with rules := nfruleSet self.rules (nfruleOf chain prio mtch target) })

def nftableDelNfrule (self : NfTable) (chain : Text) (prio : Int) (mtch target : Text) : Bool × NfTable :=
  if self.rules.any (nfruleMatch chain prio mtch target) then
    (true, { self with rules := self.rules.eraseP (nfruleMatch chain prio mtch target) })
  else (false, self)

/-! ## Both families -/

/-- A change of one table; the family counts as modified if it succeeds. -/
def nfinetChange (self : NfInet) (table : Table) (change : NfTable → Bool × NfTable) : Bool × NfInet :=
  let changed := change (self.tables table)
  if changed.1 then (true, ⟨true, Function.update self.tables table changed.2⟩)
  else (false, { self with tables := Function.update self.tables table changed.2 })

def nfbaseChange (self : NfBase) (family : Family) (table : Table) (change : NfTable → Bool × NfTable) :
    Bool × NfBase :=
  let changed := nfinetChange (self family) table change
  (changed.1, Function.update self family changed.2)

def osfwChainAdd (check : Bool) (base : NfBase) (family : Family) (table : Table) (chain : Text) : Bool × NfBase :=
  if chain = [] then (false, base)
  else if !isValidChain chain then (false, base)
  else if isBuiltinChain table chain then (true, base)
  else nfbaseChange base family table fun t => nftableAddNfchain check t chain

def osfwChainDel (base : NfBase) (family : Family) (table : Table) (chain : Text) : Bool × NfBase :=
  if chain = [] then (false, base)
  else if !isValidChain chain then (false, base)
  else if isBuiltinChain table chain then (true, base)
  else nfbaseChange base family table fun t => nftableDelNfchain t chain

def osfwRuleAdd (check : Bool) (base : NfBase) (family : Family) (table : Table) (chain : Text) (prio : Int)
    (mtch target : Text) : Bool × NfBase :=
  if chain = [] ∨ target = [] then (false, base)
  else nfbaseChange base family table fun t => nftableAddNfrule check t chain prio mtch target

def osfwRuleDel (base : NfBase) (family : Family) (table : Table) (chain : Text) (prio : Int)
    (mtch target : Text) : Bool × NfBase :=
  if chain = [] ∨ target = [] then (false, base)
  else nfbaseChange base family table fun t => nftableDelNfrule t chain prio mtch target

/-- The tables after `osfw_nfbase_set`, where the check tells which tables the system has. -/
def nfbaseSet (supported : Family → Table → Bool) : NfBase := fun family =>
  ⟨true, fun table => ⟨supported family table, [], []⟩⟩

/-! ## What a change keeps -/

/-- A refused change does nothing, and no change touches a table that the system does not have. -/
structure Sound (t : NfTable) (changed : Bool × NfTable) : Prop where
  issupported : changed.2.issupported = t.issupported
  refused : changed.1 = false → changed.2 = t
  unsupported : t.issupported = false → t.chains = [] → t.rules = [] → changed.2 = t

variable (t : NfTable)

theorem Sound.refuse : Sound t (false, t) := ⟨rfl, fun _ => rfl, fun _ _ _ => rfl⟩

open Sound

theorem nftableAddNfchain_sound (check : Bool) (t : NfTable) (chain : Text) :
    Sound t (nftableAddNfchain check t chain) := by
  unfold nftableAddNfchain
  split
  · exact refuse t
  · split
    · exact refuse t
    · exact ⟨rfl, by simp, by simp_all⟩

theorem nftableDelNfchain_sound (chain : Text) : Sound t (nftableDelNfchain t chain) := by
  unfold nftableDelNfchain
  split
  · rename_i ha
    refine ⟨rfl, by simp, fun _ hc _ => ?_⟩
    rw [hc] at ha
    simp at ha
  · exact refuse t

theorem nftableAddNfrule_sound (check : Bool) (t : NfTable) (chain : Text) (prio : Int) (mtch target : Text) :
    Sound t (nftableAddNfrule check t chain prio mtch target) := by
  unfold nftableAddNfrule
  split
  · exact refuse t
  · split
    · exact refuse t
    · exact ⟨rfl, by simp, by simp_all⟩

theorem nftableDelNfrule_sound (chain : Text) (prio : Int) (mtch target : Text) :
    Sound t (nftableDelNfrule t chain prio mtch target) := by
  unfold nftableDelNfrule
  split
  · rename_i ha
    refine ⟨rfl, by simp, fun _ _ hr => ?_⟩
    rw [hr] at ha
    simp at ha
  · exact refuse t

end OpenSync.Osfw
