import OpenSync.NfmRequests
import OpenSync.NfmRun

/-!
# Rules left behind

One row is inserted, modified any number of times and deleted, while calls of the firewall layer fail at will. What
stands in the tables beyond what was there before is bounded by what the entry of the row knows it has asked for. A
plain entry knows that only through one flag for both families: if the first family takes the rule and the second does
not, the rule is forgotten.
-/

namespace OpenSync.Nfm
open List

open Keyed Osfw
open Tags (strLt strLt_irrefl Tag)
open Product
open Template (Action isTemplate)

/-! ## A layer whose calls fail at will -/

inductive Call
  | chainAdd (family : Family)
  | chainDel (family : Family)
  | ruleAdd (family : Family)
  | ruleDel (family : Family)
  deriving DecidableEq

/-- For each kind of call, which of the calls to come fail. -/
abbrev Script := Call → List Bool

structure Faulty where
  base : NfBase
  script : Script

/-- A call that is to fail does nothing. -/
def Faulty.call (s : Faulty) (c : Call) (act : NfBase → Bool × NfBase) : Bool × Faulty :=
  let script := Function.update s.script c (s.script c).tail
  if (s.script c).headD false then (false, ⟨s.base, script⟩) else ((act s.base).1, ⟨(act s.base).2, script⟩)

def faulty : Firewall Faulty where
  chainAdd s family table chain := s.call (.chainAdd family) fun base => osfwChainAdd true base family table chain
  chainDel s family table chain := s.call (.chainDel family) fun base => osfwChainDel base family table chain
  ruleAdd s family table rule := s.call (.ruleAdd family) fun base => addSlot true base (family, table, rule)
  ruleDel s family table rule := s.call (.ruleDel family) fun base => delSlot base (family, table, rule)

/-- The layer of the manager during an event, with the deletions it has refused. -/
abbrev Layer := Faulty × Nat

def during (n : Nfm NfBase) (script : Script) : Nfm Layer :=
  ⟨⟨(⟨n.chains.fw, script⟩, 0), n.chains.chains⟩, n.rules, n.trules⟩

/-- An event on the tables as they are; which calls fail is chosen for each event. -/
def event (tags : List Tag) (n : Nfm NfBase) (script : Script) (e : Event) : Nfm NfBase × Nat :=
  let after := callbackNetfilter faulty.watch tags (during n script) e
  (⟨⟨after.chains.fw.1.base, after.chains.chains⟩, after.rules, after.trules⟩, after.chains.fw.2)

/-- A row through its modifications, each with the calls that fail in it. -/
def modifications (tags : List Tag) : Nfm NfBase × Conf → List (Script × Conf) → Nfm NfBase × Conf :=
  List.foldl fun s c => ((event tags s.1 c.1 (.modify s.2 c.2)).1, c.2)

/-- The manager and the row before the row is deleted. -/
def lived (tags : List Tag) (n : Nfm NfBase) (first : Script) (row : Conf) (changes : List (Script × Conf)) :
    Nfm NfBase × Conf :=
  modifications tags ((event tags n first (.insert row)).1, row) changes

/-- The manager after that, and the deletions that were refused. -/
def deleted (tags : List Tag) (n : Nfm NfBase) (first : Script) (row : Conf) (changes : List (Script × Conf))
    (last : Script) : Nfm NfBase × Nat :=
  event tags (lived tags n first row changes).1 last (.delete (lived tags n first row changes).2)

/-! ## What calls do to the tables -/

/-- The tables hold what buffers can hold, and the system has the same tables. -/
structure Grounded (has : Family → Table → Bool) (base : NfBase) : Prop where
  wellStored : WellStored base
  supported : ∀ family table, Osfw.supported base family table = has family table

/-- Moreover, the same additions are to fail. -/
structure Steady (has : Family → Table → Bool) (script : Script) (s : Layer) : Prop where
  grounded : Grounded has s.1.base
  script : ∀ family, s.1.script (.ruleAdd family) = script (.ruleAdd family)

def amountIn (s : Layer) : Slot → Nat := amount s.1.base

variable {has : Family → Table → Bool} {script : Script} {s : Layer}

theorem call_script_of_ne (s : Faulty) {c d : Call} (h : d ≠ c) (act : NfBase → Bool × NfBase) :
    (s.call c act).2.script d = s.script d := by
  unfold Faulty.call
  split_ifs <;> exact Function.update_of_ne h _ _

theorem call_base (s : Faulty) (c : Call) (act : NfBase → Bool × NfBase) :
    (s.call c act).1 = (!(s.script c).headD false && (act s.base).1) ∧
      (s.call c act).2.base = if (s.script c).headD false then s.base else (act s.base).2 := by
  unfold Faulty.call
  cases (s.script c).headD false <;> exact ⟨rfl, rfl⟩

theorem Steady.sameRules (h : Steady has script s) {s' : Layer} (hb : SameRules s.1.base s'.1.base)
    (hs : ∀ family, s'.1.script (.ruleAdd family) = s.1.script (.ruleAdd family)) :
    Steady has script s' ∧ amountIn s' = amountIn s := by
  refine ⟨⟨⟨?_, ?_⟩, ?_⟩, ?_⟩
  · intro family table r hr
    rw [hb.rules] at hr
    exact h.grounded.wellStored family table r hr
  · intro family table
    rw [hb.supported, h.grounded.supported]
  · intro family
    rw [hs, h.script]
  · funext x
    rw [amountIn, amountIn, amount, amount, hb.rules]

theorem chainCall_steady {c : Call} (hc : ∀ family, Call.ruleAdd family ≠ c) {act : NfBase → Bool × NfBase}
    (ha : ∀ base, SameRules base (act base).2) (h : Steady has script s) (refused : Nat) :
    Steady has script ((s.1.call c act).2, refused) ∧ amountIn ((s.1.call c act).2, refused) = amountIn s := by
  apply h.sameRules
  · rw [(call_base _ _ _).2]
    split_ifs
    · exact SameRules.refl _
    · exact ha _
  · intro family
    exact call_script_of_ne s.1 (hc family) act

theorem chainAdd_still (m : Slot → Nat) (family : Family) (table : Table) (chain : Text) :
    Keeps (fun s => Steady has script s ∧ amountIn s = m) (faulty.watch.chainAdd · family table chain) := by
  rintro s ⟨hs, hm⟩
  have hc := chainCall_steady (c := .chainAdd family) (by simp)
    (fun base => osfwChainAdd_sameRules true base family table chain) hs s.2
  exact ⟨hc.1, hc.2.trans hm⟩

theorem chainDel_still (m : Slot → Nat) (family : Family) (table : Table) (chain : Text) :
    Keeps (fun s => Steady has script s ∧ amountIn s = m) (faulty.watch.chainDel · family table chain) := by
  rintro s ⟨hs, hm⟩
  have hc := chainCall_steady (c := .chainDel family) (by simp)
    (fun base => osfwChainDel_sameRules base family table chain) hs
    (if (s.1.call (.chainDel family) fun base => osfwChainDel base family table chain).1 then s.2 else s.2 + 1)
  exact ⟨hc.1, hc.2.trans hm⟩

/-! ## Requests -/

/-- The tables before and after calls that put in some rules and took out others. -/
structure Counts (has : Family → Table → Bool) (base base' : NfBase) (gain loss : List Slot) : Prop where
  grounded : Grounded has base'
  amount : ∀ y, amount base' y + (loss.map stored).count y = amount base y + (gain.map stored).count y

theorem Counts.refl {base : NfBase} (h : Grounded has base) : Counts has base base [] [] := ⟨h, fun _ => rfl⟩

theorem Counts.trans {base base' base'' : NfBase} {gain gain' loss loss' : List Slot}
    (h : Counts has base base' gain loss) (h' : Counts has base' base'' gain' loss') :
    Counts has base base'' (gain ++ gain') (loss ++ loss') := by
  refine ⟨h'.grounded, fun y => ?_⟩
  have hy := h.amount y
  have hy' := h'.amount y
  rw [map_append, map_append, count_append, count_append]
  omega

theorem count_stored (x y : Slot) : ([x].map stored).count y = if y = stored x then 1 else 0 := by
  rw [map_singleton, count_singleton]
  simp [beq_iff_eq, eq_comm (a := y)]

theorem addSlot_counts {base : NfBase} (h : Grounded has base) (x : Slot) :
    Counts has base (addSlot true base x).2 (if (addSlot true base x).1 then [x] else []) [] := by
  refine ⟨⟨addSlot_wellStored true h.wellStored x, fun family table =>
    ((addSlot_changed true base x).supported family table).trans (h.supported family table)⟩, fun y => ?_⟩
  rw [addSlot_amount]
  cases (addSlot true base x).1 with
  | true => simp only [if_true, count_stored, true_and, map_nil, count_nil, Nat.add_zero]
  | false => simp

theorem delSlot_counts {base : NfBase} (h : Grounded has base) (x : Slot) :
    Counts has base (delSlot base x).2 [] (if (delSlot base x).1 then [x] else []) := by
  refine ⟨⟨delSlot_wellStored h.wellStored x, fun family table =>
    ((delSlot_changed base x).supported family table).trans (h.supported family table)⟩, fun y => ?_⟩
  have ha := delSlot_amount h.wellStored x y
  cases hok : (delSlot base x).1 with
  | true => simpa only [hok, if_true, count_stored, true_and, map_nil, count_nil, Nat.add_zero] using ha
  | false => simpa [hok] using ha

def slotCall : Action → Family → Call
  | .add => .ruleAdd
  | .delete => .ruleDel

def slotAct : Action → NfBase → Slot → Bool × NfBase
  | .add => addSlot true
  | .delete => delSlot

variable (type : Action)

theorem callOf_fst (s : Layer) (x : Slot) : (callOf faulty.watch type s x).1 =
    (!(s.1.script (slotCall type x.1)).headD false && (slotAct type s.1.base x).1) := by
  cases type <;> exact (call_base s.1 _ _).1

theorem callOf_base (s : Layer) (x : Slot) : (callOf faulty.watch type s x).2.1.base =
    if (s.1.script (slotCall type x.1)).headD false then s.1.base else (slotAct type s.1.base x).2 := by
  cases type <;> exact (call_base s.1 _ _).2

def Moved (has : Family → Table → Bool) (base base' : NfBase) (done : List Slot) : Action → Prop
  | .add => Counts has base base' done []
  | .delete => Counts has base base' [] done

variable {base base' : NfBase}

theorem Moved.grounded {done : List Slot} {type : Action} (h : Moved has base base' done type) :
    Grounded has base' := by
  cases type with
  | add | delete => exact Counts.grounded h

theorem Moved.trans {base base' base'' : NfBase} {done done' : List Slot} {type : Action}
    (h : Moved has base base' done type) (h' : Moved has base' base'' done' type) :
    Moved has base base'' (done ++ done') type := by
  cases type with
  | add | delete => exact Counts.trans h h'

theorem moved_nil (h : Grounded has base) : Moved has base base [] type := by
  cases type <;> exact Counts.refl h

theorem call_moved (h : Grounded has s.1.base) (x : Slot) : Moved has s.1.base (callOf faulty.watch type s x).2.1.base
      (if (callOf faulty.watch type s x).1 then [x] else []) type := by
  rw [callOf_fst, callOf_base]
  cases (s.1.script (slotCall type x.1)).headD false with
  | true => exact moved_nil type h
  | false =>
    cases type with
    | add => exact addSlot_counts h x
    | delete => exact delSlot_counts h x

theorem calls_moved (l : List Slot) (h : Grounded has s.1.base) :
    ∃ done, done.Sublist l ∧ Moved has s.1.base (tryAll (callOf faulty.watch type) l s).2.1.base done type ∧
      ((tryAll (callOf faulty.watch type) l s).1 = true → done = l) := by
  induction l generalizing s with
  | nil => exact ⟨[], Sublist.refl _, moved_nil type h, fun _ => rfl⟩
  | cons x l ih =>
    have hx := call_moved type h x
    rw [tryAll]
    cases hc : callOf faulty.watch type s x with
    | mk ok s' =>
      rw [hc] at hx
      cases ok with
      | false => exact ⟨[], nil_sublist _, hx, nofun⟩
      | true =>
        obtain ⟨done, hs, hm, ha⟩ := ih hx.grounded
        exact ⟨x :: done, hs.cons_cons x, hx.trans hm, fun hok => congrArg (x :: ·) (ha hok)⟩

theorem delCalls_script (l : List Slot) :
    Keeps (fun s => ∀ family, s.1.script (.ruleAdd family) = script (.ruleAdd family))
      (tryAll (callOf faulty.watch .delete) l) := by
  apply tryAll_kept
  intro x _ s hs family
  exact (call_script_of_ne s.1 (by simp) fun base => delSlot base x).trans (hs family)

/-! ## What an entry knows -/

/-- Beyond what was there before, there is at most what was asked for. -/
def Within (init : Slot → Nat) (owned : List Slot) (base : NfBase) : Prop :=
  ∀ y, amount base y ≤ init y + (owned.map stored).count y

variable {init : Slot → Nat}

theorem Within.moved {owned owned' gain loss : List Slot} (h : Within init owned base)
    (hco : Counts has base base' gain loss) (hle : ∀ y, (owned.map stored).count y + (gain.map stored).count y ≤
      (owned'.map stored).count y + (loss.map stored).count y) : Within init owned' base' := by
  intro y
  have hy := h y
  have hc := hco.amount y
  have hb := hle y
  omega

/-! ## Plain rules -/

def accepts (has : Family → Table → Bool) (script : Script) (conf : Conf) (family : Family) : Bool :=
  !(script (.ruleAdd family)).headD false && (decide (conf.chain ≠ []) && decide (conf.target ≠ []) &&
    has family (nfmOsfwConvertTable conf.table))

/-- A plain row for both families is not taken by the first one alone. -/
def Whole (has : Family → Table → Bool) (script : Script) (conf : Conf) : Prop :=
  conf.enable = true → isTemplate conf.rule = false → nfmOsfwIsInet4 conf.protocol = true →
    nfmOsfwIsInet6 conf.protocol = true → accepts has script conf .inet = true → accepts has script conf .inet6 = true

def ruleOwned (self : NfmRule) : List Slot := if self.applied then requests self.conf else []

theorem addCall_fst (h : Grounded has s.1.base) {family : Family}
    (hs : s.1.script (.ruleAdd family) = script (.ruleAdd family)) (conf : Conf) :
    (callOf faulty.watch .add s (family, nfmOsfwConvertTable conf.table, confRule conf)).1 =
      accepts has script conf family := by
  rw [callOf_fst, slotAct, addSlot_fst, h.supported, slotCall, hs, Bool.and_true]
  rfl

theorem call_refused (h : Grounded has s.1.base) {x : Slot} (hb : (callOf faulty.watch .add s x).1 = false) :
    Counts has s.1.base (callOf faulty.watch .add s x).2.1.base [] [] := by
  have hm := call_moved .add h x
  rw [hb] at hm
  exact hm

theorem addRule_refused (h : Steady has script s) {conf : Conf}
    (hw : nfmOsfwIsInet4 conf.protocol = true → nfmOsfwIsInet6 conf.protocol = true →
      accepts has script conf .inet = true → accepts has script conf .inet6 = true)
    (hb : (tryAll (callOf faulty.watch .add) (requests conf) s).1 = false) :
    Counts has s.1.base (tryAll (callOf faulty.watch .add) (requests conf) s).2.1.base [] [] := by
  unfold requests families at hb ⊢
  cases h4 : nfmOsfwIsInet4 conf.protocol <;> cases h6 : nfmOsfwIsInet6 conf.protocol
  case false.false => exact Counts.refl h.grounded
  case false.true | true.false =>
    simp only [h4, h6, Bool.false_eq_true, if_false, if_true, nil_append, append_nil, map_cons, map_nil,
      tryAll_singleton] at hb ⊢
    exact call_refused h.grounded hb
  case true.true =>
    simp only [h4, h6, if_true, map_append, map_cons, map_nil, tryAll_append, tryAll_singleton] at hb ⊢
    cases hf : (callOf faulty.watch .add s (.inet, nfmOsfwConvertTable conf.table, confRule conf)).1 with
    | false =>
      exact call_refused h.grounded hf
    | true =>
      -- the second family takes the rule as well
      exfalso
      have ha := hw h4 h6 ((addCall_fst h.grounded (h.script .inet) conf).symm.trans hf)
      have hs : (callOf faulty.watch .add s (.inet, nfmOsfwConvertTable conf.table, confRule conf)).2.1.script
          (.ruleAdd .inet6) = script (.ruleAdd .inet6) :=
        (call_script_of_ne s.1 (by simp) _).trans (h.script .inet6)
      have hse := addCall_fst (call_moved .add h.grounded _).grounded hs conf
      rw [hf, if_pos rfl, hse, ha] at hb
      cases hb

variable {c : Chains Layer}

theorem getRefChain_within (hs : Steady has script c.fw) (hw : Within init [] c.fw.1.base) (conf : Conf) :
    Steady has script (getRefChain faulty.watch conf c).2.1.fw ∧
      Within init [] (getRefChain faulty.watch conf c).2.1.fw.1.base := by
  obtain ⟨hst, hsa⟩ := getRefChain_keeps (P := fun s => Steady has script s ∧ amountIn s = amountIn c.fw)
    (chainAdd_still _) conf c ⟨hs, rfl⟩
  exact ⟨hst, fun y => (congrFun hsa y).trans_le (hw y)⟩

theorem addAll_within (hs : Steady has script s) (hw : Within init [] s.1.base) (l : List Slot) :
    Grounded has (tryAll (callOf faulty.watch .add) l s).2.1.base ∧
      Within init l (tryAll (callOf faulty.watch .add) l s).2.1.base := by
  obtain ⟨done, hsu, hm, -⟩ := calls_moved .add l hs.grounded
  exact ⟨hm.grounded, hw.moved hm fun y => by simpa using (hsu.map stored).count_le y⟩

/-- What unsetting an entry leaves: nothing of it, unless a deletion was refused, and then what it still knows of. -/
structure Unset (has : Family → Table → Bool) (script : Script) (init : Slot → Nat) (owned : List Slot)
    (s : Layer) : Prop where
  steady : Steady has script s
  within : Within init owned s.1.base
  granted : s.2 = 0 → Within init [] s.1.base

theorem Unset.clean (hs : Steady has script s) (hw : Within init [] s.1.base) : Unset has script init [] s :=
  ⟨hs, hw, fun _ => hw⟩

open Unset

theorem delAll_unset (hs : Steady has script s) {owned : List Slot} (hw : Within init owned s.1.base) :
    Unset has script init (if (tryAll (callOf faulty.watch .delete) owned s).1 then [] else owned)
      (tryAll (callOf faulty.watch .delete) owned s).2 := by
  obtain ⟨done, -, hm, ha⟩ := calls_moved .delete owned hs.grounded
  have hst : Steady has script (tryAll (callOf faulty.watch .delete) owned s).2 :=
    ⟨hm.grounded, delCalls_script owned s hs.script⟩
  cases hok : (tryAll (callOf faulty.watch .delete) owned s).1 with
  | true =>
    rw [ha hok] at hm
    exact clean hst (hw.moved hm (by simp))
  | false =>
    refine ⟨hst, hw.moved hm (by simp), fun hz => ?_⟩
    have hn : Noted (fun s : Layer => 0 < s.2) (tryAll (callOf faulty.watch .delete) owned) :=
      tryAll_noted fun x _ => faulty.watch_notes.ruleDel x.1 x.2.1 x.2.2
    exact absurd hz (hn.failed s hok).ne'

theorem Unset.putRefs {r : Bool × Layer} {owned : List Slot} (h : Unset has script init (if r.1 then [] else owned) r.2)
    (hr : r.1 = true) (c : Chains Layer) (conf : Conf) (flags : Flags) :
    Unset has script init [] (Nfm.putRefs faulty.watch conf ({ c with fw := r.2 }, flags)).2.1.fw := by
  rw [hr] at h
  obtain ⟨hs, hsa⟩ := putRefs_keeps (P := fun s => Steady has script s ∧ amountIn s = amountIn r.2)
    (chainDel_still _) conf ({ c with fw := r.2 }, flags) ⟨h.steady, rfl⟩
  exact clean hs fun y => (congrFun hsa y).trans_le (h.within y)

/-! ## Registries -/

/-- The entries of a registry know what was asked for them. -/
structure Owns {E : Type} (R : Registry Layer E) (owned : E → List Slot) (has : Family → Table → Bool)
    (script : Script) (whole : Conf → Prop) : Prop where
  set : ∀ {init c conf}, Steady has script c.fw → Within init [] c.fw.1.base → whole conf →
    Grounded has (R.set c conf).2.fw.1.base ∧ Within init (owned (R.set c conf).1) (R.set c conf).2.fw.1.base
  unset : ∀ {init c self}, Steady has script c.fw → Within init (owned self) c.fw.1.base →
    R.conf (R.unset c self).2.1 = R.conf self ∧
      Unset has script init (if (R.unset c self).1 then [] else owned (R.unset c self).2.1) (R.unset c self).2.2.fw

section Owns

variable {E : Type} {R : Registry Layer E} {owned : E → List Slot} {whole : Conf → Prop} {l : List E} {conf : Conf}

def ownedIn (R : Registry Layer E) (owned : E → List Slot) (l : List E) (name : Text) : List Slot :=
  ((find R.name name l).map owned).getD []

variable (hR : Owns R owned has script whole) (hs : Steady has script c.fw)
  (hw : Within init (ownedIn R owned l conf.name) c.fw.1.base)
include hR hs hw

theorem Owns.new (hc : ∀ c conf, R.conf (R.set c conf).1 = conf) (hwh : whole conf) :
    Grounded has (R.new c l conf).2.1.fw.1.base ∧
      Within init (ownedIn R owned (R.new c l conf).2.2 conf.name) (R.new c l conf).2.1.fw.1.base := by
  unfold Registry.new
  cases hf : find R.name conf.name l with
  | some self => exact ⟨hs.grounded, hw⟩
  | none =>
    rw [ownedIn, hf] at hw
    have hn : R.name (R.set c conf).1 = conf.name := congrArg Conf.name (hc c conf)
    simp only [Option.isSome_none, Bool.false_eq_true, if_false, ownedIn]
    rw [find_insert strLt_irrefl, hn, if_pos rfl]
    exact hR.set hs hw hwh

theorem Owns.del :
    Unset has script init (ownedIn R owned (R.del c l conf).2.2 conf.name) (R.del c l conf).2.1.fw := by
  unfold Registry.del
  cases hf : find R.name conf.name l with
  | none =>
    have hn : ownedIn R owned l conf.name = [] := by rw [ownedIn, hf]; rfl
    rw [hn] at hw
    simp only [hn]
    exact clean hs hw
  | some self =>
    have hk : R.name self = conf.name := key_of_find hf
    rw [ownedIn, hf] at hw
    obtain ⟨hc, hu⟩ := hR.unset hs hw
    simp only
    cases hok : (R.unset c self).1 with
    | true =>
      rw [hok] at hu
      simp only [if_true, ownedIn, find_drop]
      exact hu
    | false =>
      rw [hok] at hu
      have hna : R.name (R.unset c self).2.1 = conf.name := (congrArg Conf.name hc).trans hk
      simp only [Bool.false_eq_true, if_false, ownedIn, find_replace, hna, if_true, hf]
      exact hu

theorem Owns.modify (hc : ∀ c conf, R.conf (R.set c conf).1 = conf) (hwh : whole conf) (changed : Bool) :
    Grounded has (R.modify c l changed conf).2.1.fw.1.base ∧
      Within init (ownedIn R owned (R.modify c l changed conf).2.2 conf.name) (R.modify c l changed conf).2.1.fw.1.base := by
  have hd := hR.del hs hw
  unfold Registry.modify
  split_ifs
  · exact ⟨hs.grounded, hw⟩
  · exact hR.new hd.steady hd.within hc hwh
  · exact ⟨hd.steady.grounded, hd.within⟩

end Owns

theorem plain_owns : Owns (plain faulty.watch) ruleOwned has script fun conf =>
    isTemplate conf.rule = false ∧ Whole has script conf where
  set {init c conf} hs hw hwh := by
    simp only [plain, nfmRuleSet]
    by_cases hen : conf.enable = true
    · obtain ⟨hst, hw'⟩ := getRefChain_within hs hw conf
      simp only [hen, if_true]
      cases (getRefChain faulty.watch conf c).1 with
      | false => exact ⟨hst.grounded, hw'⟩
      | true =>
        simp only [if_true, nfmOsfwAddRule_eq]
        generalize (getRefChain faulty.watch conf c).2.1.fw = s at hst hw' ⊢
        cases hok : (tryAll (callOf faulty.watch .add) (requests conf) s).1 with
        | true => exact addAll_within hst hw' (requests conf)
        | false =>
          have hc := addRule_refused hst (hwh.2 hen hwh.1) hok
          exact ⟨hc.grounded, hw'.moved hc (by simp)⟩
    · rw [if_neg hen]
      exact ⟨hs.grounded, hw⟩
  unset {init c self} hs hw := by
    have hd : (if self.applied then nfmOsfwDelRule faulty.watch c.fw self.conf else (true, c.fw)) =
        tryAll (callOf faulty.watch .delete) (ruleOwned self) c.fw := by
      unfold ruleOwned
      split_ifs
      · exact nfmOsfwDelRule_eq _ _ _
      · rfl
    have hu := delAll_unset hs hw
    simp only [plain, nfmRuleUnset, hd]
    cases hok : (tryAll (callOf faulty.watch .delete) (ruleOwned self) c.fw).1 with
    | false =>
      rw [hok] at hu
      exact ⟨rfl, hu⟩
    | true =>
      have hp := hu.putRefs hok c self.conf self.flags
      simp only [Bool.not_true, Bool.false_eq_true, if_false, true_and]
      split_ifs <;> exact hp

def truleOwned (tags : List Tag) (self : NfmTrule) : List Slot :=
  if self.tags = [] then [] else walkRequests tags self.conf self.tags

theorem updateTags_owned (tags : List Tag) (self : NfmTrule) (type : Action) (s : Layer) :
    nfmTruleUpdateTags faulty.watch tags self type s = tryAll (callOf faulty.watch type) (truleOwned tags self) s ∨
      truleOwned tags self = [] ∧ (nfmTruleUpdateTags faulty.watch tags self type s).2 = s := by
  by_cases ht : self.tags = []
  · left
    rw [nfmTruleUpdateTags, if_pos ht, truleOwned, if_pos ht]
    rfl
  · rw [truleOwned, if_neg ht]
    exact nfmTruleUpdateTags_eq faulty.watch tags self type s ht

theorem template_owns (tags : List Tag) :
    Owns (template faulty.watch tags) (truleOwned tags) has script fun _ => True where
  set {init c conf} hs hw _ := by
    simp only [template, nfmTruleSet]
    by_cases hen : conf.enable = true
    · obtain ⟨hst, hw'⟩ := getRefChain_within hs hw conf
      simp only [hen, if_true]
      cases (getRefChain faulty.watch conf c).1 with
      | false => exact ⟨hst.grounded, hw'⟩
      | true =>
        simp only [if_true]
        generalize (getRefChain faulty.watch conf c).2.1.fw = s at hst hw' ⊢
        rcases updateTags_owned tags ⟨conf, (getRefChain faulty.watch conf c).2.2, Template.detectRefs conf.rule⟩ .add s
          with hwa | ⟨hn, hsa⟩
        · rw [hwa]
          exact addAll_within hst hw' _
        · rw [hsa, hn]
          exact ⟨hst.grounded, hw'⟩
    · rw [if_neg hen]
      exact ⟨hs.grounded, hw⟩
  unset {init c self} hs hw := by
    have hu : Unset has script init (if (nfmTruleUpdateTags faulty.watch tags self .delete c.fw).1 then []
        else truleOwned tags self) (nfmTruleUpdateTags faulty.watch tags self .delete c.fw).2 := by
      rcases updateTags_owned tags self .delete c.fw with hwa | ⟨hn, hsa⟩
      · rw [hwa]
        exact delAll_unset hs hw
      · rw [hn] at hw ⊢
        rw [hsa, ite_self]
        exact clean hs hw
    simp only [template, nfmTruleUnset]
    cases hok : (nfmTruleUpdateTags faulty.watch tags self .delete c.fw).1 with
    | false =>
      rw [hok] at hu
      exact ⟨rfl, hu⟩
    | true =>
      have hp := hu.putRefs hok c self.conf self.flags
      simp only [Bool.not_true, Bool.false_eq_true, if_false, true_and]
      split_ifs <;> exact hp

/-! ## The life of a row -/

def ownedOf {σ : Type} (tags : List Tag) (n : Nfm σ) (kind : Bool) (name : Text) : List Slot :=
  if kind then ownedIn (template faulty.watch tags) (truleOwned tags) n.trules name
  else ownedIn (plain faulty.watch) ruleOwned n.rules name

/-- The entry of a name knows its rules; the name of a template is no plain entry's. -/
structure RowInv (has : Family → Table → Bool) (init : Slot → Nat) (tags : List Tag) (kind : Bool) (name : Text)
    (n : Nfm NfBase) : Prop where
  grounded : Grounded has n.chains.fw
  within : Within init (ownedOf tags n kind name) n.chains.fw
  free : kind = true → find NfmRule.name name n.rules = none

theorem Grounded.during {n : Nfm NfBase} (h : Grounded has n.chains.fw) (script : Script) :
    Steady has script (Nfm.during n script).chains.fw := ⟨h, fun _ => rfl⟩

variable {tags : List Tag} {kind : Bool} {name : Text} {m : Nfm NfBase} {new old : Conf}

theorem plain_conf (c : Chains Layer) (conf : Conf) :
    (plain faulty.watch).conf ((plain faulty.watch).set c conf).1 = conf := (plain_lawful faulty.watch_notes).conf c conf

theorem template_conf (tags : List Tag) (c : Chains Layer) (conf : Conf) :
    (template faulty.watch tags).conf ((template faulty.watch tags).set c conf).1 = conf :=
  (template_lawful faulty.watch_notes tags).conf c conf

section

variable (h : RowInv has init tags kind name m)
include h

theorem RowInv.inserted (hn : new.name = name) (hk : isTemplate new.rule = kind) (hwh : Whole has script new) :
    RowInv has init tags kind name (event tags m script (.insert new)).1 := by
  subst hn
  have hs := h.grounded.during script
  have ht : nfmTruleIsTemplate new = kind := hk
  cases kind with
  | true =>
    obtain ⟨hg, hw⟩ := (template_owns tags).new hs h.within (template_conf tags) trivial
    simp only [event, callbackNetfilter, ht, if_true, nfmTruleNew_eq]
    exact ⟨hg, hw, h.free⟩
  | false =>
    obtain ⟨hg, hw⟩ := plain_owns.new hs h.within plain_conf ⟨hk, hwh⟩
    simp only [event, callbackNetfilter, ht, Bool.false_eq_true, if_false, nfmRuleNew_eq]
    exact ⟨hg, hw, fun h => by cases h⟩

theorem RowInv.modified (hn : new.name = name)
    (ho : isTemplate old.rule = kind) (hk : isTemplate new.rule = kind) (hwh : Whole has script new) :
    RowInv has init tags kind name (event tags m script (.modify old new)).1 := by
  subst hn
  have hs := h.grounded.during script
  by_cases hr : new.rule ≠ old.rule ∨ isTemplate old.rule = false
  · have ht := (oldRecord_changed hr).trans ho
    cases kind with
    | true =>
      obtain ⟨hg, hw⟩ := (template_owns tags).modify hs h.within (template_conf tags) trivial (decide (old ≠ new))
      simp only [event, callbackNetfilter, ht, if_true, nfmTruleModify_eq]
      exact ⟨hg, hw, h.free⟩
    | false =>
      obtain ⟨hg, hw⟩ := plain_owns.modify hs h.within plain_conf ⟨hk, hwh⟩ (decide (old ≠ new))
      simp only [event, callbackNetfilter, ht, Bool.false_eq_true, if_false, nfmRuleModify_eq]
      exact ⟨hg, hw, fun h => by cases h⟩
  · push Not at hr
    have hf : plainRow (Nfm.during m script) new.name = none :=
      Option.map_eq_none_iff.mpr (h.free (ho.symm.trans (Bool.not_eq_false _ ▸ hr.2)))
    simp only [event, callbackNetfilter_sameRule faulty.watch tags hr.1 hf]
    exact ⟨h.grounded, h.within, h.free⟩

theorem RowInv.deleted (hn : old.name = name)
    (hk : isTemplate old.rule = kind) (hg : (event tags m script (.delete old)).2 = 0) :
    Within init [] (event tags m script (.delete old)).1.chains.fw := by
  subst hn
  have hs := h.grounded.during script
  have ht : nfmTruleIsTemplate old = kind := hk
  cases kind with
  | true =>
    simp only [event, callbackNetfilter, ht, if_true, nfmTruleDel_eq] at hg ⊢
    exact ((template_owns tags).del hs h.within).granted hg
  | false =>
    simp only [event, callbackNetfilter, ht, Bool.false_eq_true, if_false, nfmRuleDel_eq] at hg ⊢
    exact (plain_owns.del hs h.within).granted hg

theorem RowInv.lived {row : Conf} (hn : row.name = name)
    (hk : isTemplate row.rule = kind) {changes : List (Script × Conf)}
    (hke : ∀ c ∈ changes, c.2.name = name ∧ isTemplate c.2.rule = kind) (hw : ∀ c ∈ changes, Whole has c.1 c.2) :
    RowInv has init tags kind name (modifications tags (m, row) changes).1 ∧
      (modifications tags (m, row) changes).2.name = name ∧
      isTemplate (modifications tags (m, row) changes).2.rule = kind := by
  induction changes generalizing m row with
  | nil => exact ⟨h, hn, hk⟩
  | cons c changes ih =>
    obtain ⟨hn', hk'⟩ := hke c mem_cons_self
    exact ih (h.modified hn' hk hk' (hw c mem_cons_self)) hn' hk' (forall_mem_cons.mp hke).2 (forall_mem_cons.mp hw).2

end

theorem no_rule_left (tags : List Tag) (n : Nfm NfBase) (hstored : WellStored n.chains.fw) (row : Conf)
    (hplain : find NfmRule.name row.name n.rules = none) (htemplate : find NfmTrule.name row.name n.trules = none)
    (first : Script) (changes : List (Script × Conf)) (last : Script)
    (hkeeps : ∀ c ∈ changes, c.2.name = row.name ∧ isTemplate c.2.rule = isTemplate row.rule)
    (hwhole : ∀ c ∈ (first, row) :: changes, Whole (supported n.chains.fw) c.1 c.2)
    (hgranted : (deleted tags n first row changes last).2 = 0) (x : Slot) :
    amount (deleted tags n first row changes last).1.chains.fw x ≤ amount n.chains.fw x := by
  have hs : RowInv (supported n.chains.fw) (amount n.chains.fw) tags (isTemplate row.rule) row.name n :=
    ⟨⟨hstored, fun _ _ => rfl⟩, fun y => Nat.le_add_right _ _, fun _ => hplain⟩
  obtain ⟨hin, hn, hl⟩ := (hs.inserted rfl rfl (hwhole _ mem_cons_self)).lived rfl rfl hkeeps
    (forall_mem_cons.mp hwhole).2
  exact hin.deleted hn hl hgranted x

instance (has : Family → Table → Bool) (script : Script) (conf : Conf) : Decidable (Whole has script conf) := by
  unfold Whole
  infer_instance

def noneFails : Script := fun _ => []

def fails (c : Call) : Script := fun d => if d = c then [true] else []

def empty : Nfm NfBase := ⟨⟨nfbaseSet fun _ _ => true, []⟩, [], []⟩

theorem empty_stored : WellStored empty.chains.fw := fun _ _ _ h => absurd h not_mem_nil

/-- A row is added for both families; its change is refused, first when the old rule is deleted and then when the new
one is added for the first family. -/
theorem refused_changes_leave_nothing : WellStored empty.chains.fw ∧
    ∀ x, amount (deleted [] empty noneFails (accept "a" "-i br") [(fails (.ruleDel .inet), accept "a" "-i wan"),
      (fails (.ruleAdd .inet), accept "a" "-i lan")] noneFails).1.chains.fw x ≤ amount empty.chains.fw x :=
  ⟨empty_stored, no_rule_left [] empty empty_stored (accept "a" "-i br") rfl rfl noneFails _ noneFails
    (by decide +kernel) (by decide +kernel) (by decide +kernel)⟩

/-- If only the second family refuses a rule, the rule of the first one stays after the row is deleted; and so does
the rule of a row that became a template. No deletion is refused. -/
theorem half_added_rule_left :
    let half := deleted [] empty (fails (.ruleAdd .inet6)) (accept "a" "-i br") [] noneFails
    let crossed := deleted [] empty noneFails (accept "a" "-i br") [(noneFails, accept "a" "-s $\x7bpeer\x7d")] noneFails
    half.2 = 0 ∧ amount half.1.chains.fw (.inet, .filter, confRule (accept "a" "-i br")) = 1 ∧
      crossed.2 = 0 ∧ amount crossed.1.chains.fw (.inet, .filter, confRule (accept "a" "-s $\x7bpeer\x7d")) = 1 ∧
      amount crossed.1.chains.fw (.inet6, .filter, confRule (accept "a" "-s $\x7bpeer\x7d")) = 1 := by
  decide +kernel

end OpenSync.Nfm
