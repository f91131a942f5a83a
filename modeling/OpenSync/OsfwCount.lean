import OpenSync.Osfw

/-!
# The rules in the tables

How often a rule stands in a table, and what each call of the layer does to that. A rule is compared over the whole of
its buffers, so that a deletion takes out the rule as it was stored and nothing else; a text that did not fit is never
found again.
-/

namespace OpenSync.Osfw
open List Function

abbrev Slot := Family × Table × NfRule

def amount (base : NfBase) (x : Slot) : Nat := ((base x.1).tables x.2.1).rules.count x.2.2

def supported (base : NfBase) (family : Family) (table : Table) : Bool := ((base family).tables table).issupported

def stored (x : Slot) : Slot := (x.1, x.2.1, nfruleOf x.2.2.chain x.2.2.prio x.2.2.mtch x.2.2.target)

structure InBuffers (r : NfRule) : Prop where
  chain : r.chain.length < sizeChain
  mtch : r.mtch.length < sizeMatch
  target : r.target.length < sizeTarget

theorem nfruleOf_inBuffers (chain : Text) (prio : Int) (mtch target : Text) :
    InBuffers (nfruleOf chain prio mtch target) := by
  have hc : ∀ (n : Nat) (s : Text), 0 < n → (strscpy n s).length < n := by
    intro n s hn
    rw [strscpy, length_take]
    omega
  exact ⟨hc _ _ (by decide), hc _ _ (by decide), hc _ _ (by decide)⟩

def WellStored (base : NfBase) : Prop := ∀ family table, ∀ r ∈ ((base family).tables table).rules, InBuffers r

theorem nfruleMatch_iff {r s : NfRule} (hr : InBuffers r) :
    nfruleMatch s.chain s.prio s.mtch s.target r = true ↔ r = s := by
  have hs {n : Nat} {a b : Text} (ha : a.length < n) : strncmpEq n a b = true ↔ a = b := by
    rw [eq_comm (a := a), ← strncmpEq_short ha, strncmpEq, strncmpEq, decide_eq_true_eq, decide_eq_true_eq, eq_comm]
  rw [nfruleMatch, Bool.and_eq_true, Bool.and_eq_true, Bool.and_eq_true, decide_eq_true_eq, hs hr.chain,
    hs hr.mtch, hs hr.target]
  constructor
  · rintro ⟨⟨⟨hp, hc⟩, hm⟩, ht⟩
    cases r
    cases s
    simp_all
  · rintro rfl
    exact ⟨⟨⟨rfl, rfl⟩, rfl⟩, rfl⟩

theorem nfruleMatch_stored {r : NfRule} (hr : InBuffers r) {chain : Text} {prio : Int} {mtch target : Text}
    (h : nfruleMatch chain prio mtch target r = true) : r = nfruleOf chain prio mtch target := by
  obtain rfl := (nfruleMatch_iff (s := ⟨chain, prio, mtch, target⟩) hr).mp h
  have hc {n : Nat} {a : Text} (ha : a.length < n) : strscpy n a = a := take_of_length_le (Nat.le_sub_one_of_lt ha)
  rw [nfruleOf, hc hr.chain, hc hr.mtch, hc hr.target]

/-! ## Changes of a table -/

variable (base : NfBase)

variable (family : Family)

variable (table : Table)

theorem nfbaseChange_fst (change : NfTable → Bool × NfTable) :
    (nfbaseChange base family table change).1 = (change ((base family).tables table)).1 := by
  simp only [nfbaseChange, nfinetChange]
  split_ifs with h
  · exact h.symm
  · rw [Bool.not_eq_true] at h
    exact h.symm

theorem nfbaseChange_tables (family f : Family) (table t : Table) (change : NfTable → Bool × NfTable) :
    ((nfbaseChange base family table change).2 f).tables t =
      if f = family ∧ t = table then (change ((base family).tables table)).2 else (base f).tables t := by
  have hin : (nfinetChange (base family) table change).2.tables =
      update (base family).tables table (change ((base family).tables table)).2 := by
    simp only [nfinetChange]
    split_ifs <;> rfl
  simp only [nfbaseChange]
  by_cases hf : f = family
  · subst hf
    rw [update_self, hin]
    by_cases ht : t = table
    · subst ht
      simp
    · simp [ht]
  · simp [hf]

/-- The layer before and after a call that leaves the rules alone. -/
structure SameRules (base base' : NfBase) : Prop where
  rules : ∀ family table, ((base' family).tables table).rules = ((base family).tables table).rules
  supported : ∀ family table, supported base' family table = supported base family table

theorem SameRules.refl : SameRules base base := ⟨fun _ _ => rfl, fun _ _ => rfl⟩

theorem nfbaseChange_sameRules {change : NfTable → Bool × NfTable}
    (h : ∀ t, (change t).2.rules = t.rules ∧ (change t).2.issupported = t.issupported) :
    SameRules base (nfbaseChange base family table change).2 := by
  constructor
  · intro f t
    rw [nfbaseChange_tables]
    split_ifs with hft
    · rw [(h _).1, hft.1, hft.2]
    · rfl
  · intro f t
    rw [supported, nfbaseChange_tables]
    split_ifs with hft
    · rw [(h _).2, hft.1, hft.2]
      rfl
    · rfl

open SameRules

variable (check : Bool)

theorem osfwChainAdd_sameRules (base : NfBase) (family : Family) (table : Table) (chain : Text) :
    SameRules base (osfwChainAdd check base family table chain).2 := by
  unfold osfwChainAdd
  split_ifs
  · exact refl base
  · exact refl base
  · exact refl base
  · apply nfbaseChange_sameRules
    intro t
    unfold nftableAddNfchain
    split_ifs <;> exact ⟨rfl, rfl⟩

theorem osfwChainDel_sameRules (chain : Text) :
    SameRules base (osfwChainDel base family table chain).2 := by
  unfold osfwChainDel
  split_ifs
  · exact refl base
  · exact refl base
  · exact refl base
  · apply nfbaseChange_sameRules
    intro t
    unfold nftableDelNfchain
    split_ifs <;> exact ⟨rfl, rfl⟩

/-! ## Calls for a rule -/

def addSlot (check : Bool) (base : NfBase) (x : Slot) : Bool × NfBase :=
  osfwRuleAdd check base x.1 x.2.1 x.2.2.chain x.2.2.prio x.2.2.mtch x.2.2.target

def delSlot (base : NfBase) (x : Slot) : Bool × NfBase :=
  osfwRuleDel base x.1 x.2.1 x.2.2.chain x.2.2.prio x.2.2.mtch x.2.2.target

theorem addSlot_fst (base : NfBase) (x : Slot) : (addSlot check base x).1 =
      (decide (x.2.2.chain ≠ []) && decide (x.2.2.target ≠ []) && supported base x.1 x.2.1 && check) := by
  unfold addSlot osfwRuleAdd
  by_cases hc : x.2.2.chain = []
  · simp [hc]
  · by_cases ht : x.2.2.target = []
    · simp [ht]
    · rw [if_neg (by simp [hc, ht]), nfbaseChange_fst, nftableAddNfrule, ← supported]
      cases supported base x.1 x.2.1 <;> cases check <;> simp [hc, ht]

/-- The rules of the tables after a call, and all else that matters here. -/
structure Changed (base base' : NfBase) (x : Slot) (rules : List NfRule) : Prop where
  rules : ∀ family table, ((base' family).tables table).rules =
    if family = x.1 ∧ table = x.2.1 then rules else ((base family).tables table).rules
  supported : ∀ family table, supported base' family table = supported base family table

theorem Changed.same (x : Slot) : Changed base base x ((base x.1).tables x.2.1).rules := by
  refine ⟨fun family table => ?_, fun _ _ => rfl⟩
  split_ifs with h
  · rw [h.1, h.2]
  · rfl

theorem nfbaseChange_changed (x : Slot) {change : NfTable → Bool × NfTable}
    (h : ∀ t, (change t).2.issupported = t.issupported) :
    Changed base (nfbaseChange base x.1 x.2.1 change).2 x (change ((base x.1).tables x.2.1)).2.rules := by
  constructor
  · intro f t
    rw [nfbaseChange_tables]
    split_ifs <;> rfl
  · intro f t
    rw [supported, nfbaseChange_tables]
    split_ifs with hft
    · rw [h, hft.1, hft.2]
      rfl
    · rfl

theorem Changed.amount {base base' : NfBase} {x : Slot} {rules : List NfRule} (h : Changed base base' x rules)
    (y : Slot) : Osfw.amount base' y = if y.1 = x.1 ∧ y.2.1 = x.2.1 then rules.count y.2.2 else Osfw.amount base y := by
  rw [Osfw.amount, h.rules]
  split_ifs <;> rfl

theorem Changed.wellStored {base base' : NfBase} {x : Slot} {rules : List NfRule} (h : Changed base base' x rules)
    (hb : WellStored base) (hru : ∀ r ∈ rules, InBuffers r) : WellStored base' := by
  intro family table r hr
  rw [h.rules] at hr
  split_ifs at hr
  · exact hru r hr
  · exact hb family table r hr

theorem addSlot_changed (base : NfBase) (x : Slot) :
    Changed base (addSlot check base x).2 x (if (addSlot check base x).1
      then nfruleSet ((base x.1).tables x.2.1).rules (stored x).2.2 else ((base x.1).tables x.2.1).rules) := by
  unfold addSlot osfwRuleAdd
  by_cases hem : x.2.2.chain = [] ∨ x.2.2.target = []
  · rw [if_pos hem]
    exact Changed.same base x
  rw [if_neg hem, nfbaseChange_fst]
  have hc := nfbaseChange_changed base x
    (fun t => (nftableAddNfrule_sound check t x.2.2.chain x.2.2.prio x.2.2.mtch x.2.2.target).issupported)
  convert hc using 1
  unfold nftableAddNfrule
  split_ifs <;> simp_all [stored]

theorem delSlot_changed (x : Slot) : Changed base (delSlot base x).2 x (if (delSlot base x).1
      then ((base x.1).tables x.2.1).rules.eraseP (nfruleMatch x.2.2.chain x.2.2.prio x.2.2.mtch x.2.2.target)
      else ((base x.1).tables x.2.1).rules) := by
  unfold delSlot osfwRuleDel
  by_cases hem : x.2.2.chain = [] ∨ x.2.2.target = []
  · rw [if_pos hem]
    exact Changed.same base x
  rw [if_neg hem, nfbaseChange_fst]
  have hc := nfbaseChange_changed base x
    (fun t => (nftableDelNfrule_sound t x.2.2.chain x.2.2.prio x.2.2.mtch x.2.2.target).issupported)
  convert hc using 1
  unfold nftableDelNfrule
  split_ifs <;> simp_all

theorem delSlot_found {base : NfBase} {x : Slot} (h : (delSlot base x).1 = true) :
    ∃ r ∈ ((base x.1).tables x.2.1).rules, nfruleMatch x.2.2.chain x.2.2.prio x.2.2.mtch x.2.2.target r = true := by
  unfold delSlot osfwRuleDel at h
  split_ifs at h
  rw [nfbaseChange_fst, nftableDelNfrule] at h
  split_ifs at h with ha
  exact any_eq_true.mp ha

theorem slot_eq_iff {x y : Slot} : y = stored x ↔ (y.1 = x.1 ∧ y.2.1 = x.2.1) ∧ y.2.2 = (stored x).2.2 := by
  obtain ⟨f, t, r⟩ := x
  obtain ⟨f', t', r'⟩ := y
  simp [stored, and_assoc]

theorem addSlot_amount (base : NfBase) (x y : Slot) :
    amount (addSlot check base x).2 y = amount base y + if (addSlot check base x).1 ∧ y = stored x then 1 else 0 := by
  rw [(addSlot_changed check base x).amount]
  by_cases hxy : y.1 = x.1 ∧ y.2.1 = x.2.1
  · rw [if_pos hxy, amount, hxy.1, hxy.2]
    cases (addSlot check base x).1 with
    | false => simp
    | true =>
      have hp := perm_orderedInsert (fun a b : NfRule => a.prio < b.prio) (stored x).2.2 ((base x.1).tables x.2.1).rules
      simp [nfruleSet, hp.count_eq, count_cons, slot_eq_iff, hxy, beq_iff_eq, eq_comm (a := (stored x).2.2)]
  · simp [hxy, slot_eq_iff]

theorem delSlot_amount {base : NfBase} (h : WellStored base) (x y : Slot) :
    amount (delSlot base x).2 y + (if (delSlot base x).1 ∧ y = stored x then 1 else 0) = amount base y := by
  rw [(delSlot_changed base x).amount]
  by_cases hxy : y.1 = x.1 ∧ y.2.1 = x.2.1
  · rw [if_pos hxy, amount, hxy.1, hxy.2]
    cases hok : (delSlot base x).1 with
    | false => simp
    | true =>
      obtain ⟨r, hr, hm⟩ := delSlot_found hok
      obtain ⟨r', l₁, l₂, -, hm', hs, her⟩ := exists_of_eraseP hr hm
      have hr' : r' ∈ ((base x.1).tables x.2.1).rules := by simp [hs]
      have hst : r' = (stored x).2.2 := nfruleMatch_stored (h _ _ r' hr') hm'
      rw [if_pos rfl, her, hs]
      simp only [count_append, count_cons, hst, slot_eq_iff, hxy, true_and, beq_iff_eq, eq_comm (a := (stored x).2.2)]
      omega
  · simp [hxy, slot_eq_iff]

theorem addSlot_wellStored {base : NfBase} (h : WellStored base) (x : Slot) :
    WellStored (addSlot check base x).2 := by
  apply (addSlot_changed check base x).wellStored h
  intro r hr
  split_ifs at hr
  · rcases mem_cons.mp ((perm_orderedInsert _ _ _).mem_iff.mp hr) with rfl | hr
    · exact nfruleOf_inBuffers _ _ _ _
    · exact h _ _ r hr
  · exact h _ _ r hr

theorem delSlot_wellStored {base : NfBase} (h : WellStored base) (x : Slot) : WellStored (delSlot base x).2 := by
  apply (delSlot_changed base x).wellStored h
  intro r hr
  split_ifs at hr
  · exact h _ _ r (mem_of_mem_eraseP hr)
  · exact h _ _ r hr

/-! ## The order of the rules -/

inductive RuleOp
  | add (check : Bool) (rule : NfRule)
  | del (rule : NfRule)

def RuleOp.change : RuleOp → NfTable → Bool × NfTable
  | .add check r => fun t => nftableAddNfrule check t r.chain r.prio r.mtch r.target
  | .del r => fun t => nftableDelNfrule t r.chain r.prio r.mtch r.target

/-- The rules that were added and not deleted, in the order of their addition. -/
def RuleOp.live (ok : Bool) (added : List NfRule) : RuleOp → List NfRule
  | .add _ r => if ok then added ++ [nfruleOf r.chain r.prio r.mtch r.target] else added
  | .del r => if ok then added.erase r else added

def ruleStep (table : Table) (x : NfInet × List NfRule) (op : RuleOp) : NfInet × List NfRule :=
  ((nfinetChange x.1 table op.change).2, op.live (nfinetChange x.1 table op.change).1 x.2)

def ruleRun (inet : NfInet) (table : Table) (ops : List RuleOp) : NfInet × List NfRule :=
  ops.foldl (ruleStep table) (inet, [])

/-- Sorted by priority, and rules of one priority are in the order of their addition. -/
structure Ordered (rules added : List NfRule) : Prop where
  sorted : rules.Pairwise fun r s => r.prio ≤ s.prio
  stable : ∀ p, rules.filter (·.prio = p) = added.filter (·.prio = p)
  inBuffers : ∀ r ∈ rules, InBuffers r

variable {rules added : List NfRule} {r : NfRule}

theorem nfruleSet_split (h : rules.Pairwise fun r s => r.prio ≤ s.prio) :
    ∃ l₁ l₂, rules = l₁ ++ l₂ ∧ nfruleSet rules r = l₁ ++ r :: l₂ ∧ (∀ s ∈ l₁, s.prio ≤ r.prio) ∧
      ∀ s ∈ l₂, r.prio < s.prio := by
  induction rules with
  | nil => exact ⟨[], [], rfl, rfl, nofun, nofun⟩
  | cons s rules ih =>
    obtain ⟨hs, hr⟩ := pairwise_cons.mp h
    by_cases hlt : r.prio < s.prio
    · exact ⟨[], s :: rules, rfl, orderedInsert_cons_of_le _ _ hlt, nofun,
        forall_mem_cons.mpr ⟨hlt, fun s' hs' => hlt.trans_le (hs s' hs')⟩⟩
    · obtain ⟨l₁, l₂, rfl, hse, hb, ha⟩ := ih hr
      exact ⟨s :: l₁, l₂, rfl, (if_neg hlt).trans (congrArg (cons s) hse), forall_mem_cons.mpr ⟨not_lt.mp hlt, hb⟩, ha⟩

theorem Ordered.add (h : Ordered rules added) (hr : InBuffers r) : Ordered (nfruleSet rules r) (added ++ [r]) := by
  obtain ⟨l₁, l₂, rfl, hse, hb, ha⟩ := nfruleSet_split (r := r) h.sorted
  obtain ⟨h₁, h₂, hc⟩ := pairwise_append.mp h.sorted
  rw [hse]
  refine ⟨pairwise_append.mpr ⟨h₁, pairwise_cons.mpr ⟨fun s hs => (ha s hs).le, h₂⟩,
    fun s hs => forall_mem_cons.mpr ⟨hb s hs, hc s hs⟩⟩, fun p => ?_, fun s hs => ?_⟩
  · rw [filter_append, filter_append, ← h.stable, filter_append]
    by_cases hp : r.prio = p
    · -- nothing behind the new rule has its priority
      have hn : l₂.filter (·.prio = p) = [] := filter_eq_nil_iff.mpr fun s hs => by simpa using hp ▸ (ha s hs).ne'
      simp [hp, hn]
    · simp [hp]
  · rcases mem_cons.mp (perm_middle.mem_iff.mp hs) with rfl | hs
    · exact hr
    · exact h.inBuffers s hs

theorem eraseP_nfruleMatch (h : ∀ s ∈ rules, InBuffers s) :
    rules.eraseP (nfruleMatch r.chain r.prio r.mtch r.target) = rules.erase r := by
  induction rules with
  | nil => rfl
  | cons s rules ih =>
    have hs := nfruleMatch_iff (s := r) (h s mem_cons_self)
    by_cases heq : s = r
    · rw [eraseP_cons_of_pos (hs.mpr heq), heq, erase_cons_head]
    · rw [eraseP_cons_of_neg (fun hm => heq (hs.mp hm)), erase_cons_tail (by simpa using heq),
        ih (forall_mem_cons.mp h).2]

theorem nftableDelNfrule_eq {t : NfTable} (h : ∀ s ∈ t.rules, InBuffers s) :
    nftableDelNfrule t r.chain r.prio r.mtch r.target =
      if r ∈ t.rules then (true, { t with rules := t.rules.erase r }) else (false, t) := by
  have ha : t.rules.any (nfruleMatch r.chain r.prio r.mtch r.target) = true ↔ r ∈ t.rules := by
    rw [any_eq_true]
    exact ⟨fun ⟨s, hs, hm⟩ => (nfruleMatch_iff (h s hs)).mp hm ▸ hs, fun hr => ⟨r, hr, (nfruleMatch_iff (h r hr)).mpr rfl⟩⟩
  simp [nftableDelNfrule, ha, eraseP_nfruleMatch h]

theorem RuleOp.sound (op : RuleOp) (t : NfTable) : Sound t (op.change t) := by
  cases op with
  | add check r => exact nftableAddNfrule_sound ..
  | del r => exact nftableDelNfrule_sound ..

theorem RuleOp.nfinetChange_eq (op : RuleOp) (inet : NfInet) (table : Table) :
    nfinetChange inet table op.change = if (op.change (inet.tables table)).1 then
      (true, ⟨true, Function.update inet.tables table (op.change (inet.tables table)).2⟩) else (false, inet) := by
  rw [nfinetChange]
  split_ifs with hok
  · rfl
  · rw [(op.sound _).refused (Bool.eq_false_of_not_eq_true hok), update_eq_self]

open RuleOp

theorem Ordered.stepped {x : NfInet × List NfRule} {table : Table} (h : Ordered (x.1.tables table).rules x.2)
    (op : RuleOp) : Ordered ((ruleStep table x op).1.tables table).rules (ruleStep table x op).2 := by
  rw [ruleStep, op.nfinetChange_eq]
  cases hok : (op.change (x.1.tables table)).1 with
  | false => cases op <;> exact h
  | true =>
    simp only [if_true, update_self]
    cases op with
    | add check r =>
      simp only [change, nftableAddNfrule] at hok ⊢
      split_ifs at hok ⊢
      exact h.add (nfruleOf_inBuffers ..)
    | del r =>
      simp only [change, nftableDelNfrule_eq h.inBuffers] at hok ⊢
      split_ifs at hok ⊢
      refine ⟨h.sorted.sublist erase_sublist, fun p => ?_, fun s hs => h.inBuffers s (mem_of_mem_erase hs)⟩
      exact (erase_filter ..).symm.trans ((h.stable p ▸ rfl : _ = _).trans (erase_filter ..))

end OpenSync.Osfw
