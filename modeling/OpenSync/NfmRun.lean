import OpenSync.NfmRegistry

/-!
# Runs of the firewall manager

The rows of `Netfilter` come and go, and between two events anything may happen to the firewall layer. As long as no
row changes its name or between plain rule and template, every row fits, and the layer refuses no deletion, each row
is held in the registry of its kind with its rule text, and nothing else is held.
-/

namespace OpenSync.Nfm
open List Option

open Keyed
open Osfw (Family NfBase nfbaseSet osfwChainAdd osfwChainDel osfwRuleAdd osfwRuleDel)
open Tags Template

/-! ## Rows -/

def liveAfter (live : List Conf) : Event → List Conf
  | .insert new => new :: live
  | .modify old new => new :: drop Conf.name old.name live
  | .delete old => drop Conf.name old.name live

/-- The database keeps one row under each name, and sends what the row was. -/
def Sent (live : List Conf) : Event → Prop
  | .insert new => find Conf.name new.name live = none
  | .modify old new => find Conf.name old.name live = some old ∧
      find Conf.name new.name (drop Conf.name old.name live) = none
  | .delete old => find Conf.name old.name live = some old

instance (live : List Conf) (e : Event) : Decidable (Sent live e) := by
  cases e <;> unfold Sent <;> infer_instance

instance (conf : Conf) : Decidable (ShortNames conf) :=
  decidable_of_iff (∀ r ∈ putOrder, (refKey conf r).2.1.length < sizeName ∧ (refKey conf r).2.2.length < sizeName)
    ⟨fun h r => h r (mem_putOrder r), fun h r _ => h r⟩

instance (conf : Conf) : Decidable (Fits conf) :=
  decidable_of_iff ((conf.enable = true → ShortNames conf) ∧ (conf.enable = true → isTemplate conf.rule = true →
      (detectRefs conf.rule).length ≤ maxTagsPerRule ∧ expandable conf.rule (detectRefs conf.rule) = true))
    ⟨fun h => ⟨h.1, h.2⟩, fun h => ⟨h.1, h.2⟩⟩

/-- A row fits, and keeps its name and its kind when it is modified. -/
def EventSafe : Event → Prop
  | .insert new => Fits new
  | .modify old new => new.name = old.name ∧ isTemplate new.rule = isTemplate old.rule ∧ Fits new
  | .delete _ => True

instance (e : Event) : Decidable (EventSafe e) := by
  cases e <;> unfold EventSafe <;> infer_instance

/-! ## Rows and registries -/

variable {σ : Type}

/-- The registries hold the rows, each with its rule text in the registry of its kind. -/
structure Mirrors (n : Nfm σ) (live : List Conf) : Prop where
  inv : Inv n
  rows : ∀ kind name, (rowOf n kind name).map Conf.rule =
    ((find Conf.name name live).map Conf.rule).filter fun rule => isTemplate rule == kind

variable {n : Nfm σ} {live : List Conf} {fw : Firewall σ} {P : σ → Prop}

theorem Mirrors.free (h : Mirrors n live) {name : Text} (hn : find Conf.name name live = none) (kind : Bool) :
    rowOf n kind name = none := by
  have hr := h.rows kind name
  rw [hn] at hr
  exact map_eq_none_iff.mp hr

theorem Mirrors.held (h : Mirrors n live) {row : Conf} (hr : find Conf.name row.name live = some row) (kind : Bool) :
    rowOf n kind row.name = none ↔ isTemplate row.rule ≠ kind := by
  rw [← map_eq_none_iff (f := Conf.rule), h.rows, hr]
  simp [filter_some]

theorem Mirrors.set (h : Mirrors n live) {n' : Nfm σ} {live' : List Conf} {kind : Bool} {name : Text}
    {row : Option Conf} (hin : Inv n') (hk : ∀ conf, row = some conf → isTemplate conf.rule = kind)
    (ho : rowOf n (!kind) name = none)
    (hl : ∀ name', find Conf.name name' live' = if name' = name then row else find Conf.name name' live)
    (hr : ∀ kind' name', rowOf n' kind' name' = if kind' = kind ∧ name' = name then row else rowOf n kind' name') :
    Mirrors n' live' := by
  refine ⟨hin, fun kind' name' => ?_⟩
  rw [hr, hl]
  by_cases hn : name' = name
  · subst hn
    by_cases hs : kind' = kind
    · subst hs
      cases row with
      | none => simp
      | some conf => simp [hk conf rfl, filter_some]
    · obtain rfl : kind' = !kind := by cases kind' <;> cases kind <;> simp_all
      cases row with
      | none => simp [ho]
      | some conf => simp [ho, hk conf rfl, filter_some]
  · simp only [hn, and_false, if_false]
    exact h.rows kind' name'

/-! ## Events -/

theorem Mirrors.inserted (hn : fw.Notes P) (h : Mirrors n live) (tags : List Tag) {new : Conf}
    (hs : Sent live (.insert new)) (hsa : EventSafe (.insert new)) :
    Mirrors (callbackNetfilter fw tags n (.insert new)) (liveAfter live (.insert new)) := by
  obtain ⟨hin, hr⟩ := h.inv.new hn tags ⟨hsa, rfl⟩ (h.free hs _)
  refine h.set hin (fun conf hc => by rw [← some.inj hc]) (h.free hs _) (fun name => ?_) hr
  rw [liveAfter, find_cons]
  simp [eq_comm]

theorem Mirrors.deleted (hn : fw.Notes P) (h : Mirrors n live) (tags : List Tag) {old : Conf}
    (hs : Sent live (.delete old)) (hp : ¬ P (callbackNetfilter fw tags n (.delete old)).chains.fw) :
    Mirrors (callbackNetfilter fw tags n (.delete old)) (liveAfter live (.delete old)) := by
  have hh := h.held hs
  obtain ⟨hin, hr⟩ := h.inv.del hn (fun hno => (hh _).mp hno rfl) hp
  exact h.set hin (by rintro _ ⟨⟩) ((hh _).mpr (by simp)) (fun name => find_drop _) hr

theorem isTemplate_nil : isTemplate [] = false := by
  rw [isTemplate]
  rfl

variable {old new : Conf}

theorem oldRecord_plain (h : isTemplate old.rule = false) : nfmTruleIsTemplate (oldRecord old new) = false := by
  simp only [nfmTruleIsTemplate, oldRecord]
  split_ifs
  · exact isTemplate_nil
  · exact h

/-- The old record of a template whose rule is the same has no rule, so that the modification goes to the registry of
plain rules, where it finds nothing. -/
theorem callbackNetfilter_sameRule (fw : Firewall σ) (tags : List Tag) (hr : new.rule = old.rule)
    (hf : plainRow n new.name = none) : callbackNetfilter fw tags n (.modify old new) = n := by
  have hn : find NfmRule.name new.name n.rules = none := map_eq_none_iff.mp hf
  have hp : nfmTruleIsTemplate (oldRecord old new) = false := by
    simp [nfmTruleIsTemplate, oldRecord, hr, isTemplate_nil]
  rw [callbackNetfilter, hp]
  simp only [Bool.false_eq_true, if_false, nfmRuleModify, nfmRuleDel, hn]
  split_ifs <;> rfl

theorem oldRecord_changed (h : new.rule ≠ old.rule ∨ isTemplate old.rule = false) :
    nfmTruleIsTemplate (oldRecord old new) = isTemplate old.rule := by
  rcases h with hr | hp
  · simp [nfmTruleIsTemplate, oldRecord, if_neg (Ne.symm hr)]
  · rw [oldRecord_plain hp, hp]

theorem Mirrors.sameRule (h : Mirrors n live) {live' : List Conf}
    (ho : find Conf.name new.name live = some old) (hr : new.rule = old.rule)
    (hl : ∀ name, find Conf.name name live' = if name = new.name then some new else find Conf.name name live) :
    Mirrors n live' := by
  refine ⟨h.inv, fun kind name => ?_⟩
  rw [h.rows, hl]
  split_ifs with hn
  · rw [hn, ho, map_some, map_some, hr]
  · rfl

theorem Mirrors.modified (hn : fw.Notes P) (h : Mirrors n live) (tags : List Tag)
    (hs : Sent live (.modify old new)) (hsa : EventSafe (.modify old new))
    (hp : ¬ P (callbackNetfilter fw tags n (.modify old new)).chains.fw) :
    Mirrors (callbackNetfilter fw tags n (.modify old new)) (liveAfter live (.modify old new)) := by
  obtain ⟨hna, hk, hf⟩ := hsa
  have hl : ∀ name, find Conf.name name (liveAfter live (.modify old new)) =
      if name = new.name then some new else find Conf.name name live := by
    intro name
    rw [liveAfter, find_cons, find_drop, ← hna]
    by_cases hn : name = new.name
    · rw [if_pos hn.symm, if_pos hn]
    · rw [if_neg hn, if_neg fun h => hn h.symm, if_neg hn]
  have ho : find Conf.name new.name live = some old := hna ▸ hs.1
  have hh (kind : Bool) : rowOf n kind new.name = none ↔ isTemplate old.rule ≠ kind := hna ▸ h.held hs.1 kind
  by_cases hr : new.rule ≠ old.rule ∨ isTemplate old.rule = false
  · have hev : callbackNetfilter fw tags n (.modify old new) =
        modifyOf fw tags n (isTemplate old.rule) (decide (old ≠ new)) new := by
      rw [← oldRecord_changed hr]
      rfl
    rw [hev] at hp ⊢
    by_cases hne : old = new
    · have hsam : modifyOf fw tags n (isTemplate old.rule) (decide (old ≠ new)) new = n := by
        simp [modifyOf, hne, nfmRuleModify, nfmTruleModify]
      rw [hsam]
      exact h.sameRule ho (congrArg Conf.rule hne.symm) hl
    · rw [decide_eq_true hne] at hp ⊢
      obtain ⟨hin, hro⟩ := h.inv.modify hn ⟨hf, hk⟩ (fun hno => (hh _).mp hno rfl) hp
      exact h.set hin (fun conf hc => by rw [← some.inj hc, hk]) ((hh _).mpr (by simp)) hl hro
  · push Not at hr
    have hfr : plainRow n new.name = none := (hh false).mpr hr.2
    rw [callbackNetfilter_sameRule fw tags hr.1 hfr]
    exact h.sameRule ho hr.1 hl

theorem Mirrors.stepped (hn : fw.Notes P) (h : Mirrors n live) (tags : List Tag) {e : Event} (hs : Sent live e)
    (hsa : EventSafe e) (hp : ¬ P (callbackNetfilter fw tags n e).chains.fw) :
    Mirrors (callbackNetfilter fw tags n e) (liveAfter live e) := by
  cases e with
  | insert new => exact h.inserted hn tags hs hsa
  | modify old new => exact h.modified hn tags hs hsa hp
  | delete old => exact h.deleted hn tags hs hp

/-! ## Runs -/

/-- An event, with the tags as they are then, or a change of the layer by anyone. -/
inductive Op (σ : Type)
  | row (tags : List Tag) (e : Event)
  | layer (change : σ → σ)

/-- The manager on a layer whose refused deletions are counted. -/
def step (fw : Firewall σ) (n : Nfm (σ × Nat)) : Op σ → Nfm (σ × Nat)
  | .row tags e => callbackNetfilter fw.watch tags n e
  | .layer change => { n with chains := { n.chains with fw := (change n.chains.fw.1, n.chains.fw.2) } }

def run (fw : Firewall σ) (n : Nfm (σ × Nat)) (ops : List (Op σ)) : Nfm (σ × Nat) := ops.foldl (step fw) n

def start (s : σ) : Nfm (σ × Nat) := ⟨⟨(s, 0), []⟩, [], []⟩

def refusals (n : Nfm (σ × Nat)) : Nat := n.chains.fw.2

def opLive (live : List Conf) : Op σ → List Conf
  | .row _ e => liveAfter live e
  | .layer _ => live

def liveRows (live : List Conf) (ops : List (Op σ)) : List Conf := ops.foldl opLive live

def OpSent (live : List Conf) : Op σ → Prop
  | .row _ e => Sent live e
  | .layer _ => True

def AllSent (live : List Conf) : List (Op σ) → Prop
  | [] => True
  | op :: ops => OpSent live op ∧ AllSent (opLive live op) ops

def OpSafe : Op σ → Prop
  | .row _ e => EventSafe e
  | .layer _ => True

theorem step_keeps (fw : Firewall σ) (n : Nfm (σ × Nat)) (op : Op σ) (h : 0 < refusals n) :
    0 < refusals (step fw n op) := by
  cases op with
  | row tags e => exact callbackNetfilter_keeps fw.watch_notes tags n e h
  | layer change => exact h

theorem run_keeps (fw : Firewall σ) (n : Nfm (σ × Nat)) (ops : List (Op σ)) (h : 0 < refusals n) :
    0 < refusals (run fw n ops) := by
  induction ops generalizing n with
  | nil => exact h
  | cons op ops ih => exact ih (step fw n op) (step_keeps fw n op h)

theorem Mirrors.ran {n : Nfm (σ × Nat)} (fw : Firewall σ) (h : Mirrors n live) {ops : List (Op σ)}
    (hs : AllSent live ops) (hsa : ∀ op ∈ ops, OpSafe op) (hg : refusals (run fw n ops) = 0) :
    Mirrors (run fw n ops) (liveRows live ops) := by
  induction ops generalizing n live with
  | nil => exact h
  | cons op ops ih =>
    have hst : Mirrors (step fw n op) (opLive live op) := by
      cases op with
      | layer change => exact ⟨⟨h.inv.counted, h.inv.rules, h.inv.trules, h.inv.walkable⟩, h.rows⟩
      | row tags e =>
        apply h.stepped fw.watch_notes tags hs.1 (hsa _ mem_cons_self)
        intro hr
        exact (run_keeps fw _ ops hr).ne' hg
    exact ih hst hs.2 (forall_mem_cons.mp hsa).2 hg

theorem mirrors_start (s : σ) : Mirrors (start s) [] :=
  ⟨⟨counted_nil, nodup_nil, nodup_nil, fun _ h => absurd h not_mem_nil⟩, fun kind _ => by cases kind <;> rfl⟩

theorem liveRows_unique {ops : List (Op σ)} (hu : Keyed.Unique Conf.name live) (hs : AllSent live ops) :
    Keyed.Unique Conf.name (liveRows live ops) := by
  have hc : ∀ {live : List Conf} {new : Conf}, Unique Conf.name live →
      find Conf.name new.name live = none → Unique Conf.name (new :: live) := by
    intro live new hu hn
    refine nodup_cons.mpr ⟨fun hm => ?_, hu⟩
    obtain ⟨row, hr, hna⟩ := mem_map.mp hm
    exact find_eq_none.mp hn row hr hna
  induction ops generalizing live with
  | nil => exact hu
  | cons op ops ih =>
    refine ih ?_ hs.2
    cases op with
    | layer change => exact hu
    | row tags e =>
      cases e with
      | insert new => exact hc hu hs.1
      | modify old new => exact hc (hu.drop _) hs.1.2
      | delete old => exact hu.drop _

theorem registries_mirror (fw : Firewall σ) (s : σ) (ops : List (Op σ)) (hsent : AllSent [] ops)
    (hsafe : ∀ op ∈ ops, OpSafe op) (hgranted : refusals (run fw (start s) ops) = 0) :
    (∀ row ∈ liveRows [] ops, (plainRow (run fw (start s) ops) row.name).map Conf.rule =
          (if isTemplate row.rule then none else some row.rule) ∧
        (templateRow (run fw (start s) ops) row.name).map Conf.rule =
          if isTemplate row.rule then some row.rule else none) ∧
      ∀ name, (∀ row ∈ liveRows [] ops, row.name ≠ name) →
        plainRow (run fw (start s) ops) name = none ∧ templateRow (run fw (start s) ops) name = none := by
  have h := (mirrors_start s).ran fw hsent hsafe hgranted
  constructor
  · intro row hro
    have hu : Unique Conf.name (liveRows [] ops) := liveRows_unique nodup_nil hsent
    have hfi := find_of_mem hu hro
    have hr (kind : Bool) := h.rows kind row.name
    simp only [hfi, map_some, filter_some] at hr
    refine ⟨(hr false).trans ?_, (hr true).trans ?_⟩ <;> cases isTemplate row.rule <;> rfl
  · intro name hn
    have hf := h.free (find_eq_none.mpr hn)
    exact ⟨hf false, hf true⟩

/-- The reference count of a chain. -/
def nbref (n : Nfm σ) (k : ChainKey) : Nat := ((find NfmChain.key k n.chains.chains).map NfmChain.nbref).getD 0

abbrev Registered (n : Nfm σ) (k : ChainKey) : Prop := ∃ c ∈ n.chains.chains, c.key = k ∧ c.isadded = true

/-- In such a run a chain is registered while rules refer to it, and counts these references. -/
theorem chains_referenced (fw : Firewall σ) (s : σ) (ops : List (Op σ)) (hsent : AllSent [] ops)
    (hsafe : ∀ op ∈ ops, OpSafe op) (hgranted : refusals (run fw (start s) ops) = 0) (k : ChainKey) :
    (Registered (run fw (start s) ops) k ↔ 0 < nbref (run fw (start s) ops) k) ∧ nbref (run fw (start s) ops) k =
        (ruleKeys (run fw (start s) ops) ++ truleKeys (run fw (start s) ops)).count k := by
  have h := ((mirrors_start s).ran fw hsent hsafe hgranted).inv.counted
  refine ⟨⟨?_, fun hp => ?_⟩, h.count k⟩
  · rintro ⟨c, hc, rfl, -⟩
    rw [nbref, find_of_mem h.unique hc]
    exact (h.isadded c hc).2.1
  · rw [nbref] at hp
    cases hf : find NfmChain.key k (run fw (start s) ops).chains.chains with
    | none =>
      rw [hf] at hp
      exact absurd hp (lt_irrefl 0)
    | some c => exact ⟨c, mem_of_find hf, key_of_find hf, (h.isadded c (mem_of_find hf)).1⟩

instance (live : List Conf) (op : Op σ) : Decidable (OpSent live op) := by
  cases op <;> unfold OpSent <;> infer_instance

instance decidableAllSent (live : List Conf) : (ops : List (Op σ)) → Decidable (AllSent live ops)
  | [] => .isTrue trivial
  | op :: ops =>
    have := decidableAllSent (opLive live op) ops
    inferInstanceAs (Decidable (_ ∧ _))

instance (op : Op σ) : Decidable (OpSafe op) := by
  cases op <;> unfold OpSafe <;> infer_instance

def osfw : Firewall NfBase where
  chainAdd := osfwChainAdd true
  chainDel := osfwChainDel
  ruleAdd base family table rule := osfwRuleAdd true base family table rule.chain rule.prio rule.mtch rule.target
  ruleDel base family table rule := osfwRuleDel base family table rule.chain rule.prio rule.mtch rule.target

def accept (name rule : String) : Conf :=
  ⟨name.toList, true, "both".toList, "filter".toList, "INPUT".toList, 10, rule.toList, "ACCEPT".toList⟩

def keptKinds : List (Op NfBase) :=
  [.row [] (.insert (accept "a" "-i br")), .row [] (.insert (accept "t" "-s $\x7bpeer\x7d")),
    .row [] (.modify (accept "t" "-s $\x7bpeer\x7d") (accept "t" "-d $\x7bpeer\x7d")),
    .row [] (.modify (accept "a" "-i br") (accept "a" "-i wan")), .row [] (.delete (accept "a" "-i wan"))]

theorem keptKinds_mirrored : (∀ row ∈ liveRows [] keptKinds,
      (plainRow (run osfw (start (nfbaseSet fun _ _ => true)) keptKinds) row.name).map Conf.rule =
          (if isTemplate row.rule then none else some row.rule) ∧
        (templateRow (run osfw (start (nfbaseSet fun _ _ => true)) keptKinds) row.name).map Conf.rule =
          if isTemplate row.rule then some row.rule else none) ∧
      ∀ name, (∀ row ∈ liveRows [] keptKinds, row.name ≠ name) →
        plainRow (run osfw (start (nfbaseSet fun _ _ => true)) keptKinds) name = none ∧
          templateRow (run osfw (start (nfbaseSet fun _ _ => true)) keptKinds) name = none :=
  registries_mirror osfw _ keptKinds (by decide +kernel) (by decide +kernel) (by decide +kernel)

def inputChain : ChainKey := (.inet, "filter".toList, "INPUT".toList)

theorem keptKinds_referenced : (Registered (run osfw (start (nfbaseSet fun _ _ => true)) keptKinds) inputChain ↔
        0 < nbref (run osfw (start (nfbaseSet fun _ _ => true)) keptKinds) inputChain) ∧
      nbref (run osfw (start (nfbaseSet fun _ _ => true)) keptKinds) inputChain =
        (ruleKeys (run osfw (start (nfbaseSet fun _ _ => true)) keptKinds) ++
          truleKeys (run osfw (start (nfbaseSet fun _ _ => true)) keptKinds)).count inputChain :=
  chains_referenced osfw _ keptKinds (by decide +kernel) (by decide +kernel) (by decide +kernel) inputChain

def keepsChains : Firewall Unit where
  chainAdd s _ _ _ := (true, s)
  chainDel s _ _ _ := (false, s)
  ruleAdd s _ _ _ := (true, s)
  ruleDel s _ _ _ := (true, s)

/-- The chain of a deleted row stays with no reference counted; when the row has come and gone once more, the count has
gone below zero. -/
theorem refused_chain_miscounted :
    let ops : List (Op Unit) := [.row [] (.insert (accept "a" "")), .row [] (.delete (accept "a" ""))]
    (Registered (run keepsChains (start ()) ops) inputChain ∧ nbref (run keepsChains (start ()) ops) inputChain = 0 ∧
        (ruleKeys (run keepsChains (start ()) ops)).count inputChain = 1) ∧
      nbref (run keepsChains (start ()) (ops ++ ops)) inputChain = 2 ^ 32 - 1 := by
  decide +kernel

/-- A plain rule that becomes a template stays with the plain rules; when the row is deleted it is sought among the
templates, and the entry is left behind. No deletion was refused. -/
theorem crossed_row_left_behind :
    let ops : List (Op NfBase) := [.row [] (.insert (accept "a" "-i br")),
      .row [] (.modify (accept "a" "-i br") (accept "a" "-s $\x7bpeer\x7d"))]
    let gone := ops ++ [.row [] (.delete (accept "a" "-s $\x7bpeer\x7d"))]
    let held := fun ops name => ((plainRow (run osfw (start (nfbaseSet fun _ _ => true)) ops) name).map Conf.rule,
      (templateRow (run osfw (start (nfbaseSet fun _ _ => true)) ops) name).map Conf.rule)
    held ops "a".toList = (some "-s $\x7bpeer\x7d".toList, none) ∧ isTemplate "-s $\x7bpeer\x7d".toList = true ∧
      liveRows [] gone = [] ∧ held gone "a".toList = (some "-s $\x7bpeer\x7d".toList, none) ∧
      refusals (run osfw (start (nfbaseSet fun _ _ => true)) gone) = 0 := by
  decide +kernel

end OpenSync.Nfm
