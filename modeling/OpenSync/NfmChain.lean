import OpenSync.Keyed
import OpenSync.Osfw
import OpenSync.Product

/-!
# Chains of the firewall manager

`nfm_osfw.c` and `nfm_chain.c`: the calls that the firewall manager makes to the firewall layer, and the chains it
keeps as long as a rule refers to them. The layer is any state with the four calls of `osn_fw.h`; what it answers is
its own affair.
-/

namespace OpenSync.Nfm
open List

open Keyed Osfw Product

structure Firewall (σ : Type) where
  chainAdd : σ → Family → Table → Text → Bool × σ
  chainDel : σ → Family → Table → Text → Bool × σ
  ruleAdd : σ → Family → Table → NfRule → Bool × σ
  ruleDel : σ → Family → Table → NfRule → Bool × σ

/-- A layer whose state notes a deletion that is refused. -/
structure Firewall.Notes {σ : Type} (fw : Firewall σ) (P : σ → Prop) : Prop where
  chainAdd : ∀ family table chain, Keeps P (fw.chainAdd · family table chain)
  chainDel : ∀ family table chain, Noted P (fw.chainDel · family table chain)
  ruleAdd : ∀ family table rule, Keeps P (fw.ruleAdd · family table rule)
  ruleDel : ∀ family table rule, Noted P (fw.ruleDel · family table rule)

/-- Any layer along with the number of deletions it has refused. -/
def Firewall.watch {σ : Type} (fw : Firewall σ) : Firewall (σ × Nat) where
  chainAdd s family table chain :=
    let added := fw.chainAdd s.1 family table chain
    (added.1, added.2, s.2)
  chainDel s family table chain :=
    let deleted := fw.chainDel s.1 family table chain
    (deleted.1, deleted.2, if deleted.1 then s.2 else s.2 + 1)
  ruleAdd s family table rule :=
    let added := fw.ruleAdd s.1 family table rule
    (added.1, added.2, s.2)
  ruleDel s family table rule :=
    let deleted := fw.ruleDel s.1 family table rule
    (deleted.1, deleted.2, if deleted.1 then s.2 else s.2 + 1)

theorem Firewall.watch_notes {σ : Type} (fw : Firewall σ) : fw.watch.Notes fun s => 0 < s.2 := by
  have hc : ∀ (ok : Bool) (refused : Nat), (0 < refused → 0 < if ok then refused else refused + 1) ∧
      (ok = false → 0 < if ok then refused else refused + 1) := by
    intro ok refused
    cases ok <;> simp
  exact ⟨fun _ _ _ _ h => h, fun _ _ _ => ⟨fun s => (hc _ s.2).1, fun s => (hc _ s.2).2⟩, fun _ _ _ _ h => h,
    fun _ _ _ => ⟨fun s => (hc _ s.2).1, fun s => (hc _ s.2).2⟩⟩

/-- The columns of a row of `Netfilter` but its status. -/
structure Conf where
  name : Text
  enable : Bool
  protocol : Text
  table : Text
  chain : Text
  priority : Int
  rule : Text
  target : Text
  deriving DecidableEq

/-! ## Calls to the layer -/

def nfmOsfwIsInet4 (protocol : Text) : Bool :=
  decide (protocol = "ipv4".toList) || decide (protocol = "both".toList)

def nfmOsfwIsInet6 (protocol : Text) : Bool :=
  decide (protocol = "ipv6".toList) || decide (protocol = "both".toList)

/-- A table that is not known is the filter table. -/
def nfmOsfwConvertTable (table : Text) : Table :=
  if table = "nat".toList then .nat
  else if table = "mangle".toList then .mangle
  else if table = "raw".toList then .raw
  else if table = "security".toList then .security
  else .filter

def nfmOsfwIsValidChain (chain : Text) : Bool :=
  !chain.contains ' ' && !(["ACCEPT", "DROP", "RETURN", "REJECT", "QUEUE"].any fun s => decide (s.toList = chain))

variable {σ : Type}

/-- A change of a chain; what is no chain is ignored. -/
def nfmOsfwChain (call : σ → Family → Table → Text → Bool × σ) (s : σ) (family : Family) (table chain : Text) :
    Bool × σ :=
  if table = [] ∨ chain = [] then (false, s)
  else if !nfmOsfwIsValidChain chain then (true, s)
  else call s family (nfmOsfwConvertTable table) chain

def nfmOsfwAddChain (fw : Firewall σ) : σ → Family → Text → Text → Bool × σ := nfmOsfwChain fw.chainAdd

def nfmOsfwDelChain (fw : Firewall σ) : σ → Family → Text → Text → Bool × σ := nfmOsfwChain fw.chainDel

def confRule (conf : Conf) : NfRule := ⟨conf.chain, conf.priority, conf.rule, conf.target⟩

/-- A change of a rule for the families of its protocol; the second one is only tried if the first one succeeds. -/
def nfmOsfwRule (call : σ → Family → Table → NfRule → Bool × σ) (s : σ) (conf : Conf) : Bool × σ :=
  let v4 := if nfmOsfwIsInet4 conf.protocol then call s .inet (nfmOsfwConvertTable conf.table) (confRule conf)
    else (true, s)
  if !v4.1 then v4
  else if nfmOsfwIsInet6 conf.protocol then call v4.2 .inet6 (nfmOsfwConvertTable conf.table) (confRule conf)
  else v4

def nfmOsfwAddRule (fw : Firewall σ) : σ → Conf → Bool × σ := nfmOsfwRule fw.ruleAdd

def nfmOsfwDelRule (fw : Firewall σ) : σ → Conf → Bool × σ := nfmOsfwRule fw.ruleDel

def families (protocol : Text) : List Family :=
  (if nfmOsfwIsInet4 protocol then [.inet] else []) ++ if nfmOsfwIsInet6 protocol then [.inet6] else []

theorem nfmOsfwRule_eq (call : σ → Family → Table → NfRule → Bool × σ) (s : σ) (conf : Conf) :
    nfmOsfwRule call s conf = tryAll (fun s family => call s family (nfmOsfwConvertTable conf.table) (confRule conf))
        (families conf.protocol) s := by
  unfold nfmOsfwRule families
  cases nfmOsfwIsInet4 conf.protocol with
  | false =>
    cases nfmOsfwIsInet6 conf.protocol with
    | false => rfl
    | true => simp [tryAll_singleton]
  | true =>
    cases nfmOsfwIsInet6 conf.protocol with
    | false => simp [tryAll_singleton]
    | true =>
      simp only [if_true, tryAll_append, tryAll_singleton]
      cases (call s .inet (nfmOsfwConvertTable conf.table) (confRule conf)).1 <;> rfl

variable {P : σ → Prop}

theorem nfmOsfwRule_keeps {call : σ → Family → Table → NfRule → Bool × σ}
    (h : ∀ family table rule, Keeps P (call · family table rule)) (conf : Conf) : Keeps P (nfmOsfwRule call · conf) := by
  simp only [nfmOsfwRule_eq]
  exact tryAll_kept fun family _ => h family _ _

variable {fw : Firewall σ}

theorem nfmOsfwDelRule_noted (h : fw.Notes P) (conf : Conf) : Noted P (nfmOsfwDelRule fw · conf) := by
  unfold nfmOsfwDelRule
  simp only [nfmOsfwRule_eq]
  exact tryAll_noted fun family _ => h.ruleDel family _ _

/-! ## Chains in use -/

abbrev ChainKey := Family × Text × Text

structure NfmChain where
  nbref : Nat
  family : Family
  table : Text
  chain : Text
  isadded : Bool

def NfmChain.key (c : NfmChain) : ChainKey := (c.family, c.table, c.chain)

structure Chains (σ : Type) where
  fw : σ
  chains : List NfmChain

def sizeName : Nat := 64

def chainMatch (key : ChainKey) (self : NfmChain) : Bool :=
  decide (key.1 = self.family) && strncmpEq sizeName key.2.1 self.table && strncmpEq sizeName key.2.2 self.chain

@[grind =] def onFirst {α : Type} (p : α → Bool) (f : α → α) : List α → List α
  | [] => []
  | a :: l => if p a then f a :: l else a :: onFirst p f l

/-- A chain that cannot be set is destroyed again. -/
def nfmChainCreate (fw : Firewall σ) (s : Chains σ) (key : ChainKey) : Bool × Chains σ :=
  if key.2.1 = [] ∨ key.2.2 = [] then (false, s)
  else
    let self : NfmChain := ⟨1, key.1, strscpy sizeName key.2.1, strscpy sizeName key.2.2, true⟩
    let added := nfmOsfwAddChain fw s.fw self.family self.table self.chain
    if added.1 then (true, ⟨added.2, s.chains ++ [self]⟩) else (false, { s with fw := added.2 })

def nfmChainGetRef (fw : Firewall σ) (s : Chains σ) (key : ChainKey) : Bool × Chains σ :=
  match s.chains.find? (chainMatch key) with
  | none => nfmChainCreate fw s key
  | some _ =>
    (true, { s with chains := onFirst (chainMatch key) (fun c => { c with nbref := c.nbref + 1 }) s.chains })

def unsignedPred (n : Nat) : Nat := if n = 0 then 2 ^ 32 - 1 else n - 1

/-- The last reference destroys the chain. -/
def nfmChainPutRef (fw : Firewall σ) (s : Chains σ) (key : ChainKey) : Bool × Chains σ :=
  match s.chains.find? (chainMatch key) with
  | none => (false, s)
  | some self =>
    let chains := onFirst (chainMatch key) (fun c => { c with nbref := unsignedPred c.nbref }) s.chains
    if unsignedPred self.nbref ≠ 0 then (true, { s with chains := chains })
    else
      let deleted := if self.isadded then nfmOsfwDelChain fw s.fw self.family self.table self.chain else (true, s.fw)
      if deleted.1 then (true, ⟨deleted.2, chains.eraseP (chainMatch key)⟩) else (false, ⟨deleted.2, chains⟩)

/-! ## Reference counts -/

def ChainKey.Short (k : ChainKey) : Prop := k.2.1.length < sizeName ∧ k.2.2.length < sizeName

structure Counted (chains : List NfmChain) (refs : List ChainKey) : Prop where
  unique : Keyed.Unique NfmChain.key chains
  short : ∀ c ∈ chains, c.key.Short
  isadded : ∀ c ∈ chains, c.isadded = true ∧ 0 < c.nbref ∧ c.table ≠ [] ∧ c.chain ≠ []
  count : ∀ k, ((find NfmChain.key k chains).map NfmChain.nbref).getD 0 = refs.count k

theorem counted_nil : Counted [] [] := ⟨nodup_nil, by simp, by simp, fun _ => rfl⟩

variable {chains : List NfmChain}

theorem Counted.perm {refs refs' : List ChainKey} (h : Counted chains refs)
    (hp : refs.Perm refs') : Counted chains refs' :=
  { h with count := fun k => (h.count k).trans (hp.count_eq k) }

variable {k : ChainKey}

open NfmChain

theorem chainMatch_iff {c : NfmChain} (h : c.key.Short) : chainMatch k c = true ↔ c.key = k := by
  obtain ⟨family, table, chain⟩ := k
  have ht : strncmpEq sizeName table c.table = true ↔ table = c.table := strncmpEq_short h.1
  have hc : strncmpEq sizeName chain c.chain = true ↔ chain = c.chain := strncmpEq_short h.2
  simp only [chainMatch, key, Bool.and_eq_true, decide_eq_true_eq, ht, hc, Prod.mk.injEq]
  constructor
  · rintro ⟨⟨rfl, rfl⟩, rfl⟩
    exact ⟨rfl, rfl, rfl⟩
  · rintro ⟨rfl, rfl, rfl⟩
    exact ⟨⟨rfl, rfl⟩, rfl⟩

theorem find_chainMatch (h : ∀ c ∈ chains, c.key.Short) (k : ChainKey) :
    chains.find? (chainMatch k) = find NfmChain.key k chains := by
  apply find?_congr
  intro c hc
  rw [Bool.eq_iff_iff, chainMatch_iff (h c hc), decide_eq_true_eq]

variable {f : NfmChain → NfmChain} {p : NfmChain → Bool}

theorem map_key_onFirst (hf : ∀ c, (f c).key = c.key)
    (l : List NfmChain) : (onFirst p f l).map NfmChain.key = l.map NfmChain.key := by
  induction l with
  | nil => rfl
  | cons c l ih =>
    rw [onFirst]
    split_ifs
    · rw [map_cons, map_cons, hf]
    · rw [map_cons, map_cons, ih]

variable {l : List NfmChain}

theorem mem_onFirst {c : NfmChain} (h : c ∈ onFirst p f l) : c ∈ l ∨ ∃ c' ∈ l, p c' = true ∧ c = f c' := by
  induction l with
  | nil => simp [onFirst] at h
  | cons d l ih =>
    rw [onFirst] at h
    split_ifs at h with hd
    · rcases mem_cons.mp h with rfl | h
      · exact .inr ⟨d, mem_cons_self, hd, rfl⟩
      · exact .inl (mem_cons_of_mem _ h)
    · rcases mem_cons.mp h with rfl | h
      · exact .inl mem_cons_self
      · rcases ih h with h | ⟨c', hc', hp, rfl⟩
        · exact .inl (mem_cons_of_mem _ h)
        · exact .inr ⟨c', mem_cons_of_mem _ hc', hp, rfl⟩

theorem find_onFirst (hf : ∀ c, (f c).key = c.key) (h : ∀ c ∈ l, c.key.Short) (k k' : ChainKey) :
    find NfmChain.key k' (onFirst (chainMatch k) f l) =
      if k' = k then (find NfmChain.key k' l).map f else find NfmChain.key k' l := by
  induction l with
  | nil => simp [onFirst]
  | cons c l ih =>
    have hc := chainMatch_iff (k := k) (h c mem_cons_self)
    have ih := ih (forall_mem_cons.mp h).2
    rw [onFirst]
    by_cases hk : c.key = k
    · rw [if_pos (hc.mpr hk), find_cons, find_cons, hf, hk]
      by_cases hk' : k' = k
      · simp [hk']
      · rw [if_neg hk', if_neg fun h => hk' h.symm, if_neg fun h => hk' h.symm]
    · rw [if_neg fun h => hk (hc.mp h), find_cons, find_cons, ih]
      by_cases hk' : c.key = k'
      · rw [if_pos hk', if_pos hk', if_neg]
        rintro rfl
        exact hk hk'
      · rw [if_neg hk', if_neg hk']

theorem find_eraseP (hu : Keyed.Unique NfmChain.key l) (h : ∀ c ∈ l, c.key.Short) (k k' : ChainKey) :
    find NfmChain.key k' (l.eraseP (chainMatch k)) = if k' = k then none else find NfmChain.key k' l := by
  induction l with
  | nil => simp
  | cons c l ih =>
    obtain ⟨hn, hu⟩ := nodup_cons.mp hu
    have hc := chainMatch_iff (k := k) (h c mem_cons_self)
    have ih := ih hu (forall_mem_cons.mp h).2
    by_cases hk : c.key = k
    · rw [eraseP_cons_of_pos (hc.mpr hk), find_cons, hk]
      by_cases hk' : k' = k
      · rw [if_pos hk', hk', find_eq_none]
        intro d hd hdk
        exact hn (mem_map.mpr ⟨d, hd, hdk.trans hk.symm⟩)
      · rw [if_neg hk', if_neg fun h => hk' h.symm]
    · rw [eraseP_cons_of_neg fun h => hk (hc.mp h), find_cons, find_cons, ih]
      by_cases hk' : c.key = k'
      · rw [if_pos hk', if_pos hk', if_neg]
        rintro rfl
        exact hk hk'
      · rw [if_neg hk', if_neg hk']

theorem Counted.onFirst {refs refs' : List ChainKey} (h : Counted chains refs)
    {f : Nat → Nat} {self : NfmChain} (hs : find NfmChain.key k chains = some self) (hp : 0 < f self.nbref)
    (hk : refs'.count k = f (refs.count k)) (ho : ∀ k', k' ≠ k → refs'.count k' = refs.count k') :
    Counted (Nfm.onFirst (chainMatch k) (fun c => { c with nbref := f c.nbref }) chains) refs' := by
  have hke : ∀ c : NfmChain, ({ c with nbref := f c.nbref } : NfmChain).key = c.key := fun _ => rfl
  refine ⟨?_, ?_, ?_, ?_⟩
  · rw [Keyed.Unique, map_key_onFirst hke]
    exact h.unique
  · intro c hc
    rcases mem_onFirst hc with hc | ⟨c', hc', -, rfl⟩
    · exact h.short c hc
    · exact h.short c' hc'
  · intro c hc
    rcases mem_onFirst hc with hc | ⟨c', hc', hm, rfl⟩
    · exact h.isadded c hc
    · obtain ⟨ha, -, hn⟩ := h.isadded c' hc'
      have hf := find_of_mem h.unique hc'
      rw [(chainMatch_iff (h.short c' hc')).mp hm, hs] at hf
      obtain rfl := Option.some.inj hf
      exact ⟨ha, hp, hn⟩
  · intro k'
    have hco := h.count k'
    rw [find_onFirst hke h.short]
    split_ifs with hk'
    · subst hk'
      rw [hs] at hco ⊢
      simp only [Option.map_some, Option.getD_some] at hco ⊢
      rw [hk, hco]
    · rw [ho k' hk']
      exact hco

variable {refs : List ChainKey}

theorem Counted.found (h : Counted chains refs)
    (hk : k ∈ refs) : ∃ self, find NfmChain.key k chains = some self ∧ self.nbref = refs.count k := by
  have hc := h.count k
  cases hf : find key k chains with
  | none =>
    rw [hf] at hc
    exact absurd hc.symm (count_pos_iff.mpr hk).ne'
  | some self =>
    rw [hf] at hc
    exact ⟨self, rfl, hc⟩

theorem Counted.append (h : Counted chains refs)
    (hk : k.Short) (ht : k.2.1 ≠ []) (hch : k.2.2 ≠ []) (hf : find NfmChain.key k chains = none) :
    Counted (chains ++ [⟨1, k.1, k.2.1, k.2.2, true⟩]) (k :: refs) := by
  refine ⟨?_, ?_, ?_, ?_⟩
  · rw [Keyed.Unique, map_append, nodup_append]
    refine ⟨h.unique, nodup_singleton _, ?_⟩
    intro a ha b hb hab
    obtain ⟨c, hc, rfl⟩ := mem_map.mp ha
    rw [map_singleton, mem_singleton] at hb
    exact find_eq_none.mp hf c hc (hab.trans hb)
  · intro c hc
    rcases mem_append.mp hc with hc | hc
    · exact h.short c hc
    · rw [mem_singleton] at hc
      subst hc
      exact hk
  · intro c hc
    rcases mem_append.mp hc with hc | hc
    · exact h.isadded c hc
    · rw [mem_singleton] at hc
      subst hc
      exact ⟨rfl, Nat.one_pos, ht, hch⟩
  · intro k'
    have hco := h.count k'
    have hfi : find key k' (chains ++ [⟨1, k.1, k.2.1, k.2.2, true⟩]) =
        (find key k' chains).or (find key k' [⟨1, k.1, k.2.1, k.2.2, true⟩]) :=
      find?_append
    rw [hfi, find_cons]
    have hke : key ⟨1, k.1, k.2.1, k.2.2, true⟩ = k := rfl
    rw [hke]
    by_cases hk' : k = k'
    · subst hk'
      rw [hf] at hco ⊢
      rw [if_pos rfl, count_cons_self, ← hco]
      rfl
    · rw [if_neg hk', count_cons_of_ne hk', ← hco]
      simp

theorem nfmChainGetRef_counted (fw : Firewall σ) {s : Chains σ} (h : Counted s.chains refs) (hk : k.Short) :
    Counted (nfmChainGetRef fw s k).2.chains (if (nfmChainGetRef fw s k).1 then k :: refs else refs) := by
  unfold nfmChainGetRef
  rw [find_chainMatch h.short]
  cases hf : find key k s.chains with
  | some self =>
    apply h.onFirst hf (f := (· + 1)) (Nat.succ_pos _)
    · exact count_cons_self
    · intro k' hk'
      exact count_cons_of_ne hk'.symm
  | none =>
    unfold nfmChainCreate
    have ht : strscpy sizeName k.2.1 = k.2.1 := take_of_length_le (Nat.le_sub_one_of_lt hk.1)
    have hc : strscpy sizeName k.2.2 = k.2.2 := take_of_length_le (Nat.le_sub_one_of_lt hk.2)
    simp only [ht, hc]
    by_cases hem : k.2.1 = [] ∨ k.2.2 = []
    · rw [if_pos hem]
      exact h
    · rw [if_neg hem]
      cases ha : (nfmOsfwAddChain fw s.fw k.1 k.2.1 k.2.2).1 with
      | false => exact h
      | true => exact h.append hk (fun h' => hem (.inl h')) (fun h' => hem (.inr h')) hf

theorem Counted.erase {self : NfmChain}
    (h : Counted chains (k :: refs)) (hf : find NfmChain.key k chains = some self) (hl : self.nbref = 1) :
    Counted (chains.eraseP (chainMatch k)) refs := by
  have hs := eraseP_sublist (p := chainMatch k) (l := chains)
  refine ⟨h.unique.sublist (hs.map _), fun c hc => h.short c (hs.subset hc), fun c hc => h.isadded c (hs.subset hc), ?_⟩
  intro k'
  have hco := h.count k'
  rw [find_eraseP h.unique h.short]
  split_ifs with hk'
  · subst hk'
    rw [hf, Option.map_some, Option.getD_some, hl, count_cons_self] at hco
    exact (Nat.succ.inj hco :)
  · rwa [count_cons_of_ne fun h' => hk' h'.symm] at hco

theorem eraseP_onFirst (hf : ∀ c, p (f c) = p c) (l : List NfmChain) : (onFirst p f l).eraseP p = l.eraseP p := by
  induction l with
  | nil => rfl
  | cons c l ih =>
    rw [Nfm.onFirst]
    by_cases hc : p c = true
    · rw [if_pos hc, eraseP_cons_of_pos ((hf c).trans hc), eraseP_cons_of_pos hc]
    · rw [if_neg hc, eraseP_cons_of_neg hc, eraseP_cons_of_neg hc, ih]

theorem nfmOsfwDelChain_noted (h : fw.Notes P) (family : Family) {table chain : Text}
    (ht : table ≠ []) (hc : chain ≠ []) : Noted P (nfmOsfwDelChain fw · family table chain) := by
  unfold nfmOsfwDelChain nfmOsfwChain
  simp only [ht, hc, or_self, if_false]
  split_ifs
  · exact noted_true
  · exact h.chainDel _ _ _

theorem nfmChainPutRef_counted (hn : fw.Notes P) {s : Chains σ} (h : Counted s.chains (k :: refs)) :
    ((nfmChainPutRef fw s k).1 = true → Counted (nfmChainPutRef fw s k).2.chains refs) ∧
      ((nfmChainPutRef fw s k).1 = false → P (nfmChainPutRef fw s k).2.fw) := by
  obtain ⟨self, hf, hnb⟩ := h.found mem_cons_self
  have ha := h.isadded self (mem_of_find hf)
  have hd := nfmOsfwDelChain_noted hn self.family ha.2.2.1 ha.2.2.2
  have ho : ∀ k', k' ≠ k → refs.count k' = (k :: refs).count k' := fun k' hk' => (count_cons_of_ne hk'.symm).symm
  unfold nfmChainPutRef
  simp only [find_chainMatch h.short, hf, ha.1, if_true]
  by_cases hl : unsignedPred self.nbref ≠ 0
  · rw [if_pos hl]
    refine ⟨fun _ => h.onFirst hf (f := unsignedPred) (Nat.pos_of_ne_zero hl) ?_ ho, fun h => by cases h⟩
    simp [unsignedPred]
  rw [if_neg hl]
  cases hok : (nfmOsfwDelChain fw s.fw self.family self.table self.chain).1 with
  | false => exact ⟨fun h => (by cases h), fun _ => hd.failed s.fw hok⟩
  | true =>
    refine ⟨fun _ => ?_, fun h => by cases h⟩
    have her := eraseP_onFirst (p := chainMatch k) (f := fun c : NfmChain => { c with nbref := unsignedPred c.nbref })
      (fun _ => rfl) s.chains
    simp only [if_true, her]
    have hp := ha.2.1
    rw [unsignedPred, if_neg hp.ne'] at hl
    exact h.erase hf (by omega)

theorem nfmOsfwChain_keeps {call : σ → Family → Table → Text → Bool × σ}
    (h : ∀ family table chain, Keeps P (call · family table chain)) (family : Family) (table chain : Text) :
    Keeps P (nfmOsfwChain call · family table chain) := by
  intro s hs
  unfold nfmOsfwChain
  split_ifs
  · exact hs
  · exact hs
  · exact h _ _ _ s hs

theorem nfmChainGetRef_keeps (h : ∀ family table chain, Keeps P (fw.chainAdd · family table chain)) (key : ChainKey) :
    Keeps (fun s => P s.fw) (nfmChainGetRef fw · key) := by
  intro s hs
  change P (nfmChainGetRef fw s key).2.fw
  unfold nfmChainGetRef
  cases s.chains.find? (chainMatch key) with
  | some self => exact hs
  | none =>
    unfold nfmChainCreate
    split_ifs
    · exact hs
    · have ha := nfmOsfwChain_keeps h key.1 (strscpy sizeName key.2.1) (strscpy sizeName key.2.2) s.fw hs
      simp only
      split_ifs <;> exact ha

theorem nfmChainPutRef_keeps (h : ∀ family table chain, Keeps P (fw.chainDel · family table chain)) (key : ChainKey) :
    Keeps (fun s => P s.fw) (nfmChainPutRef fw · key) := by
  intro s hs
  change P (nfmChainPutRef fw s key).2.fw
  unfold nfmChainPutRef
  cases s.chains.find? (chainMatch key) with
  | none => exact hs
  | some self =>
    have hd : P (if self.isadded then nfmOsfwDelChain fw s.fw self.family self.table self.chain
        else (true, s.fw)).2 := by
      split_ifs
      · exact nfmOsfwChain_keeps h _ _ _ s.fw hs
      · exact hs
    by_cases hl : unsignedPred self.nbref ≠ 0
    · simp only [if_pos hl]
      exact hs
    · simp only [if_neg hl]
      generalize (if self.isadded then nfmOsfwDelChain fw s.fw self.family self.table self.chain
        else (true, s.fw)) = deleted at hd ⊢
      split_ifs <;> exact hd

end OpenSync.Nfm
