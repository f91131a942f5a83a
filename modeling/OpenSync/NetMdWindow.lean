import OpenSync.NetMdClose

/-!
# What a window says of a flow

The byte and packet counters that a window reports for an accumulator, against what its flows added since the last
window. A counter that fell counts from zero again for a single flow. The total of a pair subtracts the baselines
of such flows all the same, and its own report then subtracts the pair's baseline only if that leaves something.
-/

namespace OpenSync.NetMd
open List Prod

inductive Field
  | packets | bytes
  deriving DecidableEq

def Counters.get (c : Counters) : Field → BitVec 64
  | .packets => c.packetsCount
  | .bytes => c.bytesCount

def reportedBy (id : Nat) (f : Field) (l : List Stat) : Nat :=
  ((l.filter (·.id = id)).map fun stat => (stat.counters.get f).toNat).sum

def reportedIn (w : Window) (id : Nat) (f : Field) : Nat := reportedBy id f w.flowStats

def reported (a : Aggr) (id : Nat) (f : Field) : Nat := (a.closed.map fun w => reportedIn w id f).sum

def Entry.count (e : Entry) (f : Field) : Nat := e.2.elim 0 fun counters => (counters.get f).toNat

theorem reportedBy_stats_cons (id : Nat) (f : Field) (e : Entry) (l : List Entry) :
    reportedBy id f (stats (e :: l)) = (if e.1 = id then Entry.count e f else 0) + reportedBy id f (stats l) := by
  obtain ⟨i, v⟩ := e
  cases v with
  | none => simp [stats, Entry.count]
  | some counters => by_cases hi : i = id <;> simp [stats, reportedBy, Entry.count, hi]

theorem reportedBy_absent {id : Nat} (f : Field) {l : List Entry} (h : id ∉ l.map fst) :
    reportedBy id f (stats l) = 0 := by
  induction l with
  | nil => rfl
  | cons e l ih =>
    rw [map_cons, mem_cons, not_or] at h
    rw [reportedBy_stats_cons, if_neg fun he => h.1 he.symm, ih h.2]

theorem reportedBy_mem {l : List Entry} (hn : (l.map fst).Nodup) {e : Entry} (he : e ∈ l) (f : Field) :
    reportedBy e.1 f (stats l) = Entry.count e f := by
  induction l with
  | nil => simp at he
  | cons x l ih =>
    rw [map_cons, nodup_cons] at hn
    rw [reportedBy_stats_cons]
    rcases mem_cons.mp he with rfl | he
    · rw [if_pos rfl, reportedBy_absent f hn.1, Nat.add_zero]
    · have hne : x.1 ≠ e.1 := fun hx => hn.1 (hx ▸ mem_map_of_mem he)
      rw [if_neg hne, Nat.zero_add, ih hn.2 he]

/-! ## Increments -/

/-- What a counter added since its baseline; a counter that fell was set back to zero. -/
def increment (first counter : Nat) : Nat := if first ≤ counter then counter - first else counter

def ownIncrement (f : Field) (acc : Acc) : Nat :=
  increment (acc.firstCounters.get f).toNat (acc.counters.get f).toNat

def lostBase (f : Field) (acc : Acc) : Nat :=
  if (acc.firstCounters.get f).toNat ≤ (acc.counters.get f).toNat then 0 else (acc.firstCounters.get f).toNat

def ownIncrements (f : Field) (tree : List Acc) : Nat := (tree.map (ownIncrement f)).sum

def lostBases (f : Field) (tree : List Acc) : Nat := (tree.map (lostBase f)).sum

theorem relativeCount_toNat (counter first : BitVec 64) :
    (relativeCount counter first).toNat = increment first.toNat counter.toNat := by
  unfold relativeCount increment
  split_ifs with h
  · exact BitVec.toNat_sub_of_le h
  · rfl

theorem closeCounters_get (acc : Acc) (f : Field) :
    ((netMdCloseCounters true acc).reportCounters.get f).toNat = ownIncrement f acc := by
  cases f <;> exact relativeCount_toNat _ _

variable {acc : Acc}

theorem ownIncrement_idle (h : acc.counters = acc.firstCounters) (f : Field) : ownIncrement f acc = 0 := by
  simp [ownIncrement, increment, h]

theorem lostBase_idle (h : acc.counters = acc.firstCounters) (f : Field) : lostBase f acc = 0 := by
  simp [lostBase, h]

theorem closedStat_count (h : isActive acc = false → acc.counters = acc.firstCounters) (f : Field) :
    Entry.count (acc.id, closedStat true acc) f = ownIncrement f acc := by
  by_cases ha : isActive acc
  · simp [Entry.count, closedStat, ha, closeCounters_get]
  · rw [Bool.not_eq_true] at ha
    simp [Entry.count, closedStat, ha, ownIncrement_idle (h ha)]

/-! ## The total of a pair -/

theorem updateEthAcc_get (eth acc : Acc) (f : Field) :
    ((netMdUpdateEthAcc eth acc).counters.get f).toNat + lostBase f acc ≡
      (eth.counters.get f).toNat + ownIncrement f acc [MOD 2 ^ 64] := by
  have hg : (netMdUpdateEthAcc eth acc).counters.get f =
      eth.counters.get f + acc.counters.get f - acc.firstCounters.get f := by cases f <;> rfl
  rw [hg]
  unfold lostBase ownIncrement increment
  generalize eth.counters.get f = e
  generalize acc.counters.get f = n
  generalize acc.firstCounters.get f = b
  simp only [BitVec.toNat_sub, BitVec.toNat_add, Nat.ModEq]
  split_ifs with h <;> omega

theorem ethTotal_get (eth : Acc) {tree : List Acc}
    (h : ∀ acc ∈ tree, isActive acc = false → acc.counters = acc.firstCounters) (f : Field) :
    ((ethTotal eth tree).counters.get f).toNat + lostBases f tree ≡
      (eth.counters.get f).toNat + ownIncrements f tree [MOD 2 ^ 64] := by
  induction tree generalizing eth with
  | nil => exact Nat.ModEq.refl _
  | cons acc tree ih =>
    have hih := ih (ethTotal eth [acc]) (forall_mem_cons.mp h).2
    have ho : ((ethTotal eth [acc]).counters.get f).toNat + lostBase f acc ≡
        (eth.counters.get f).toNat + ownIncrement f acc [MOD 2 ^ 64] := by
      by_cases ha : isActive acc
      · have het : ethTotal eth [acc] = netMdUpdateEthAcc { eth with state := .active } acc := by
          simp [ethTotal, ha]
        rw [het]
        exact updateEthAcc_get { eth with state := .active } acc f
      · rw [Bool.not_eq_true] at ha
        have hid := h acc mem_cons_self ha
        have het : ethTotal eth [acc] = eth := by simp [ethTotal, ha]
        rw [het, ownIncrement_idle hid, lostBase_idle hid]
    rw [ethTotal_cons]
    simp only [ownIncrements, lostBases, map_cons, sum_cons, Nat.ModEq] at hih ho ⊢
    omega

theorem ethTotal_firstCounters (eth : Acc) (tree : List Acc) :
    (ethTotal eth tree).firstCounters = eth.firstCounters := by
  unfold ethTotal
  generalize tree.filter isActive = l
  induction l generalizing eth with
  | nil => rfl
  | cons acc l ih => exact ih _

/-- The baseline of the pair and the increments of its flows fit a counter and no flow was set back; or else what
is subtracted for those that were is just the baseline of the pair, and the increments are below it. -/
def PairSafe (f : Field) (pair : EthPair) : Prop :=
  (lostBases f pair.ethertypeFlows % 2 ^ 64 = 0 ∧
    (pair.macStats.counters.get f).toNat + ownIncrements f pair.ethertypeFlows < 2 ^ 64) ∨
  (lostBases f pair.ethertypeFlows % 2 ^ 64 = (pair.macStats.counters.get f).toNat ∧
    ownIncrements f pair.ethertypeFlows < (pair.macStats.counters.get f).toNat)

instance (f : Field) (pair : EthPair) : Decidable (PairSafe f pair) := inferInstanceAs (Decidable (_ ∨ _))

theorem increment_eq_iff {base own lost total : Nat} (hb : base < 2 ^ 64) (ht : total < 2 ^ 64)
    (h : total + lost ≡ base + own [MOD 2 ^ 64]) :
    increment base total = own ↔ (lost % 2 ^ 64 = 0 ∧ base + own < 2 ^ 64) ∨ (lost % 2 ^ 64 = base ∧ own < base) := by
  unfold increment
  simp only [Nat.ModEq] at h
  split_ifs <;> omega

theorem pairEntry_count_iff {pair : EthPair}
    (h : ∀ acc ∈ pair.ethertypeFlows, isActive acc = false → acc.counters = acc.firstCounters)
    (hm : pair.macStats.counters = pair.macStats.firstCounters) (f : Field) :
    Entry.count (pairEntry true pair) f = ownIncrements f pair.ethertypeFlows ↔ PairSafe f pair := by
  have ht := ethTotal_get pair.macStats h f
  have hc : Entry.count (pairEntry true pair) f = increment (pair.macStats.counters.get f).toNat
      ((ethTotal pair.macStats pair.ethertypeFlows).counters.get f).toNat := by
    by_cases ha : (ethTotal pair.macStats pair.ethertypeFlows).state = .active
    · simp [Entry.count, pairEntry, ha, Option.elim_some, closeCounters_get, ownIncrement, ethTotal_firstCounters, hm]
    · have het := ethTotal_inactive _ ha
      rw [het] at ha
      simp [Entry.count, pairEntry, het, ha, increment]
  rw [hc]
  exact increment_eq_iff (BitVec.isLt _) (BitVec.isLt _) ht

/-! ## Slots -/

variable (relative : Bool)

theorem stats_tupleEntries_length (tree : List Acc) :
    (stats (tupleEntries relative tree)).length = (tree.map (mk Kind.tuple)).countP taking := by
  induction tree with
  | nil => rfl
  | cons acc tree ih =>
    have hs : stats (tupleEntries relative (acc :: tree)) =
        stats [(acc.id, closedStat relative acc)] ++ stats (tupleEntries relative tree) := by
      simp [tupleEntries, stats_cons]
    rw [hs, length_append, ih, map_cons, countP_cons, Nat.add_comm]
    by_cases ha : isActive acc <;> simp [stats, closedStat, taking, ha]

theorem stats_pairEntries_length {pair : EthPair} (h : pair.macStats.state ≠ .active) :
    (stats (pairEntries relative pair)).length ≤ (pairTagged pair).countP taking := by
  have hp : (stats [pairEntry relative pair]).length ≤
      (pair.ethertypeFlows.map (mk Kind.eth)).countP taking := by
    by_cases ha : (ethTotal pair.macStats pair.ethertypeFlows).state = .active
    · -- the pair takes a slot because one of its flows is active
      have hex : ∃ acc ∈ pair.ethertypeFlows, isActive acc := by
        by_contra hno
        push Not at hno
        have hn : pair.ethertypeFlows.filter isActive = [] := filter_eq_nil_iff.mpr hno
        exact h (by simpa [ethTotal, hn] using ha)
      obtain ⟨acc, hac, hact⟩ := hex
      have hpo : 0 < (pair.ethertypeFlows.map (mk Kind.eth)).countP taking := by
        rw [countP_pos_iff]
        exact ⟨(.eth, acc), mem_map_of_mem hac, by simp [taking, hact]⟩
      simpa [stats, pairEntry, ha] using hpo
    · simp [stats, pairEntry, ha]
  have hm : taking (Kind.mac, pair.macStats) = false := rfl
  have hs : stats (pairEntries relative pair) =
      stats [pairEntry relative pair] ++ stats (tupleEntries relative pair.fiveTupleFlows) :=
    stats_append [pairEntry relative pair] _
  rw [hs, length_append, stats_tupleEntries_length, pairTagged, countP_cons_of_neg (by simp [hm]), countP_append]
  omega

theorem stats_entries_length {a : Aggr} (h : ∀ pair ∈ a.ethPairs, pair.macStats.state ≠ .active) :
    (stats (entries relative a)).length ≤ (tagged a).countP taking := by
  rw [entries, tagged, stats_append, length_append, countP_append, stats_tupleEntries_length]
  apply Nat.add_le_add_right
  generalize a.ethPairs = pairs at h ⊢
  induction pairs with
  | nil => exact Nat.le_refl 0
  | cons pair pairs ih =>
    rw [flatMap_cons, flatMap_cons, stats_append, length_append, countP_append]
    exact Nat.add_le_add (stats_pairEntries_length relative (h pair mem_cons_self)) (ih (forall_mem_cons.mp h).2)

theorem entries_ids (a : Aggr) : ((entries relative a).map fst).Sublist ((tagged a).map fun x => x.2.id) := by
  have ht : ∀ tree : List Acc,
      (tupleEntries relative tree).map fst = (tree.map (mk Kind.tuple)).map fun x => x.2.id := by
    intro tree
    simp [tupleEntries]
  rw [entries, tagged, map_append, map_append, ht]
  apply Sublist.append_right
  induction a.ethPairs with
  | nil => exact nil_sublist _
  | cons pair pairs ih =>
    rw [flatMap_cons, flatMap_cons, map_append, map_append]
    apply Sublist.append _ ih
    rw [pairEntries, pairTagged, map_cons, map_cons, map_append, ht]
    exact (sublist_append_right _ _).cons_cons _

end OpenSync.NetMd
