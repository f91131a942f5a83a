import OpenSync.NetMd
import Mathlib.Data.List.Nodup

/-!
# What a closing reports

A closing puts one entry per active flow with an internet header, and one per pair with an active flow without
one, into the window, in the order of the walk, as long as there are slots. The entries are computed here from the
accumulators alone; the walk is shown to fill in just these, and to leave accumulators that start over from the
counters they had.
-/

namespace OpenSync.NetMd
open List Bool SublistForall₂ Prod

/-! ## Entries -/

def closedStat (relative : Bool) (acc : Acc) : Option Counters :=
  if isActive acc then some (netMdCloseCounters relative acc).reportCounters else none

def ethTotal (ethAcc : Acc) (tree : List Acc) : Acc :=
  (tree.filter isActive).foldl (fun eth acc => netMdUpdateEthAcc { eth with state := .active } acc) ethAcc

abbrev Entry := Nat × Option Counters

def pairEntry (relative : Bool) (pair : EthPair) : Entry :=
  let eth := ethTotal pair.macStats pair.ethertypeFlows
  (pair.macStats.id, if eth.state = .active then some (netMdCloseCounters relative eth).reportCounters else none)

def tupleEntries (relative : Bool) (tree : List Acc) : List Entry :=
  tree.map fun acc => (acc.id, closedStat relative acc)

def pairEntries (relative : Bool) (pair : EthPair) : List Entry :=
  pairEntry relative pair :: tupleEntries relative pair.fiveTupleFlows

def entries (relative : Bool) (a : Aggr) : List Entry :=
  a.ethPairs.flatMap (pairEntries relative) ++ tupleEntries relative a.fiveTupleFlows

def stats (l : List Entry) : List Stat := l.filterMap fun e => e.2.map (Stat.mk e.1)

@[simp] theorem stats_nil : stats [] = [] := rfl

theorem stats_cons (e : Entry) (l : List Entry) : stats (e :: l) = (e.2.map (Stat.mk e.1)).toList ++ stats l := by
  obtain ⟨id, v⟩ := e
  cases v <;> simp [stats]

@[simp] theorem stats_append (l m : List Entry) : stats (l ++ m) = stats l ++ stats m := filterMap_append

/-! ## Filling a window -/

/-- The slots were added to the window. -/
structure Filled (r : Filling) (l : List Stat) (r' : Filling) : Prop where
  flowStats : r'.window.flowStats = r.window.flowStats ++ l
  statsCurIdx : r'.statsCurIdx = r.statsCurIdx + l.length
  provisionedStats : r'.window.provisionedStats = r.window.provisionedStats

def Room (r : Filling) (l : List Stat) : Prop := r.statsCurIdx + l.length ≤ r.window.provisionedStats

theorem Filled.refl (r : Filling) : Filled r [] r := ⟨by simp, by simp, rfl⟩

variable {l m : List Stat}

theorem Filled.trans {r r' r'' : Filling} (h : Filled r l r') (h' : Filled r' m r'') : Filled r (l ++ m) r'' where
  flowStats := by rw [h'.flowStats, h.flowStats, append_assoc]
  statsCurIdx := by rw [h'.statsCurIdx, h.statsCurIdx, length_append, Nat.add_assoc]
  provisionedStats := h'.provisionedStats.trans h.provisionedStats

variable {r : Filling}

theorem Room.left (h : Room r (l ++ m)) : Room r l := by
  simp only [Room, length_append] at h ⊢
  omega

theorem Room.right {r r' : Filling} (h : Room r (l ++ m)) (hf : Filled r l r') : Room r' m := by
  simp only [Room, length_append, hf.statsCurIdx, hf.provisionedStats] at h ⊢
  omega

theorem netMdAddSampleToWindow_filled (acc : Acc) (h : Room r [⟨acc.id, acc.reportCounters⟩]) :
    Filled r [⟨acc.id, acc.reportCounters⟩] (netMdAddSampleToWindow none acc r) := by
  have hne : r.statsCurIdx ≠ r.window.provisionedStats := by
    simp only [Room, length_singleton] at h
    omega
  simp only [netMdAddSampleToWindow, Option.all_none, Bool.not_true, false_eq_true, if_false, hne]
  exact ⟨rfl, rfl, rfl⟩

theorem retire_filled (c : Config) (active : Bool) (acc : Acc) (r : Filling) :
    Filled r [] (retire c active acc r).2 := by
  simp only [retire]
  split_ifs <;> exact ⟨(append_nil _).symm, rfl, rfl⟩

variable {c : Config} {acc : Acc}

theorem reportTuple_filled (hf : c.filter = none) (h : Room r (stats [(acc.id, closedStat c.relative acc)])) :
    Filled r (stats [(acc.id, closedStat c.relative acc)]) (reportTuple c acc r).2 := by
  unfold reportTuple
  by_cases ha : isActive acc
  · have hs : stats [(acc.id, closedStat c.relative acc)] =
        [⟨acc.id, (netMdCloseCounters c.relative acc).reportCounters⟩] := by simp [stats, closedStat, ha]
    rw [hs] at h ⊢
    simp only [ha, if_true, hf]
    have had := netMdAddSampleToWindow_filled (netMdCloseCounters c.relative acc) h
    exact had.trans (retire_filled c true _ _)
  · have hs : stats [(acc.id, closedStat c.relative acc)] = [] := by simp [stats, closedStat, ha]
    rw [hs]
    simp only [ha, false_eq_true, if_false]
    apply retire_filled

variable {tree : List Acc}

theorem netMdReport5tuplesAccs_filled (hf : c.filter = none) (h : Room r (stats (tupleEntries c.relative tree))) :
    Filled r (stats (tupleEntries c.relative tree)) (netMdReport5tuplesAccs c tree r).2 := by
  induction tree generalizing r with
  | nil => exact Filled.refl r
  | cons acc tree ih =>
    have hs : stats (tupleEntries c.relative (acc :: tree)) =
        stats [(acc.id, closedStat c.relative acc)] ++ stats (tupleEntries c.relative tree) := by
      simp [tupleEntries, stats_cons]
    rw [hs] at h ⊢
    have ha := reportTuple_filled hf h.left
    exact ha.trans (ih (h.right ha))

theorem reportEthFlow_filled (hal : c.reportAllSamples = false) (ethAcc acc : Acc) (r : Filling) :
    Filled r [] (reportEthFlow c ethAcc acc r).2.2 := by
  unfold reportEthFlow
  by_cases ha : isActive acc
  · simp only [ha, if_true, hal, false_eq_true, if_false]
    apply retire_filled
  · simp only [ha, false_eq_true, if_false]
    apply retire_filled

theorem reportEthFlow_fst (ethAcc acc : Acc) (r : Filling) :
    (reportEthFlow c ethAcc acc r).1 = ethTotal ethAcc [acc] := by
  unfold reportEthFlow ethTotal
  by_cases ha : isActive acc <;> simp [ha]

theorem ethTotal_cons (ethAcc acc : Acc) (tree : List Acc) :
    ethTotal ethAcc (acc :: tree) = ethTotal (ethTotal ethAcc [acc]) tree := by
  unfold ethTotal
  by_cases ha : isActive acc <;> simp [ha]

theorem reportEthFlows_filled (ha : c.reportAllSamples = false) (ethAcc : Acc) (tree : List Acc) (r : Filling) :
    Filled r [] (reportEthFlows c ethAcc tree r).2.2 := by
  induction tree generalizing ethAcc r with
  | nil => exact Filled.refl r
  | cons acc tree ih => exact (reportEthFlow_filled ha ethAcc acc r).trans (ih _ _)

variable (ethAcc : Acc)

theorem reportEthFlows_fst (tree : List Acc) (r : Filling) :
    (reportEthFlows c ethAcc tree r).1 = ethTotal ethAcc tree := by
  induction tree generalizing ethAcc r with
  | nil => rfl
  | cons acc tree ih =>
    rw [ethTotal_cons, ← reportEthFlow_fst (c := c) ethAcc acc r]
    exact ih _ _

@[simp] theorem ethTotal_id (tree : List Acc) : (ethTotal ethAcc tree).id = ethAcc.id := by
  unfold ethTotal
  generalize tree.filter isActive = l
  induction l generalizing ethAcc with
  | nil => rfl
  | cons acc l ih => exact ih _

theorem netMdReportEthAcc_filled (hf : c.filter = none) (hal : c.reportAllSamples = false) {pair : EthPair}
    (h : Room r (stats [pairEntry c.relative pair])) :
    Filled r (stats [pairEntry c.relative pair]) (netMdReportEthAcc c pair r).2 := by
  have hw := reportEthFlows_filled hal pair.macStats pair.ethertypeFlows r
  unfold netMdReportEthAcc
  simp only [reportEthFlows_fst]
  by_cases ha : (ethTotal pair.macStats pair.ethertypeFlows).state = .active
  · have hs : stats [pairEntry c.relative pair] = [⟨pair.macStats.id,
          (netMdCloseCounters c.relative (ethTotal pair.macStats pair.ethertypeFlows)).reportCounters⟩] := by
      simp [stats, pairEntry, ha]
    rw [hs] at h ⊢
    simp only [ha, if_true, hf]
    have hid : (netMdCloseCounters c.relative (ethTotal pair.macStats pair.ethertypeFlows)).id = pair.macStats.id :=
      ethTotal_id _ _
    rw [← hid] at h ⊢
    exact hw.trans (netMdAddSampleToWindow_filled _ (h.right (l := []) hw))
  · have hs : stats [pairEntry c.relative pair] = [] := by simp [stats, pairEntry, ha]
    rw [hs]
    simpa only [ha, if_false] using hw

theorem netMdReportEthAcc_fiveTupleFlows (pair : EthPair) (r : Filling) :
    (netMdReportEthAcc c pair r).1.fiveTupleFlows = pair.fiveTupleFlows := by
  simp only [netMdReportEthAcc]
  split_ifs <;> rfl

theorem reportPair_filled (hf : c.filter = none) (ha : c.reportAllSamples = false) {pair : EthPair}
    (h : Room r (stats (pairEntries c.relative pair))) :
    Filled r (stats (pairEntries c.relative pair)) (reportPair c pair r).2 := by
  have hs : stats (pairEntries c.relative pair) =
      stats [pairEntry c.relative pair] ++ stats (tupleEntries c.relative pair.fiveTupleFlows) :=
    stats_append [pairEntry c.relative pair] _
  rw [hs] at h ⊢
  have het := netMdReportEthAcc_filled hf ha h.left
  unfold reportPair
  simp only [netMdReportEthAcc_fiveTupleFlows]
  exact het.trans (netMdReport5tuplesAccs_filled hf (h.right het))

theorem reportPairs_filled (hf : c.filter = none) (ha : c.reportAllSamples = false) {pairs : List EthPair}
    (h : Room r (stats (pairs.flatMap (pairEntries c.relative)))) :
    Filled r (stats (pairs.flatMap (pairEntries c.relative))) (reportPairs c pairs r).2 := by
  induction pairs generalizing r with
  | nil => exact Filled.refl r
  | cons pair pairs ih =>
    rw [flatMap_cons, stats_append] at h ⊢
    have hp := reportPair_filled hf ha h.left
    exact hp.trans (ih (h.right hp))

theorem netMdReportAccs_filled (hf : c.filter = none) (ha : c.reportAllSamples = false) {a : Aggr}
    (h : Room r (stats (entries c.relative a))) :
    Filled r (stats (entries c.relative a)) (netMdReportAccs c a r).2.2 := by
  rw [entries, stats_append] at h ⊢
  have hp := reportPairs_filled hf ha h.left
  exact hp.trans (netMdReport5tuplesAccs_filled hf (h.right hp))

/-! ## All accumulators -/

inductive Kind
  | mac | eth | tuple
  deriving DecidableEq

abbrev Tagged := Kind × Acc

def pairTagged (pair : EthPair) : List Tagged :=
  (.mac, pair.macStats) :: (pair.ethertypeFlows.map (Prod.mk .eth) ++ pair.fiveTupleFlows.map (Prod.mk .tuple))

def tagged (a : Aggr) : List Tagged := a.ethPairs.flatMap pairTagged ++ a.fiveTupleFlows.map (Prod.mk .tuple)

variable {a : Aggr}

theorem mem_fiveTuples : acc ∈ fiveTuples a ↔ (Kind.tuple, acc) ∈ tagged a := by
  simp [fiveTuples, tagged, pairTagged]

variable {pair : EthPair}

theorem pairTagged_subset (h : pair ∈ a.ethPairs) : pairTagged pair ⊆ tagged a := by
  intro x hx
  exact mem_append_left _ (mem_flatMap.mpr ⟨pair, h, hx⟩)

theorem macStats_mem (h : pair ∈ a.ethPairs) : (Kind.mac, pair.macStats) ∈ tagged a := pairTagged_subset h mem_cons_self

theorem ethertypeFlow_mem (h : pair ∈ a.ethPairs) (ha : acc ∈ pair.ethertypeFlows) : (Kind.eth, acc) ∈ tagged a := by
  apply pairTagged_subset h
  simp [pairTagged, ha]

theorem mem_flows : acc ∈ flows a ↔ ∃ k, k ≠ Kind.mac ∧ (k, acc) ∈ tagged a := by
  constructor
  · intro h
    simp only [flows, pairFlows, mem_append, mem_flatMap] at h
    rcases h with ⟨pair, hp, he | ht⟩ | ht
    · exact ⟨.eth, by decide, ethertypeFlow_mem hp he⟩
    · exact ⟨.tuple, by decide, pairTagged_subset hp (by simp [pairTagged, ht])⟩
    · exact ⟨.tuple, by decide, by simp [tagged, ht]⟩
  · rintro ⟨k, hk, h⟩
    simp only [tagged, pairTagged, mem_append, mem_flatMap, mem_cons, mem_map, mk.injEq] at h
    simp only [flows, pairFlows, mem_append, mem_flatMap]
    grind

/-- How an accumulator after a closing compares with the one before. -/
structure Restarted (x y : Tagged) : Prop where
  kind : x.1 = y.1
  id : x.2.id = y.2.id
  inactive : x.2.state ≠ .active
  counters : y.1 ≠ .mac → x.2.counters = y.2.counters
  firstCounters : y.1 ≠ .mac → x.2.firstCounters = if isActive y.2 then y.2.counters else y.2.firstCounters
  active : y.1 ≠ .mac → isActive x.2 → isActive y.2
  mac : y.1 = .mac → y.2.counters = y.2.firstCounters → x.2.counters = x.2.firstCounters

/-- The accumulators after a closing are some of those before, restarted. -/
abbrev Walked (l m : List Tagged) : Prop := List.SublistForall₂ Restarted l m

theorem Walked.append {l l' m m' : List Tagged} (h : Walked l l') (h' : Walked m m') : Walked (l ++ m) (l' ++ m') := by
  obtain ⟨k, hk, hs⟩ := sublistForall₂_iff.mp h
  obtain ⟨k', hk', hs'⟩ := sublistForall₂_iff.mp h'
  exact sublistForall₂_iff.mpr ⟨k ++ k', rel_append hk hk', hs.append hs'⟩

theorem retire_fst (c : Config) (active : Bool) (acc : Acc) (r : Filling) :
    (retire c active acc r).1 = some acc ∨ (retire c active acc r).1 = none := by
  simp only [retire]
  split_ifs <;> simp

theorem walked_of_retire {k : Kind} {acc acc' : Acc} (h : Restarted (k, acc') (k, acc)) (active : Bool) (r : Filling) :
    Walked ((retire c active acc' r).1.toList.map (mk k)) [(k, acc)] := by
  rcases retire_fst c active acc' r with hr | hr
  · rw [hr]
    exact cons h .nil
  · rw [hr]
    exact nil

theorem isActive_of_state (h : isActive acc = false) : acc.state ≠ .active := by
  intro hs
  simp [isActive, hs] at h

theorem reportTuple_walked (acc : Acc) (r : Filling) :
    Walked ((reportTuple c acc r).1.toList.map (mk Kind.tuple)) [(Kind.tuple, acc)] := by
  unfold reportTuple
  by_cases ha : isActive acc
  · simp only [ha, if_true]
    apply walked_of_retire
    constructor <;> simp [netMdCloseCounters, ha]
  · simp only [ha, false_eq_true, if_false]
    apply walked_of_retire
    constructor <;> simp_all [isActive]

theorem netMdReport5tuplesAccs_walked (tree : List Acc) (r : Filling) :
    Walked ((netMdReport5tuplesAccs c tree r).1.map (mk Kind.tuple)) (tree.map (mk Kind.tuple)) := by
  induction tree generalizing r with
  | nil => exact nil
  | cons acc tree ih =>
    simp only [netMdReport5tuplesAccs, map_append]
    exact (reportTuple_walked acc r).append (ih _)

theorem reportEthFlow_walked (ethAcc acc : Acc) (r : Filling) :
    Walked ((reportEthFlow c ethAcc acc r).2.1.toList.map (mk Kind.eth)) [(Kind.eth, acc)] := by
  unfold reportEthFlow
  by_cases ha : isActive acc
  · simp only [ha, if_true]
    apply walked_of_retire
    constructor <;> simp [netMdCloseCounters, ha]
  · rw [not_eq_true] at ha
    have hs := isActive_of_state ha
    simp only [ha, false_eq_true, if_false]
    apply walked_of_retire
    constructor <;> simp_all

theorem reportEthFlows_walked (tree : List Acc) (r : Filling) :
    Walked ((reportEthFlows c ethAcc tree r).2.1.map (mk Kind.eth)) (tree.map (mk Kind.eth)) := by
  induction tree generalizing ethAcc r with
  | nil => exact nil
  | cons acc tree ih =>
    simp only [reportEthFlows, map_append]
    exact (reportEthFlow_walked ethAcc acc r).append (ih _ _)

theorem ethTotal_state (h : acc ∈ tree) (ha : isActive acc) : (ethTotal ethAcc tree).state = .active := by
  unfold ethTotal
  have hm : acc ∈ tree.filter isActive := mem_filter.mpr ⟨h, ha⟩
  obtain ⟨l, x, hl⟩ := eq_nil_or_concat'  (tree.filter isActive) |>.resolve_left (ne_nil_of_mem hm)
  rw [hl, foldl_append]
  rfl

theorem ethTotal_inactive (h : (ethTotal ethAcc tree).state ≠ .active) : ethTotal ethAcc tree = ethAcc := by
  have hn : tree.filter isActive = [] := by
    rw [filter_eq_nil_iff]
    intro acc hm ha
    exact h (ethTotal_state ethAcc hm ha)
  simp [ethTotal, hn]

theorem netMdReportEthAcc_macStats (pair : EthPair) (r : Filling) :
    Restarted (Kind.mac, (netMdReportEthAcc c pair r).1.macStats) (Kind.mac, pair.macStats) := by
  simp only [netMdReportEthAcc, reportEthFlows_fst]
  by_cases ha : (ethTotal pair.macStats pair.ethertypeFlows).state = .active
  · simp only [ha, if_true]
    constructor <;> simp [netMdCloseCounters]
  · have het := ethTotal_inactive _ ha
    rw [het] at ha ⊢
    constructor <;> simp [ha]

theorem netMdReportEthAcc_ethertypeFlows (pair : EthPair) (r : Filling) :
    (netMdReportEthAcc c pair r).1.ethertypeFlows = (reportEthFlows c pair.macStats pair.ethertypeFlows r).2.1 := by
  simp only [netMdReportEthAcc]
  split_ifs <;> rfl

theorem reportPair_walked (pair : EthPair) (r : Filling) :
    Walked (pairTagged (reportPair c pair r).1) (pairTagged pair) := by
  simp only [pairTagged, reportPair, netMdReportEthAcc_ethertypeFlows, netMdReportEthAcc_fiveTupleFlows]
  apply cons (netMdReportEthAcc_macStats pair r)
  exact Walked.append (reportEthFlows_walked _ _ _) (netMdReport5tuplesAccs_walked _ _)

theorem reportPairs_walked (pairs : List EthPair) (r : Filling) :
    Walked ((reportPairs c pairs r).1.flatMap pairTagged) (pairs.flatMap pairTagged) := by
  induction pairs generalizing r with
  | nil => exact nil
  | cons pair pairs ih =>
    exact (reportPair_walked pair r).append (ih _)

theorem Walked.mem {l m : List Tagged} (h : Walked l m) {x : Tagged} (hx : x ∈ l) : ∃ y ∈ m, Restarted x y := by
  induction h with
  | nil => simp at hx
  | cons hxy _ ih =>
    rcases mem_cons.mp hx with rfl | hx
    · exact ⟨_, mem_cons_self, hxy⟩
    · obtain ⟨y, hy, hr⟩ := ih hx
      exact ⟨y, mem_cons_of_mem _ hy, hr⟩
  | cons_right _ ih =>
    obtain ⟨y, hy, hr⟩ := ih hx
    exact ⟨y, mem_cons_of_mem _ hy, hr⟩

theorem Walked.ids {l m : List Tagged} (h : Walked l m) : (l.map fun x => x.2.id).Sublist (m.map fun x => x.2.id) := by
  induction h with
  | nil => exact nil_sublist _
  | cons hxy _ ih =>
    rw [map_cons, map_cons, hxy.id]
    exact ih.cons_cons _
  | cons_right _ ih => exact ih.cons _

def taking (x : Tagged) : Bool := decide (x.1 ≠ .mac) && isActive x.2

theorem Walked.taking {l m : List Tagged} (h : Walked l m) : l.countP taking ≤ m.countP taking := by
  induction h with
  | nil => simp
  | @cons x y l m hxy _ ih =>
    have hle : NetMd.taking x = true → NetMd.taking y = true := by
      simp only [NetMd.taking, and_eq_true, decide_eq_true_eq, hxy.kind]
      exact fun hx => ⟨hx.1, hxy.active hx.1 hx.2⟩
    simp only [countP_cons]
    split_ifs with hx hy <;> grind
  | cons_right _ ih =>
    rw [countP_cons]
    exact ih.trans (Nat.le_add_right _ _)

end OpenSync.NetMd
