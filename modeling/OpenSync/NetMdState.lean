import OpenSync.NetMdWindow

/-!
# The aggregator between calls

Every accumulator has its own number, the active flows have slots provisioned for them, and an accumulator that was
not sampled since the last closing has the counters it started from. Lookups, samples and marks keep this.
-/

namespace OpenSync.NetMd
open List Function

def setRefcnt (a : Aggr) (id : Nat) (refcnt : Int) : Aggr := mapFlows (onAcc id fun acc => { acc with refcnt := refcnt }) a

structure Inv (a : Aggr) : Prop where
  relative : a.relative = true
  reportFilter : a.reportFilter = none
  maxReports : a.maxReports = 0
  reportAllSamples : a.reportAllSamples = false
  nodup : ((tagged a).map fun x => x.2.id).Nodup
  id_lt : ∀ x ∈ tagged a, x.2.id < a.nextId
  idle : ∀ x ∈ tagged a, x.2.state ≠ .active → x.2.counters = x.2.firstCounters
  mac : ∀ x ∈ tagged a, x.1 = .mac → x.2.state ≠ .active
  statsCurIdx : a.statsCurIdx = 0
  current : ∀ w ∈ a.current, w.flowStats = []
  slots : (tagged a).countP taking ≤ a.activeAccs

theorem inv_allocate (maxWindows : Nat) (accTtl : Int) : Inv (netMdAllocateAggregator maxWindows accTtl true none) := by
  constructor <;> simp [netMdAllocateAggregator, tagged]

/-! ## Lookups -/

/-- The aggregators differ in their trees and the totals of what these hold. -/
def SameRest (a a' : Aggr) : Prop := a' = { a with
  ethPairs := a'.ethPairs
  fiveTupleFlows := a'.fiveTupleFlows
  totalFlows := a'.totalFlows
  totalEthPairs := a'.totalEthPairs
  nextId := a'.nextId }

/-- Accumulators were created; nothing else happened. -/
structure Grown (a a' : Aggr) : Prop where
  rest : SameRest a a'
  tagged : ∃ new : List Tagged, (tagged a').Perm (new ++ tagged a) ∧ (new.map fun x => x.2.id).Nodup ∧
    ∀ x ∈ new, a.nextId ≤ x.2.id ∧ x.2.id < a'.nextId ∧ ∃ key, x.2 = netMdSetAcc x.2.id key
  nextId : a.nextId ≤ a'.nextId

variable {a a' : Aggr}

theorem Grown.of_perm (hr : SameRest a a') (hp : (NetMd.tagged a').Perm (NetMd.tagged a))
    (hn : a'.nextId = a.nextId) : Grown a a' :=
  ⟨hr, ⟨[], hp, nodup_nil, by simp⟩, hn.ge⟩

theorem Grown.of_perm_cons (k : Kind) (key : Key) (hr : SameRest a a')
    (hp : (NetMd.tagged a').Perm ((k, netMdSetAcc a.nextId key) :: NetMd.tagged a)) (hn : a'.nextId = a.nextId + 1) :
    Grown a a' := by
  refine ⟨hr, ⟨[(k, netMdSetAcc a.nextId key)], hp, nodup_singleton _, ?_⟩, by omega⟩
  intro x hx
  rw [mem_singleton] at hx
  subst hx
  exact ⟨Nat.le_refl _, by rw [hn]; exact Nat.lt_succ_self _, key, rfl⟩

theorem Grown.refl (a : Aggr) : Grown a a := .of_perm rfl (.refl _) rfl

theorem nodup_ids {new old : List Tagged} {k : Nat} (hn : (new.map fun x => x.2.id).Nodup)
    (ho : (old.map fun x => x.2.id).Nodup) (hge : ∀ x ∈ new, k ≤ x.2.id) (hlt : ∀ x ∈ old, x.2.id < k) :
    ((new ++ old).map fun x => x.2.id).Nodup := by
  rw [map_append, nodup_append]
  refine ⟨hn, ho, fun i hi j hj => ?_⟩
  obtain ⟨x, hx, rfl⟩ := mem_map.mp hi
  obtain ⟨y, hy, rfl⟩ := mem_map.mp hj
  exact ((hlt y hy).trans_le (hge x hx)).ne'

theorem Grown.trans {a a' a'' : Aggr} (h : Grown a a') (h' : Grown a' a'') : Grown a a'' := by
  obtain ⟨new, hp, hn, hne⟩ := h.tagged
  obtain ⟨new', hp', hn', hne'⟩ := h'.tagged
  have hle := h.nextId
  have hle' := h'.nextId
  refine ⟨?_, ⟨new' ++ new, ?_, ?_, ?_⟩, hle.trans hle'⟩
  · have hr := h.rest
    have hr' := h'.rest
    unfold SameRest at hr hr' ⊢
    rw [hr', hr]
  · rw [append_assoc]
    exact hp'.trans (hp.append_left _)
  · exact nodup_ids hn' hn (fun x hx => (hne' x hx).1) fun x hx => (hne x hx).2.1
  · intro x hx
    rcases mem_append.mp hx with hx | hx
    · obtain ⟨hge, hlt, hk⟩ := hne' x hx
      exact ⟨hle.trans hge, hlt, hk⟩
    · obtain ⟨hge, hlt, hk⟩ := hne x hx
      exact ⟨hge, hlt.trans_le hle', hk⟩

theorem Grown.mem (h : Grown a a') {x : Tagged} (hx : x ∈ NetMd.tagged a') :
    x ∈ NetMd.tagged a ∨ a.nextId ≤ x.2.id ∧ ∃ key, x.2 = netMdSetAcc x.2.id key := by
  obtain ⟨new, hp, -, hn⟩ := h.tagged
  rcases mem_append.mp (hp.mem_iff.mp hx) with hx | hx
  · exact .inr ⟨(hn x hx).1, (hn x hx).2.2⟩
  · exact .inl hx

theorem Inv.grown (hi : Inv a) (h : Grown a a') : Inv a' := by
  obtain ⟨new, hp, hn, hne⟩ := h.tagged
  have hr : _ = _ := h.rest
  have hle := h.nextId
  constructor
  · rw [hr]; exact hi.relative
  · rw [hr]; exact hi.reportFilter
  · rw [hr]; exact hi.maxReports
  · rw [hr]; exact hi.reportAllSamples
  · rw [(hp.map _).nodup_iff]
    exact nodup_ids hn hi.nodup (fun x hx => (hne x hx).1) hi.id_lt
  · intro x hx
    rcases mem_append.mp (hp.mem_iff.mp hx) with hx | hx
    · exact (hne x hx).2.1
    · exact (hi.id_lt x hx).trans_le hle
  · intro x hx hs
    rcases h.mem hx with hx | ⟨-, key, hke⟩
    · exact hi.idle x hx hs
    · rw [hke]; rfl
  · intro x hx hk
    rcases h.mem hx with hx | ⟨-, key, hke⟩
    · exact hi.mac x hx hk
    · rw [hke]; simp [netMdSetAcc]
  · rw [hr]; exact hi.statsCurIdx
  · rw [hr]; exact hi.current
  · have hz : new.countP taking = 0 := by
      rw [countP_eq_zero]
      intro x hx
      obtain ⟨-, -, key, hke⟩ := hne x hx
      rw [taking, hke]
      simp [netMdSetAcc, isActive]
    have hsa : a'.activeAccs = a.activeAccs := by rw [hr]
    rw [hp.countP_eq, countP_append, hz, hsa, Nat.zero_add]
    exact hi.slots

variable {key : Key} {id n n' : Nat} {cmp : Key → Key → Int} {tree tree' : List Acc}

theorem netMdTreeLookupAcc_eq {t : TreeOps Acc.key cmp} (h : netMdTreeLookupAcc t key tree n = some (id, tree', n'))
    (hlt : ∀ acc ∈ tree, acc.id < n) :
    id < n' ∧ ((tree' = tree ∧ n' = n) ∨ (tree'.Perm (netMdSetAcc n key :: tree) ∧ n' = n + 1)) := by
  unfold netMdTreeLookupAcc at h
  cases hf : t.find key tree with
  | some acc =>
    simp only [hf, Option.some.injEq, Prod.mk.injEq] at h
    obtain ⟨rfl, rfl, rfl⟩ := h
    exact ⟨hlt acc (t.find_mem hf), .inl ⟨rfl, rfl⟩⟩
  | none =>
    simp only [hf] at h
    split_ifs at h
    obtain ⟨rfl, rfl, rfl⟩ := h
    exact ⟨Nat.lt_succ_self _, .inr ⟨t.insert_perm _ _, rfl⟩⟩

variable {t : Trees} {pair pair' : EthPair}

theorem netMdLookupAccFromPair_eq (h : netMdLookupAccFromPair t pair key n = some (id, pair', n'))
    (hlt : ∀ x ∈ pairTagged pair, x.2.id < n) :
    id < n' ∧ pair'.macStats = pair.macStats ∧ ((pair' = pair ∧ n' = n) ∨
      ∃ k, (pairTagged pair').Perm ((k, netMdSetAcc n key) :: pairTagged pair) ∧ n' = n + 1) := by
  unfold netMdLookupAccFromPair at h
  split_ifs at h
  all_goals
    obtain ⟨⟨i, tree, m⟩, ht, heq⟩ := Option.map_eq_some_iff.mp h
    obtain ⟨rfl, rfl, rfl⟩ := heq
  · obtain ⟨hid, hc⟩ := netMdTreeLookupAcc_eq ht fun acc ha => hlt (.eth, acc) (by simp [pairTagged, ha])
    refine ⟨hid, rfl, ?_⟩
    rcases hc with ⟨rfl, rfl⟩ | ⟨hp, rfl⟩
    · exact .inl ⟨rfl, rfl⟩
    · refine .inr ⟨.eth, ?_, rfl⟩
      have hm := (hp.map (Prod.mk Kind.eth)).append_right (pair.fiveTupleFlows.map (Prod.mk Kind.tuple))
      exact (hm.cons _).trans (Perm.swap _ _ _)
  · obtain ⟨hid, hc⟩ := netMdTreeLookupAcc_eq ht fun acc ha => hlt (.tuple, acc) (by simp [pairTagged, ha])
    refine ⟨hid, rfl, ?_⟩
    rcases hc with ⟨rfl, rfl⟩ | ⟨hp, rfl⟩
    · exact .inl ⟨rfl, rfl⟩
    · refine .inr ⟨.tuple, ?_, rfl⟩
      have hm := (hp.map (Prod.mk Kind.tuple)).append_left (pair.ethertypeFlows.map (Prod.mk Kind.eth))
      exact ((hm.trans perm_middle).cons _).trans (Perm.swap _ _ _)

theorem pairs_ids (a : Aggr) :
    (a.ethPairs.map fun pair => pair.macStats.id).Sublist ((tagged a).map fun x => x.2.id) := by
  rw [tagged, map_append]
  apply Sublist.trans _ (sublist_append_left _ _)
  induction a.ethPairs with
  | nil => exact nil_sublist _
  | cons pair pairs ih =>
    rw [flatMap_cons, map_append, pairTagged, map_cons, map_cons, cons_append]
    exact (ih.trans (sublist_append_right _ _)).cons_cons _

theorem setPair_split {l m : List EthPair}
    (hn : ((l ++ pair :: m).map fun p => p.macStats.id).Nodup) (hid : pair'.macStats.id = pair.macStats.id) :
    setPair pair' (l ++ pair :: m) = l ++ pair' :: m := by
  have hk : ∀ p : EthPair, p.macStats.id ≠ pair.macStats.id →
      (if p.macStats.id = pair'.macStats.id then pair' else p) = p := by
    intro p hp
    rw [hid, if_neg hp]
  rw [map_append, map_cons, nodup_middle, nodup_cons, mem_append, not_or] at hn
  have hl : setPair pair' l = l :=
    (map_congr_left fun p hp => hk p fun h => hn.1.1 (h ▸ mem_map_of_mem hp)).trans (map_id' l)
  have hm : setPair pair' m = m :=
    (map_congr_left fun p hp => hk p fun h => hn.1.2 (h ▸ mem_map_of_mem hp)).trans (map_id' m)
  unfold setPair at hl hm ⊢
  rw [map_append, map_cons, hl, hm, if_pos hid.symm]

open Grown

theorem netMdLookupEthPair_grown
    (h : netMdLookupEthPair t a key = some (pair, a')) : pair ∈ a'.ethPairs ∧ Grown a a' := by
  unfold netMdLookupEthPair at h
  cases hf : t.ethPairs.find key a.ethPairs with
  | some found =>
    simp only [hf, Option.some.injEq, Prod.mk.injEq] at h
    obtain ⟨rfl, rfl⟩ := h
    exact ⟨t.ethPairs.find_mem hf, refl a⟩
  | none =>
    simp only [hf] at h
    split_ifs at h
    obtain ⟨rfl, rfl⟩ := h
    have hp := t.ethPairs.insert_perm ⟨netMdSetAcc a.nextId { key with ufid := none }, [], []⟩ a.ethPairs
    refine ⟨hp.mem_iff.mpr mem_cons_self, of_perm_cons .mac { key with ufid := none } rfl ?_ rfl⟩
    exact (hp.flatMap_right pairTagged).append_right _

theorem netMdLookupEthAcc_grown (t : Trees) (hi : Inv a) (key : Key) : Grown a (netMdLookupEthAcc t a key).2 ∧
      ∀ id ∈ (netMdLookupEthAcc t a key).1, id < (netMdLookupEthAcc t a key).2.nextId := by
  unfold netMdLookupEthAcc
  cases hp : netMdLookupEthPair t a key with
  | none => exact ⟨refl a, nofun⟩
  | some r =>
    obtain ⟨pair, a'⟩ := r
    obtain ⟨hm, hg⟩ := netMdLookupEthPair_grown hp
    simp only
    cases hl : netMdLookupAccFromPair t pair key a'.nextId with
    | none => exact ⟨hg, nofun⟩
    | some r =>
      obtain ⟨id, pair', n⟩ := r
      obtain ⟨hid, hma, hc⟩ := netMdLookupAccFromPair_eq hl fun x hx =>
        (hi.grown hg).id_lt x (mem_append_left _ (mem_flatMap.mpr ⟨pair, hm, hx⟩))
      refine ⟨?_, fun i hi => Option.mem_some_iff.mp hi ▸ hid⟩
      obtain ⟨l, m, hs⟩ := append_of_mem hm
      have hno := (hi.grown hg).nodup.sublist (pairs_ids a')
      have hse : setPair pair' a'.ethPairs = l ++ pair' :: m := by
        rw [hs] at hno ⊢
        exact setPair_split hno (by rw [hma])
      apply hg.trans
      rcases hc with ⟨rfl, hn⟩ | ⟨k, hpe, hn⟩
      · refine of_perm rfl ?_ hn
        simp only [tagged, hse, ← hs]
        exact Perm.refl _
      · refine of_perm_cons k key rfl ?_ hn
        simp only [tagged, hse]
        simp only [hs, flatMap_append, flatMap_cons, ← cons_append]
        apply Perm.append_right
        exact ((hpe.append_right _).append_left _).trans perm_middle

theorem netMdLookupAcc_grown (t : Trees) (hi : Inv a) (key : Key) :
    Grown a (netMdLookupAcc t a key).2 ∧ ∀ id ∈ (netMdLookupAcc t a key).1, id < (netMdLookupAcc t a key).2.nextId := by
  unfold netMdLookupAcc
  split_ifs
  · exact netMdLookupEthAcc_grown t hi key
  cases hl : netMdTreeLookupAcc t.fiveTupleFlows key a.fiveTupleFlows a.nextId with
  | none => exact ⟨refl a, nofun⟩
  | some r =>
    obtain ⟨id, tree, n⟩ := r
    obtain ⟨hid, hc⟩ := netMdTreeLookupAcc_eq hl fun acc ha =>
      hi.id_lt (.tuple, acc) (mem_append_right _ (mem_map_of_mem ha))
    refine ⟨?_, fun i hi => Option.mem_some_iff.mp hi ▸ hid⟩
    rcases hc with ⟨rfl, rfl⟩ | ⟨hp, rfl⟩
    · exact of_perm rfl (.refl _) rfl
    · refine of_perm_cons .tuple key rfl ?_ rfl
      exact ((hp.map (Prod.mk Kind.tuple)).append_left _).trans perm_middle

/-! ## Changes of one flow -/

/-- A change of the accumulators of flows, where they are listed. -/
def onFlow (f : Acc → Acc) (x : Tagged) : Tagged := if x.1 = .mac then x else (x.1, f x.2)

theorem tagged_mapFlows (f : Acc → Acc) (a : Aggr) : tagged (mapFlows f a) = (tagged a).map (onFlow f) := by
  have hp : ∀ pair, pairTagged (mapPair f pair) = (pairTagged pair).map (onFlow f) := by
    intro pair
    simp [pairTagged, mapPair, onFlow, comp_def]
  simp only [tagged, mapFlows, map_append, flatMap_map, map_flatMap, hp]
  simp [onFlow, comp_def]

theorem onFlow_kind (f : Acc → Acc) (x : Tagged) : (onFlow f x).1 = x.1 := by
  unfold onFlow
  split_ifs <;> rfl

/-- A change of one accumulator: it keeps its number, and is idle afterwards only if it was and still has the
counters it had. -/
structure Change (g : Acc → Acc) : Prop where
  id : ∀ acc, (g acc).id = acc.id
  firstCounters : ∀ acc, (g acc).firstCounters = acc.firstCounters
  idle : ∀ acc, (g acc).state ≠ .active → acc.state ≠ .active ∧ (g acc).counters = acc.counters

variable {g : Acc → Acc}

theorem Change.onFlow_id (h : Change g) (id : Nat) (x : Tagged) : (onFlow (onAcc id g) x).2.id = x.2.id := by
  unfold onFlow onAcc
  split_ifs <;> simp [h.id]

theorem tuple_of_onFlow {f : Acc → Acc} {l : List Tagged} {acc' : Acc} (h : (Kind.tuple, acc') ∈ l.map (onFlow f)) :
    ∃ acc, (Kind.tuple, acc) ∈ l ∧ acc' = f acc := by
  obtain ⟨⟨k, acc⟩, ha, heq⟩ := mem_map.mp h
  obtain rfl : k = .tuple := (onFlow_kind f (k, acc)).symm.trans (congrArg Prod.fst heq)
  exact ⟨acc, ha, (congrArg Prod.snd heq).symm⟩

theorem onFlow_other {id : Nat} {x : Tagged} (h : x.2.id ≠ id) : onFlow (onAcc id g) x = x := by
  simp [onFlow, onAcc, h]

theorem countP_onFlow (g : Acc → Acc) (id : Nat) {l : List Tagged} (hn : (l.map fun x => x.2.id).Nodup) :
    (l.map (onFlow (onAcc id g))).countP taking ≤
      l.countP taking + if ∃ x ∈ l, x.1 ≠ .mac ∧ x.2.id = id ∧ x.2.state ≠ .active then 1 else 0 := by
  induction l with
  | nil => simp
  | cons x l ih =>
    rw [map_cons, nodup_cons] at hn
    by_cases hid : x.2.id = id
    · -- the others have other numbers
      have hs : l.map (onFlow (onAcc id g)) = l := by
        refine (map_congr_left fun y hy => onFlow_other fun hy' => ?_).trans (map_id' l)
        exact hn.1 (by rw [hid, ← hy']; exact mem_map_of_mem hy)
      rw [map_cons, hs, countP_cons, countP_cons]
      by_cases ha : x.1 ≠ .mac ∧ x.2.state ≠ .active
      · have hex : ∃ y ∈ x :: l, y.1 ≠ .mac ∧ y.2.id = id ∧ y.2.state ≠ .active := ⟨x, mem_cons_self, ha.1, hid, ha.2⟩
        split_ifs <;> omega
      · have ht : taking (onFlow (onAcc id g) x) = true → taking x = true := by
          intro h
          have hk : x.1 ≠ .mac := by
            rw [← onFlow_kind (onAcc id g) x]
            exact (by simpa [taking] using h : _ ∧ _).1
          simp only [ne_eq, hk, not_false_eq_true, true_and, not_not] at ha
          simp [taking, hk, isActive, ha]
        have hle : (if taking (onFlow (onAcc id g) x) = true then 1 else 0) ≤ if taking x = true then 1 else 0 := by
          split_ifs with h h' <;> simp_all
        exact (Nat.add_le_add_left hle _).trans (Nat.le_add_right _ _)
    · rw [map_cons, onFlow_other hid, countP_cons, countP_cons]
      have hex : (∃ y ∈ x :: l, y.1 ≠ .mac ∧ y.2.id = id ∧ y.2.state ≠ .active) ↔
          ∃ y ∈ l, y.1 ≠ .mac ∧ y.2.id = id ∧ y.2.state ≠ .active := by
        simp [hid]
      have hih := ih hn.2
      simp only [hex]
      omega

theorem provision_activeAccs (a : Aggr) (id : Nat) : (provision a id).activeAccs =
      a.activeAccs + if ∃ x ∈ tagged a, x.1 ≠ .mac ∧ x.2.id = id ∧ x.2.state ≠ .active then 1 else 0 := by
  have hif : ((flows a).any fun acc => decide (acc.id = id) && decide (acc.state ≠ .active)) = true ↔
      ∃ x ∈ tagged a, x.1 ≠ .mac ∧ x.2.id = id ∧ x.2.state ≠ .active := by
    simp only [any_eq_true, Bool.and_eq_true, decide_eq_true_eq, mem_flows]
    constructor
    · rintro ⟨acc, ⟨k, hk, hm⟩, hid, hs⟩
      exact ⟨(k, acc), hm, hk, hid, hs⟩
    · rintro ⟨⟨k, acc⟩, hm, hk, hid, hs⟩
      exact ⟨acc, ⟨k, hk, hm⟩, hid, hs⟩
  unfold provision
  by_cases h : ∃ x ∈ tagged a, x.1 ≠ .mac ∧ x.2.id = id ∧ x.2.state ≠ .active
  · rw [if_pos (hif.mpr h), if_pos h]
  · rw [if_neg fun ha => h (hif.mp ha), if_neg h, Nat.add_zero]

theorem Inv.mapped (hi : Inv a) (hg : Change g) (id n : Nat)
    (hsl : ((tagged a).map (onFlow (onAcc id g))).countP taking ≤ n) :
    Inv (mapFlows (onAcc id g) { a with activeAccs := n }) := by
  have ht : tagged (mapFlows (onAcc id g) { a with activeAccs := n }) =
      (tagged a).map (onFlow (onAcc id g)) := tagged_mapFlows _ _
  constructor
  · exact hi.relative
  · exact hi.reportFilter
  · exact hi.maxReports
  · exact hi.reportAllSamples
  · rw [ht, map_map]
    have hids : (tagged a).map ((fun x => x.2.id) ∘ onFlow (onAcc id g)) = (tagged a).map fun x => x.2.id :=
      map_congr_left fun x _ => hg.onFlow_id id x
    rw [hids]
    exact hi.nodup
  · rw [ht]
    intro y hy
    obtain ⟨x, hx, rfl⟩ := mem_map.mp hy
    rw [hg.onFlow_id]
    exact hi.id_lt x hx
  · rw [ht]
    intro y hy hs
    obtain ⟨x, hx, rfl⟩ := mem_map.mp hy
    unfold onFlow onAcc at hs ⊢
    split_ifs at hs ⊢ with hk hid
    · exact hi.idle x hx hs
    · obtain ⟨ho, hc⟩ := hg.idle x.2 hs
      simp only [hc, hg.firstCounters]
      exact hi.idle x hx ho
    · exact hi.idle x hx hs
  · rw [ht]
    intro y hy hk
    obtain ⟨x, hx, rfl⟩ := mem_map.mp hy
    rw [onFlow_kind] at hk
    simpa [onFlow, hk] using hi.mac x hx hk
  · exact hi.statsCurIdx
  · exact hi.current
  · rw [ht]
    exact hsl

theorem provision_eq (a : Aggr) (id : Nat) : provision a id = { a with activeAccs := (provision a id).activeAccs } := by
  unfold provision
  split_ifs <;> rfl

theorem Inv.changed (hi : Inv a) (hg : Change g) (id : Nat) : Inv (mapFlows (onAcc id g) (provision a id)) := by
  rw [provision_eq]
  apply hi.mapped hg
  rw [provision_activeAccs]
  exact (countP_onFlow g id hi.nodup).trans (Nat.add_le_add_right hi.slots _)

theorem change_sample (counters : Counters) (now : Int) :
    Change fun acc => { acc with counters := counters, state := .active, lastUpdated := now } where
  id _ := rfl
  firstCounters _ := rfl
  idle _ h := absurd rfl h

theorem change_mark : Change fun acc => { acc with report := true } where
  id _ := rfl
  firstCounters _ := rfl
  idle _ h := ⟨h, rfl⟩

theorem change_refer (refcnt : Int) : Change fun acc => { acc with refcnt := refcnt } where
  id _ := rfl
  firstCounters _ := rfl
  idle _ h := ⟨h, rfl⟩

theorem Inv.referred (hi : Inv a) (id : Nat) (refcnt : Int) : Inv (setRefcnt a id refcnt) := by
  apply hi.mapped (change_refer refcnt) id a.activeAccs
  rw [countP_map]
  have hs : taking ∘ onFlow (onAcc id fun acc => { acc with refcnt := refcnt }) = taking := by
    funext x
    simp only [comp_def, taking, onFlow, onAcc]
    split_ifs <;> rfl
  rw [hs]
  exact hi.slots

end OpenSync.NetMd
