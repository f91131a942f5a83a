import OpenSync.NetMdState

/-!
# Conservation of reports

A run samples flows, marks them for report and closes windows. What the windows report for a flow with an internet
header adds up to the last sample before the last closing, as long as the samples do not fall. What a window reports
for a pair is the sum of the increments of its flows just if the pair is safe.
-/

namespace OpenSync.NetMd
open List Option

inductive Op
  | sample (t : Trees) (key : Key) (counters : Counters) (now : Int)
  | mark (id : Nat)
  | update (t : Trees) (key : Key)
  | refer (id : Nat) (refcnt : Int)
  | activate
  | close (now : Int)

def step (a : Aggr) : Op → Aggr
  | .sample t key counters now => (netMdAddSample t a key counters now).2
  | .mark id => markAccForReport a id
  | .update t key => netMdUpdateFlowKey t a key
  | .refer id refcnt => setRefcnt a id refcnt
  | .activate => netMdActivateWindow a
  | .close now => (netMdCloseActiveWindow a now).2

def run (a : Aggr) (ops : List Op) : Aggr := ops.foldl step a

/-! ## A closing -/

theorem provisioned_flowStats (a : Aggr) (w : Window) : (provisioned a w).flowStats = w.flowStats := by
  unfold provisioned
  split_ifs <;> rfl

variable {a : Aggr} {w : Window}

theorem Inv.activeWindow (hi : Inv a) (h : netMdActiveWindow a = some w) :
    w.flowStats = [] ∧ a.closed.length ≠ a.maxWindows := by
  unfold netMdActiveWindow at h
  split_ifs at h with hm
  refine ⟨?_, hm⟩
  cases hc : a.current with
  | none =>
    rw [hc, getD_none, some.injEq] at h
    rw [← h]
  | some w' =>
    rw [hc, getD_some, some.injEq] at h
    rw [← h]
    exact hi.current w' (by rw [hc]; rfl)

theorem Inv.room (hi : Inv a) (w : Window) (n m k : Nat) :
    Room ⟨provisioned a w, 0, n, m, k⟩ (stats (entries true a)) := by
  have hl := stats_entries_length true fun pair hp => hi.mac _ (macStats_mem hp) rfl
  have hs := hi.slots
  unfold Room provisioned
  split_ifs with h0 hm
  · have hz : (stats (entries true a)).length = 0 := by omega
    simp [hz]
  · exact absurd hi.maxReports hm
  · simp only
    omega

theorem Restarted.starts {x y : Tagged} (h : Restarted x y) (hk : y.1 ≠ .mac)
    (hid : y.2.state ≠ .active → y.2.counters = y.2.firstCounters) : x.2.firstCounters = y.2.counters := by
  rw [h.firstCounters hk]
  split_ifs with ha
  · rfl
  · rw [Bool.not_eq_true] at ha
    exact (hid (isActive_of_state ha)).symm

theorem Inv.closing (hi : Inv a) (now : Int) (h : a.closed.length ≠ a.maxWindows) :
    (∃ w, (netMdCloseActiveWindow a now).2.closed = a.closed ++ [w] ∧ w.flowStats = stats (entries true a)) ∧
      Walked (tagged (netMdCloseActiveWindow a now).2) (tagged a) ∧ Inv (netMdCloseActiveWindow a now).2 := by
  obtain ⟨w, hw⟩ : ∃ w, netMdActiveWindow a = some w := ⟨_, if_neg h⟩
  have hem := (hi.activeWindow hw).1
  unfold netMdCloseActiveWindow
  simp only [hw, hi.statsCurIdx]
  have hro := hi.room w a.totalReportFlows a.totalFlows a.heldFlows
  generalize hr : (⟨provisioned a w, 0, a.totalReportFlows, a.totalFlows, a.heldFlows⟩ : Filling) = r at hro ⊢
  have hc : (a.config now).relative = true := hi.relative
  have hf := netMdReportAccs_filled (c := a.config now) hi.reportFilter hi.reportAllSamples (hc.symm ▸ hro)
  have hwa : Walked (tagged { a with
      ethPairs := (netMdReportAccs (a.config now) a r).1
      fiveTupleFlows := (netMdReportAccs (a.config now) a r).2.1 }) (tagged a) :=
    (reportPairs_walked _ _).append (netMdReport5tuplesAccs_walked _ _)
  refine ⟨⟨_, rfl, ?_⟩, hwa, ?_⟩
  · simp only
    rw [hf.flowStats, ← hr, provisioned_flowStats, hem, nil_append, hc]
  · constructor
    · exact hi.relative
    · exact hi.reportFilter
    · exact hi.maxReports
    · exact hi.reportAllSamples
    · exact hi.nodup.sublist hwa.ids
    · intro x hx
      obtain ⟨y, hy, hxy⟩ := hwa.mem hx
      rw [hxy.id]
      exact hi.id_lt y hy
    · intro x hx _
      obtain ⟨y, hy, hxy⟩ := hwa.mem hx
      by_cases hk : y.1 = .mac
      · exact hxy.mac hk (hi.idle y hy (hi.mac y hy hk))
      · rw [hxy.counters hk, hxy.starts hk (hi.idle y hy)]
    · intro x hx _
      obtain ⟨y, hy, hxy⟩ := hwa.mem hx
      exact hxy.inactive
    · rfl
    · simp
    · exact hwa.taking.trans hi.slots

theorem closed_full (now : Int) (h : a.closed.length = a.maxWindows) : (netMdCloseActiveWindow a now).2 = a := by
  simp [netMdCloseActiveWindow, netMdActiveWindow, h]

theorem Inv.stepped (hi : Inv a) (op : Op) : Inv (step a op) := by
  cases op with
  | sample t key counters now =>
    have hg := hi.grown (netMdLookupAcc_grown t hi key).1
    simp only [step, netMdAddSample]
    cases hl : netMdLookupAcc t a key with
    | mk found a' =>
      rw [hl] at hg
      cases found with
      | none => exact hg
      | some id => exact hg.changed (change_sample counters now) id
  | mark id =>
    simp only [step, markAccForReport]
    split_ifs
    · exact hi
    · exact hi.changed change_mark id
  | update t key =>
    have hg := hi.grown (netMdLookupAcc_grown t hi key).1
    simp only [step, netMdUpdateFlowKey]
    cases hl : netMdLookupAcc t a key with
    | mk found a' =>
      rw [hl] at hg
      cases found with
      | none => exact hg
      | some id => exact hg.changed change_mark id
  | refer id refcnt => exact hi.referred id refcnt
  | activate =>
    simp only [step, netMdActivateWindow]
    cases hw : netMdActiveWindow a with
    | none => exact hi
    | some w =>
      have hem := (hi.activeWindow hw).1
      exact { hi with current := fun w' hw' => (some.inj hw') ▸ hem }
  | close now =>
    by_cases h : a.closed.length = a.maxWindows
    · rw [step, closed_full now h]
      exact hi
    · exact (hi.closing now h).2.2

theorem Inv.ran (hi : Inv a) (ops : List Op) : Inv (run a ops) := by
  induction ops generalizing a with
  | nil => exact hi
  | cons op ops ih => exact ih (hi.stepped op)

theorem Inv.pair_reported (hi : Inv a) (hw : w.flowStats = stats (entries true a))
    {pair : EthPair} (hp : pair ∈ a.ethPairs) (f : Field) :
    reportedIn w pair.macStats.id f = ownIncrements f pair.ethertypeFlows ↔ PairSafe f pair := by
  have hn := hi.nodup.sublist (entries_ids true a)
  have hm : pairEntry true pair ∈ entries true a := mem_append_left _ (mem_flatMap.mpr ⟨pair, hp, mem_cons_self⟩)
  have hc : reportedIn w pair.macStats.id f = Entry.count (pairEntry true pair) f := by
    rw [reportedIn, hw]
    exact reportedBy_mem hn hm f
  rw [hc]
  apply pairEntry_count_iff
  · intro acc hac ha
    exact hi.idle _ (ethertypeFlow_mem hp hac) (isActive_of_state ha)
  · exact hi.idle _ (macStats_mem hp) (hi.mac _ (macStats_mem hp) rfl)

theorem tupleEntry_mem {acc : Acc} (h : (Kind.tuple, acc) ∈ tagged a) :
    (acc.id, closedStat true acc) ∈ entries true a := by
  rw [← mem_fiveTuples] at h
  simp only [fiveTuples, mem_append, mem_flatMap] at h
  simp only [entries, tupleEntries, mem_append, mem_flatMap]
  rcases h with ⟨pair, hp, ha⟩ | ha
  · exact .inl ⟨pair, hp, mem_cons_of_mem _ (mem_map_of_mem ha)⟩
  · exact .inr (mem_map_of_mem ha)

theorem Inv.tuple_reported (hi : Inv a) (hw : w.flowStats = stats (entries true a))
    {acc : Acc} (h : (Kind.tuple, acc) ∈ tagged a) (f : Field) : reportedIn w acc.id f = ownIncrement f acc := by
  have hn := hi.nodup.sublist (entries_ids true a)
  rw [reportedIn, hw, ← closedStat_count (fun ha => hi.idle _ h (isActive_of_state ha))]
  exact reportedBy_mem hn (tupleEntry_mem h) f

/-! ## The history of a flow -/

/-- The samples of an accumulator, and the last one before the last closing. -/
structure Seen where
  samples : List Counters
  atClose : Counters

def Seen.start : Seen := ⟨[], .zero⟩

def Seen.last (seen : Seen) : Counters := seen.samples.getLastD .zero

/-- The samples do not fall. -/
def Seen.Rising (f : Field) (seen : Seen) : Prop :=
  seen.samples.Pairwise fun c c' => (c.get f).toNat ≤ (c'.get f).toNat

instance (f : Field) (seen : Seen) : Decidable (seen.Rising f) := inferInstanceAs (Decidable (List.Pairwise _ _))

def watch (id : Nat) (a : Aggr) (seen : Seen) : Op → Seen
  | .sample t key counters _ =>
    if (netMdLookupAcc t a key).1 = some id then { seen with samples := seen.samples ++ [counters] } else seen
  | .close _ => if a.closed.length = a.maxWindows then seen else { seen with atClose := seen.last }
  | _ => seen

def history (id : Nat) : Aggr → Seen → List Op → Seen
  | _, seen, [] => seen
  | a, seen, op :: ops => history id (step a op) (watch id a seen op) ops

/-- The accumulator of a flow follows its history, and the windows report what it took in. -/
structure Traced (id : Nat) (f : Field) (a : Aggr) (seen : Seen) : Prop where
  present : ∀ acc, (Kind.tuple, acc) ∈ tagged a → acc.id = id →
    acc.counters = seen.last ∧ acc.firstCounters = seen.atClose ∧
      (seen.Rising f → reported a id f = (seen.atClose.get f).toNat ∧
        (seen.atClose.get f).toNat ≤ (seen.last.get f).toNat)
  absent : a.nextId ≤ id → seen = .start ∧ reported a id f = 0

variable {id : Nat} {f : Field} {a : Aggr} {seen : Seen}

theorem traced_allocate (maxWindows : Nat) (accTtl : Int) (id : Nat) (f : Field) :
    Traced id f (netMdAllocateAggregator maxWindows accTtl true none) .start := by
  constructor
  · simp [netMdAllocateAggregator, tagged]
  · intro _
    exact ⟨rfl, rfl⟩

theorem Traced.grown (ht : Traced id f a seen) {a' : Aggr} (h : Grown a a') : Traced id f a' seen := by
  have hr : reported a' id f = reported a id f := by
    have hre : a' = _ := h.rest
    rw [hre]
    rfl
  constructor
  · intro acc ha hid
    rw [hr]
    rcases h.mem ha with ha | ⟨hn, key, hk⟩
    · exact ht.present acc ha hid
    · simp only [hid] at hn hk
      obtain ⟨rfl, hz⟩ := ht.absent hn
      rw [hk, hz]
      exact ⟨rfl, rfl, fun _ => ⟨by cases f <;> rfl, Nat.le_refl _⟩⟩
  · intro hle
    rw [hr]
    exact ht.absent (h.nextId.trans hle)

theorem Traced.mapped (ht : Traced id f a seen) {g : Acc → Acc} (hg : Change g)
    (hc : ∀ acc, (g acc).counters = acc.counters) (i n : Nat) :
    Traced id f (mapFlows (onAcc i g) { a with activeAccs := n }) seen := by
  have hta : tagged (mapFlows (onAcc i g) { a with activeAccs := n }) = (tagged a).map (onFlow (onAcc i g)) :=
    tagged_mapFlows _ _
  refine ⟨?_, ht.absent⟩
  rw [hta]
  intro acc' ha' hid
  obtain ⟨acc, ha, rfl⟩ := tuple_of_onFlow ha'
  have hs : (onAcc i g acc).id = acc.id ∧ (onAcc i g acc).counters = acc.counters ∧
      (onAcc i g acc).firstCounters = acc.firstCounters := by
    unfold onAcc
    split_ifs <;> simp [hg.id, hc, hg.firstCounters]
  rw [hs.1] at hid
  rw [hs.2.1, hs.2.2]
  exact ht.present acc ha hid

def Seen.push (seen : Seen) (counters : Counters) : Seen := { seen with samples := seen.samples ++ [counters] }

theorem Seen.last_push (seen : Seen) (counters : Counters) : (seen.push counters).last = counters := by
  simp [Seen.last, Seen.push]

theorem Seen.Rising.of_push {counters : Counters} (h : (seen.push counters).Rising f) :
    seen.Rising f ∧ (seen.last.get f).toNat ≤ (counters.get f).toNat := by
  obtain ⟨ho, -, hle⟩ := pairwise_append.mp h
  refine ⟨ho, ?_⟩
  rcases eq_nil_or_concat' seen.samples with hn | ⟨l, c, hl⟩
  · have hz : (Counters.zero.get f).toNat = 0 := by cases f <;> rfl
    simp [Seen.last, hn, hz]
  · have hla : seen.last = c := by simp [Seen.last, hl]
    rw [hla]
    exact hle c (by simp [hl]) counters mem_cons_self

theorem Traced.sampled (ht : Traced id f a seen) (counters : Counters) (now : Int) (n : Nat) (hlt : id < a.nextId) :
    Traced id f (mapFlows (onAcc id fun acc => { acc with counters := counters, state := .active, lastUpdated := now })
      { a with activeAccs := n }) (seen.push counters) := by
  refine ⟨?_, fun hle => absurd hle (Nat.not_le.mpr hlt)⟩
  rw [tagged_mapFlows]
  intro acc' ha' hid
  obtain ⟨acc, ha, rfl⟩ := tuple_of_onFlow ha'
  have hid' : acc.id = id := by
    unfold onAcc at hid
    split_ifs at hid with h
    · exact h
    · exact hid
  obtain ⟨-, hf, hs⟩ := ht.present acc ha hid'
  rw [Seen.last_push, onAcc, if_pos hid']
  refine ⟨rfl, hf, fun hr => ?_⟩
  obtain ⟨ho, hle⟩ := hr.of_push
  exact ⟨(hs ho).1, (hs ho).2.trans hle⟩

theorem Traced.other (ht : Traced id f a seen) {i : Nat} (hne : i ≠ id) (g : Acc → Acc) (hg : Change g) (n : Nat) :
    Traced id f (mapFlows (onAcc i g) { a with activeAccs := n }) seen := by
  refine ⟨?_, ht.absent⟩
  rw [tagged_mapFlows]
  intro acc' ha' hid
  obtain ⟨acc, ha, rfl⟩ := tuple_of_onFlow ha'
  have hs : onAcc i g acc = acc := by
    unfold onAcc at hid ⊢
    split_ifs at hid ⊢ with h
    · rw [hg.id] at hid
      exact absurd (h.symm.trans hid) hne
    · rfl
  rw [hs] at hid ⊢
  exact ht.present acc ha hid

theorem netMdCloseActiveWindow_nextId (a : Aggr) (now : Int) : (netMdCloseActiveWindow a now).2.nextId = a.nextId := by
  unfold netMdCloseActiveWindow
  cases netMdActiveWindow a <;> rfl

theorem Traced.closed (hi : Inv a) (ht : Traced id f a seen) (now : Int) (h : a.closed.length ≠ a.maxWindows) :
    Traced id f (netMdCloseActiveWindow a now).2 { seen with atClose := seen.last } := by
  obtain ⟨⟨w, hw, hs⟩, hwa, -⟩ := hi.closing now h
  have hre : reported (netMdCloseActiveWindow a now).2 id f = reported a id f + reportedIn w id f := by
    simp [reported, hw]
  constructor
  · intro acc' ha' hid
    obtain ⟨⟨k, acc⟩, ha, hr⟩ := hwa.mem ha'
    obtain rfl : Kind.tuple = k := hr.kind
    have hid' : acc.id = id := hr.id.symm.trans hid
    obtain ⟨hl, hf, hsu⟩ := ht.present acc ha hid'
    have hc := hr.counters (by simp)
    have hst := hr.starts (by simp) (hi.idle _ ha)
    refine ⟨hc.trans hl, hst.trans hl, fun hri => ⟨?_, Nat.le_refl _⟩⟩
    obtain ⟨ho, hle⟩ := hsu hri
    have hw' := hi.tuple_reported hs ha f
    rw [hid', ownIncrement, hf, hl, increment, if_pos hle] at hw'
    rw [hre, ho, hw']
    exact Nat.add_sub_cancel' hle
  · intro hle
    rw [netMdCloseActiveWindow_nextId] at hle
    obtain ⟨rfl, hz⟩ := ht.absent hle
    have hn : reportedIn w id f = 0 := by
      rw [reportedIn, hs]
      apply reportedBy_absent
      intro hm
      obtain ⟨x, hx, hid⟩ := mem_map.mp ((entries_ids true a).subset hm)
      have hlt := hi.id_lt x hx
      omega
    exact ⟨rfl, by rw [hre, hz, hn]⟩

theorem Traced.stepped (hi : Inv a) (ht : Traced id f a seen) (op : Op) :
    Traced id f (step a op) (watch id a seen op) := by
  cases op with
  | sample t key counters now =>
    obtain ⟨hg, hlt⟩ := netMdLookupAcc_grown t hi key
    simp only [step, netMdAddSample, watch]
    cases hl : netMdLookupAcc t a key with
    | mk found a' =>
      rw [hl] at hg hlt
      have ht' := ht.grown hg
      cases found with
      | none => exact ht'
      | some i =>
        simp only [netMdSetCounters, some.injEq]
        rw [provision_eq]
        split_ifs with h
        · subst h
          exact ht'.sampled counters now _ (hlt _ rfl)
        · exact ht'.other h _ (change_sample counters now) _
  | mark i =>
    simp only [step, markAccForReport, watch]
    split_ifs
    · exact ht
    · rw [provision_eq]
      exact ht.mapped change_mark (fun _ => rfl) i _
  | update t key =>
    have hg := (netMdLookupAcc_grown t hi key).1
    simp only [step, netMdUpdateFlowKey, watch]
    cases hl : netMdLookupAcc t a key with
    | mk found a' =>
      rw [hl] at hg
      have ht' := ht.grown hg
      cases found with
      | none => exact ht'
      | some i =>
        simp only
        rw [provision_eq]
        exact ht'.mapped change_mark (fun _ => rfl) i _
  | refer i refcnt => exact ht.mapped (change_refer refcnt) (fun _ => rfl) i a.activeAccs
  | activate =>
    simp only [step, netMdActivateWindow, watch]
    cases netMdActiveWindow a with
    | none => exact ht
    | some w => exact ⟨ht.present, ht.absent⟩
  | close now =>
    simp only [step, watch]
    split_ifs with h
    · rw [closed_full now h]
      exact ht
    · exact ht.closed hi now h

theorem Traced.ran (hi : Inv a) (ht : Traced id f a seen) (ops : List Op) :
    Traced id f (run a ops) (history id a seen ops) := by
  induction ops generalizing a seen with
  | nil => exact ht
  | cons op ops ih => exact ih (hi.stepped op) (ht.stepped hi op)

/-- In every run of an aggregator that reports relative counters, the windows report for a flow with an internet
header what its last sample before the last closing says, if its samples do not fall; and a window reports for a pair
the sum of the increments of its flows just if the pair is safe when the window is closed. -/
theorem reports_conserve (maxWindows : Nat) (accTtl : Int) (ops : List Op) (f : Field) :
    let start := netMdAllocateAggregator maxWindows accTtl true none
    let a := run start ops
    (∀ acc ∈ fiveTuples a, (history acc.id start .start ops).Rising f →
      reported a acc.id f = ((history acc.id start .start ops).atClose.get f).toNat) ∧
    (∀ now, a.closed.length ≠ a.maxWindows → ∃ w, (step a (.close now)).closed = a.closed ++ [w] ∧ ∀ pair ∈ a.ethPairs,
          (reportedIn w pair.macStats.id f = ownIncrements f pair.ethertypeFlows ↔ PairSafe f pair)) := by
  intro start a
  have hi : Inv a := (inv_allocate maxWindows accTtl).ran ops
  constructor
  · intro acc ha hr
    have ht := (traced_allocate maxWindows accTtl acc.id f).ran (inv_allocate maxWindows accTtl) ops
    obtain ⟨-, -, hsu⟩ := ht.present acc (mem_fiveTuples.mp ha) rfl
    exact (hsu hr).1
  · intro now hm
    obtain ⟨⟨w, hw, hs⟩, -, -⟩ := hi.closing now hm
    exact ⟨w, hw, fun pair hp => hi.pair_reported hs hp f⟩

/-- After any run a closing reports each active flow once, and the slots suffice. -/
theorem closing_complete (maxWindows : Nat) (accTtl : Int) (ops : List Op) (now : Int) :
    let a := run (netMdAllocateAggregator maxWindows accTtl true none) ops
    ((entries true a).map Prod.fst).Nodup ∧ (stats (entries true a)).length ≤ a.activeAccs ∧
      (a.closed.length = a.maxWindows ∨
        ∃ w, (step a (.close now)).closed = a.closed ++ [w] ∧ w.flowStats = stats (entries true a)) := by
  intro a
  have hi : Inv a := (inv_allocate maxWindows accTtl).ran ops
  have hl := stats_entries_length true fun pair hp => hi.mac _ (macStats_mem hp) rfl
  refine ⟨hi.nodup.sublist (entries_ids true a), hl.trans hi.slots, or_iff_not_imp_left.mpr fun h => ?_⟩
  exact (hi.closing now h).1

def ethKey (ethertype : Nat) : Key := ⟨some 1, some 2, 0, ethertype, none, 0, [], [], 0, 0, 0, false⟩

def tupleKey : Key := ⟨some 1, some 2, 0, 0x800, none, 4, [10, 0, 0, 1], [10, 0, 0, 2], 6, 40000, 443, false⟩

def byteSample (key : Key) (bytes : BitVec 64) : Op := .sample .ordered key ⟨1, bytes, 0⟩ 0

def growingRun : List Op :=
  [byteSample (ethKey 1) 100, byteSample (ethKey 2) 50, byteSample tupleKey 70, .close 0, byteSample (ethKey 1) 130,
    byteSample (ethKey 2) 200, byteSample tupleKey 90]

theorem growing_reports_conserve :
    let start := netMdAllocateAggregator 3 100 true none
    let a := run start (growingRun ++ [.close 0])
    (∀ acc ∈ fiveTuples a, (history acc.id start .start (growingRun ++ [.close 0])).Rising .bytes →
      reported a acc.id .bytes = ((history acc.id start .start (growingRun ++ [.close 0])).atClose.get .bytes).toNat) ∧
    (fiveTuples a).map (fun acc => ((history acc.id start .start (growingRun ++ [.close 0])).atClose.get .bytes).toNat) =
      [90] ∧
    (run start growingRun).ethPairs.map (fun pair => decide (PairSafe .bytes pair)) = [true] :=
  ⟨(reports_conserve 3 100 _ .bytes).1, by decide +kernel, by decide +kernel⟩

/-- One flow of a pair starts over at 30 while the other goes from 50 to 200: they add 180, the window says 80. -/
theorem reset_flow_lost_from_pair :
    let a := run (netMdAllocateAggregator 3 100 true none)
      [byteSample (ethKey 1) 100, byteSample (ethKey 2) 50, .close 0, byteSample (ethKey 1) 30,
        byteSample (ethKey 2) 200]
    a.ethPairs.map (fun pair => ownIncrements .bytes pair.ethertypeFlows) = [180] ∧
      a.ethPairs.map (fun pair => reported (step a (.close 0)) pair.macStats.id .bytes -
        reported a pair.macStats.id .bytes) = [80] := by
  decide +kernel

end OpenSync.NetMd
