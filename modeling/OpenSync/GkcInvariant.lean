import OpenSync.GkcRun

/-!
# What every run of the gatekeeper cache keeps

One device for each address, one entry for each key of a tree, keys that are those of name and direction, and flows
that the comparison tells apart.
-/

namespace OpenSync.Gkc
open Function PerDevice
open List hiding drop

open Fsm Keyed

structure TreesWf (d : PerDevice) : Prop where
  unique : ∀ c, Unique AttrCache.key (d.attrs c)
  key : ∀ c, ∀ e ∈ d.attrs c, e.key = getAttrKey e.name e.direction
  apart : ∀ w, Unique aliasKey (d.flows w)
  wf : ∀ w, ∀ f ∈ d.flows w, f.Wf

theorem treesWf_init (mac : Mac) : TreesWf (gkcInitPerDev mac) :=
  ⟨fun _ => nodup_nil, fun _ _ he => absurd he not_mem_nil, fun _ => nodup_nil, fun _ _ hf => absurd hf not_mem_nil⟩

variable {d : PerDevice}

theorem TreesWf.sweep (h : TreesWf d) (doomed : Item → Bool) : TreesWf (sweepDevice doomed d) :=
  ⟨fun c => (h.unique c).filter _, fun c e he => h.key c e (mem_of_mem_filter he),
    fun w => (h.apart w).filter _, fun w f hf => h.wf w f (mem_of_mem_filter hf)⟩

/-! ## Edits -/

theorem insertFlow_perm (f : IpFlow) (tree : List IpFlow) : (insertFlow f tree).Perm (f :: tree) :=
  perm_orderedInsert _ f tree

variable {d' : PerDevice}

theorem TreesWf.setAttrs (h : TreesWf d) {c : AttrClass} {tree : List AttrCache}
    (ha : d'.attrs = Function.update d.attrs c tree) (hf : d'.flows = d.flows)
    (hu : Unique AttrCache.key tree) (hk : ∀ e ∈ tree, e.key = getAttrKey e.name e.direction) : TreesWf d' := by
  refine ⟨fun c' => ?_, fun c' => ?_, hf ▸ h.apart, hf ▸ h.wf⟩ <;>
    rw [ha, update_apply] <;> split_ifs
  exacts [hu, h.unique c', hk, h.key c']

theorem TreesWf.setFlows (h : TreesWf d) {w : FlowDir} {tree : List IpFlow}
    (ha : d'.attrs = d.attrs) (hf : d'.flows = Function.update d.flows w tree)
    (hap : Unique aliasKey tree) (hwf : ∀ f ∈ tree, f.Wf) : TreesWf d' := by
  refine ⟨ha ▸ h.unique, ha ▸ h.key, fun w' => ?_, fun w' => ?_⟩ <;>
    rw [hf, update_apply] <;> split_ifs
  exacts [hap, h.apart w', hwf, h.wf w']

theorem findFlow_eq_none {key : IpFlow} (hk : key.Readable) {tree : List IpFlow} (hwf : ∀ f ∈ tree, f.Wf) :
    findFlow key tree = none ↔ ∀ f ∈ tree, aliasKey f ≠ aliasKey key := by
  simp only [findFlow, find?_eq_none, decide_eq_true_eq]
  refine forall₂_congr fun f hf => ?_
  rw [cmp_eq_zero_iff (hwf f hf).readable hk, alias_iff]

theorem countFlowHit_key (updateCount : Bool) (f : IpFlow) : aliasKey (countFlowHit updateCount f) = aliasKey f := by
  cases updateCount <;> rfl

theorem countFlowHit_wf (updateCount : Bool) {f : IpFlow} (h : f.Wf) : (countFlowHit updateCount f).Wf := by
  cases updateCount <;> exact h

theorem TreesWf.touchFlow (h : TreesWf d) {w : FlowDir} (updateCount : Bool) {key f : IpFlow}
    (hke : key.Readable) (ho : findFlow key (d.flows w) = some f) :
    let tree := replaceFlow key (countFlowHit updateCount f) (d.flows w)
    Unique aliasKey tree ∧ ∀ f ∈ tree, f.Wf := by
  have hm : f ∈ d.flows w := mem_of_find?_eq_some ho
  have hz : gkcFlowEntryCmp f key = 0 := by simpa using find?_some ho
  have hf : aliasKey f = aliasKey key := alias_iff.mp ((cmp_eq_zero_iff (h.wf w f hm).readable hke).mp hz)
  constructor
  · have hk : (replaceFlow key (countFlowHit updateCount f) (d.flows w)).map aliasKey = (d.flows w).map aliasKey := by
      rw [replaceFlow, map_map]
      refine map_congr_left fun g hg => ?_
      rw [comp_apply]
      split
      · next hc =>
        rw [countFlowHit_key, hf, alias_iff.mp ((cmp_eq_zero_iff (h.wf w g hg).readable hke).mp hc)]
      · rfl
    rw [Keyed.Unique, hk]
    exact h.apart w
  · intro g hg
    obtain ⟨g, hm', rfl⟩ := mem_map.mp hg
    split
    · exact countFlowHit_wf updateCount (h.wf w f hm)
    · exact h.wf w g hm'

theorem TreesWf.edit {n : Int} (h : TreesWf d) (hed : Edit d d' n) : TreesWf d' := by
  cases hed with
  | counters _ ha hfl =>
    exact ⟨ha ▸ h.unique, ha ▸ h.key, hfl ▸ h.apart, hfl ▸ h.wf⟩
  | insertAttr c now entry _ hnew ha hfl =>
    exact h.setAttrs ha hfl ((h.unique c).insert keyLt hnew)
      (forall_mem_perm_cons (insert_perm keyLt _ _) rfl (h.key c))
  | touchAttr c e e' _ ho hn hd ha hfl =>
    refine h.setAttrs ha hfl ((h.unique c).replace e') fun b hb => ?_
    obtain ⟨b, hm, rfl⟩ := mem_map.mp hb
    split
    · rw [hn, hd, ← h.key c e (mem_of_find ho), key_of_find ho]
    · exact h.key c b hm
  | delAttr c name _ ho ha hfl =>
    exact h.setAttrs ha hfl ((h.unique c).sublist (eraseP_sublist.map _)) fun e he => h.key c e (mem_of_mem_eraseP he)
  | insertFlow w now req src dst _ hv hnew ha hfl =>
    have hp := insertFlow_perm (gkcNewFlowEntry now req src dst) (d.flows w)
    refine h.setFlows ha hfl (((hp.map aliasKey).nodup_iff).mpr (nodup_cons.mpr ⟨?_, h.apart w⟩))
      (forall_mem_perm_cons hp (wf_of_valid hv now) (h.wf w))
    intro hm
    obtain ⟨g, hg, hgk⟩ := mem_map.mp hm
    have hne := (findFlow_eq_none (readable_flowKey hv) (h.wf w)).mp hnew g hg
    exact hne (hgk.trans (alias_iff.mp (alias_flowKey now req src dst)).symm)
  | touchFlow w updateCount key f _ hk ho ha hfl =>
    obtain ⟨hap, hwf⟩ := h.touchFlow updateCount hk ho
    exact h.setFlows ha hfl hap hwf
  | delFlow w key _ ho ha hfl =>
    exact h.setFlows ha hfl ((h.apart w).sublist (eraseP_sublist.map _)) fun f hf => h.wf w f (mem_of_mem_eraseP hf)

/-! ## Devices -/

structure Mgr.Wf (m : Mgr) : Prop where
  unique : Unique PerDevice.deviceMac m.devices
  trees : ∀ d ∈ m.devices, TreesWf d

theorem Mgr.wf_start : Mgr.start.Wf := ⟨nodup_nil, fun _ hd => absurd hd not_mem_nil⟩

variable {m : Mgr}

theorem Mgr.Wf.deviceOr (h : m.Wf) (mac : Mac) : TreesWf (m.deviceOr mac) := by
  unfold Mgr.deviceOr
  cases hd : m.device mac with
  | none => exact treesWf_init mac
  | some d => exact h.trees d (mem_of_find hd)

open Mgr

theorem getDevice_perm (h : m.Wf) (mac : Mac) :
    (m.getDevice mac).2.devices.Perm (m.deviceOr mac :: drop PerDevice.deviceMac mac m.devices) := by
  unfold getDevice Mgr.deviceOr
  cases hd : m.device mac with
  | none =>
    have hdro : drop deviceMac mac m.devices = m.devices :=
      filter_eq_self.mpr fun d hm => decide_eq_true (find_eq_none.mp hd d hm)
    rw [hdro]
    exact insert_perm macLt _ _
  | some d => exact perm_cons_drop h.unique hd

theorem getDevice_wf (h : m.Wf) (mac : Mac) : (m.getDevice mac).2.Wf := by
  have hp := getDevice_perm h mac
  constructor
  · refine ((hp.map deviceMac).nodup_iff).mpr (nodup_cons.mpr ⟨?_, h.unique.drop mac⟩)
    rw [deviceOr_mac]
    intro hm
    obtain ⟨d, hd, hma⟩ := mem_map.mp hm
    have hne : d.deviceMac ≠ mac := by simpa using (mem_filter.mp hd).2
    exact hne hma
  · exact forall_mem_perm_cons hp (h.deviceOr mac) fun d hd => h.trees d (mem_of_mem_filter hd)

theorem getDevice_device (m : Mgr) (mac : Mac) : (m.getDevice mac).2.device mac = some (m.deviceOr mac) := by
  unfold getDevice Mgr.deviceOr
  cases hd : m.device mac with
  | none =>
    have hlt : ∀ a, macLt a a = false := fun a => by simp [macLt]
    rw [device, find_insert hlt]
    exact if_pos rfl
  | some d => exact hd

theorem deviceOr_getDevice (m : Mgr) (mac mac' : Mac) : (m.getDevice mac).2.deviceOr mac' = m.deviceOr mac' := by
  unfold getDevice
  cases hd : m.device mac with
  | some d => rfl
  | none =>
    have hlt : ∀ a, macLt a a = false := fun a => by simp [macLt]
    rw [Mgr.deviceOr, device, find_insert hlt, Mgr.deviceOr]
    split
    · next heq =>
      have hm : mac' = mac := heq
      rw [hm, hd]
      rfl
    · rfl

theorem deviceOr_put (m : Mgr) (d : PerDevice) (mac : Mac) :
    (m.put d).deviceOr mac = if mac = d.deviceMac then d else m.deviceOr mac := by
  have hf := getDevice_device m d.deviceMac
  rw [put, Mgr.deviceOr, device, setDevice, find_replace]
  split
  · next heq =>
    rw [heq]
    rw [device] at hf
    rw [hf]
    rfl
  · rw [← deviceOr_getDevice m d.deviceMac mac]
    rfl

theorem put_perm (h : m.Wf) (d : PerDevice) :
    (m.put d).devices.Perm (d :: drop PerDevice.deviceMac d.deviceMac m.devices) := by
  have hg := getDevice_perm h d.deviceMac
  have hr := replace_perm (getDevice_wf h d.deviceMac).unique (getDevice_device m d.deviceMac)
  refine hr.trans (.cons d ?_)
  have hd := hg.filter fun b => decide (b.deviceMac ≠ d.deviceMac)
  rw [filter_cons_of_neg (by simp [deviceOr_mac])] at hd
  refine hd.trans ?_
  rw [drop, filter_filter]
  simp only [Bool.and_self]
  rfl

theorem put_wf (h : m.Wf) (hd : TreesWf d) : (m.put d).Wf := by
  have hp := put_perm h d
  constructor
  · exact (getDevice_wf h d.deviceMac).unique.replace d
  · exact forall_mem_perm_cons hp hd fun b hb => h.trees b (mem_of_mem_filter hb)

theorem Mgr.Wf.change {m' : Mgr} {n : Int} (h : m.Wf) (hc : Change m m' n) : m'.Wf := by
  cases hc with
  | same => exact h
  | opened mac => exact getDevice_wf h mac
  | edited mac d' _ hed =>
    have hp := put_wf h ((h.deviceOr mac).edit hed)
    exact ⟨hp.unique, hp.trees⟩

theorem Mgr.Wf.ttl (h : m.Wf) (now : Int) : (gkcTtlCleanup now m).Wf := by
  constructor
  · have hm : (m.devices.map (sweepDevice (Item.expired now))).map deviceMac = m.devices.map deviceMac := by
      rw [map_map]
      rfl
    rw [gkcTtlCleanup, Keyed.Unique, hm]
    exact h.unique
  · intro d hd
    obtain ⟨d, hme, rfl⟩ := mem_map.mp hd
    exact (h.trees d hme).sweep _

theorem flushLoop_devices (host : Host) (rules : FlushRules) (ds : List PerDevice) (count : Int) :
    (flushLoop host rules ds count).2.2 =
      (ds.filter fun d => !(selected rules d.deviceMac && wholeDevice rules)).map fun d =>
        if selected rules d.deviceMac then sweepDevice (itemDoomed host rules) d else d := by
  induction ds generalizing count with
  | nil => rfl
  | cons d ds ih =>
    rw [flushLoop]
    by_cases hs : selected rules d.deviceMac = true
    · by_cases hw : wholeDevice rules = true
      · simp [hs, hw, ih]
      · simp [hs, hw, ih, gkcFlushPerDevice_eq]
    · simp [hs, ih]

theorem Mgr.Wf.flush (h : m.Wf) (host : Host) (rules : FlushRules) : (gkcFlushRules host rules m).2.Wf := by
  have hde : (gkcFlushRules host rules m).2.devices = _ := flushLoop_devices host rules m.devices m.totalEntryCount
  constructor
  · rw [hde, Keyed.Unique, map_map]
    have hm : (fun d => deviceMac (if selected rules d.deviceMac then sweepDevice (itemDoomed host rules) d
        else d)) = deviceMac := funext fun d => by split_ifs <;> rfl
    exact (congrArg (fun f => (map f _).Nodup) hm).mpr (h.unique.filter _)
  · rw [hde]
    intro d' hd'
    obtain ⟨d, hd, rfl⟩ := mem_map.mp hd'
    split_ifs
    · exact (h.trees d (mem_of_mem_filter hd)).sweep _
    · exact h.trees d (mem_of_mem_filter hd)

theorem Mgr.Wf.stepped (h : m.Wf) (host : Host) (max : UInt64) (e : Event) : (step host max m e).Wf := by
  rcases step_change host max m e with ⟨n, hc⟩ | ⟨now, rfl⟩ | ⟨rules, rfl⟩ | rfl
  · exact h.change hc
  · exact h.ttl now
  · exact h.flush host rules
  · exact wf_start

theorem run_wf (host : Host) (max : UInt64) (events : List Event) : (run host max events).Wf := by
  induction events using reverseRecOn with
  | nil => exact wf_start
  | append_singleton events e ih =>
    rw [run_concat]
    exact ih.stepped host max e

/-- After any run there is one device for an address, and no two entries of one of its trees compare equal. -/
theorem entries_apart (host : Host) (max : UInt64) (events : List Event) :
    ((run host max events).devices.map deviceMac).Nodup ∧ ∀ d ∈ (run host max events).devices,
      (∀ c, ((d.attrs c).map fun e => getAttrKey e.name e.direction).Nodup) ∧
        ∀ w, (d.flows w).Pairwise fun f g => gkcFlowEntryCmp f g ≠ 0 := by
  have h := run_wf host max events
  refine ⟨h.unique, fun d hd => ⟨fun c => ?_, fun w => ?_⟩⟩
  · rw [← map_congr_left ((h.trees d hd).key c)]
    exact (h.trees d hd).unique c
  · have hwf := (h.trees d hd).wf w
    refine (pairwise_map.mp ((h.trees d hd).apart w)).imp_of_mem fun hf hg hne => ?_
    rwa [ne_eq, cmp_eq_zero_iff (hwf _ hf).readable (hwf _ hg).readable, alias_iff]

end OpenSync.Gkc
