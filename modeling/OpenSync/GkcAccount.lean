import OpenSync.GkcInvariant

/-!
# The number of entries

`total_entry_count` follows the trees through every operation but a flush by rules: what the per-class functions remove
is not counted down. The count is never below the number of entries, so that it does not wrap.
-/

namespace OpenSync.Gkc
open Mgr Function
open List hiding replace

open Fsm Keyed

variable (d : PerDevice)

theorem length_items : (items d).length = (AttrClass.all.map fun c => (d.attrs c).length).sum +
      ([FlowDir.inbound, .outbound].map fun w => (d.flows w).length).sum := by
  simp [items, AttrClass.all]
  omega

theorem length_update_attrs (c : AttrClass) (tree : List AttrCache) (d' : PerDevice)
    (ha : d'.attrs = update d.attrs c tree) (hf : d'.flows = d.flows) :
    ((items d').length : Int) = (items d).length + (tree.length - (d.attrs c).length) := by
  rw [length_items, length_items, ha, hf]
  cases c <;> simp [AttrClass.all, update_apply] <;> omega

theorem length_update_flows (w : FlowDir) (tree : List IpFlow) (d' : PerDevice)
    (hf : d'.flows = update d.flows w tree) (ha : d'.attrs = d.attrs) :
    ((items d').length : Int) = (items d).length + (tree.length - (d.flows w).length) := by
  rw [length_items, length_items, ha, hf]
  cases w <;> simp [update_apply] <;> omega

theorem length_eraseP_any {α : Type*} {p : α → Bool} {l : List α} (h : l.any p = true) :
    ((l.eraseP p).length : Int) = l.length - 1 := by
  obtain ⟨a, ha, hp⟩ := any_eq_true.mp h
  have hpo : 0 < l.length := length_pos_of_mem ha
  rw [length_eraseP_of_mem ha hp]
  omega

theorem length_filter_not {α : Type*} (p : α → Bool) (l : List α) :
    (l.filter fun x => !p x).length + l.countP p = l.length := by
  induction l with
  | nil => rfl
  | cons a l ih =>
    cases h : p a <;> simp [h] <;> omega

theorem Edit.length {d d' : PerDevice} {n : Int} (h : Edit d d' n) : ((items d').length : Int) = (items d).length + n := by
  cases h with
  | counters _ ha hf => rw [length_items, length_items, ha, hf, Int.add_zero]
  | insertAttr c now entry _ _ ha hf =>
    rw [length_update_attrs d c _ d' ha hf, Gkc.insertAttr, (insert_perm keyLt _ _).length_eq, length_cons]
    omega
  | touchAttr c e e' _ _ _ _ ha hf =>
    rw [length_update_attrs d c _ d' ha hf, replace, length_map]
    omega
  | delAttr c name _ ho ha hf =>
    rw [length_update_attrs d c _ d' ha hf, length_eraseP_any ho]
    omega
  | insertFlow w now req src dst _ _ _ ha hf =>
    rw [length_update_flows d w _ d' hf ha, (insertFlow_perm _ _).length_eq, length_cons]
    omega
  | touchFlow w updateCount key f _ _ _ ha hf =>
    rw [length_update_flows d w _ d' hf ha, replaceFlow, length_map]
    omega
  | delFlow w key _ ho ha hf =>
    rw [length_update_flows d w _ d' hf ha, length_eraseP_any ho]
    omega

/-! ## Changes of the manager -/

variable {m : Mgr}

def others (m : Mgr) (mac : Mac) : Nat := ((drop PerDevice.deviceMac mac m.devices).flatMap deviceItems).length

theorem length_stored_of_perm {m' : Mgr} {d : PerDevice} {mac : Mac}
    (h : m'.devices.Perm (d :: drop PerDevice.deviceMac mac m.devices)) :
    m'.stored.length = (items d).length + others m mac := by
  rw [stored, (h.flatMap_right deviceItems).length_eq, flatMap_cons, length_append, deviceItems, length_map, others]

theorem length_stored (h : m.Wf) (mac : Mac) : m.stored.length = (items (m.deviceOr mac)).length + others m mac := by
  have hg := length_stored_of_perm (getDevice_perm h mac)
  rw [← hg]
  unfold getDevice
  cases hd : m.device mac with
  | none =>
    have hp : (insert PerDevice.deviceMac macLt (gkcInitPerDev mac) m.devices).Perm _ := insert_perm _ _ _
    have hin := (hp.flatMap_right deviceItems).length_eq
    rw [flatMap_cons, length_append] at hin
    have hem : (deviceItems (gkcInitPerDev mac)).length = 0 := rfl
    simp only [stored]
    omega
  | some d => rfl

def Mgr.ahead (m : Mgr) : Int := m.totalEntryCount - m.stored.length

theorem ahead_change {m' : Mgr} {n : Int} (h : m.Wf) (hc : Change m m' n) : m'.ahead = m.ahead := by
  unfold ahead
  cases hc with
  | same => rfl
  | opened mac =>
    rw [getDevice_total, length_stored_of_perm (getDevice_perm h mac), length_stored h mac]
  | edited mac d' _ hed =>
    have hm : d'.deviceMac = mac := hed.mac.trans (deviceOr_mac m mac)
    have ha := length_stored_of_perm (put_perm h d')
    have hb := length_stored h mac
    have hit := hed.length
    rw [hm] at ha
    have hs : ({ m.put d' with totalEntryCount := m.totalEntryCount + n } : Mgr).stored = (m.put d').stored := rfl
    rw [hs]
    simp only
    omega

theorem ahead_ttl (now : Int) (m : Mgr) : (gkcTtlCleanup now m).ahead = m.ahead := by
  have hs : ∀ ds : List PerDevice, ((ds.map (sweepDevice (Item.expired now))).flatMap deviceItems).length +
      (ds.map fun d => (items d).countP (Item.expired now)).sum = (ds.flatMap deviceItems).length := by
    intro ds
    induction ds with
    | nil => rfl
    | cons d ds ih =>
      have ho := length_filter_not (Item.expired now) (items d)
      simp only [map_cons, flatMap_cons, length_append, sum_cons, deviceItems, length_map, items_sweepDevice] at ih ⊢
      omega
  unfold ahead stored gkcTtlCleanup
  have h := hs m.devices
  simp only
  omega

theorem ahead_flush (host : Host) (rules : FlushRules) (m : Mgr) : (gkcFlushRules host rules m).2.ahead =
    m.ahead + (if wholeDevice rules then 0 else m.stored.countP (doomed host rules) : Nat) := by
  obtain ⟨-, ht, hs⟩ := gkcFlushRules_eq host rules m
  have hsp := length_filter_not (doomed host rules) m.stored
  unfold ahead
  rw [ht, hs]
  split <;> omega

/-- What a flush by rules takes out of the trees without counting it down. -/
def uncounted (host : Host) (m : Mgr) : Event → Nat
  | .flush rules => if wholeDevice rules then 0 else m.stored.countP (doomed host rules)
  | _ => 0

theorem ahead_step (h : m.Wf) (host : Host) (max : UInt64) {e : Event} (hc : e ≠ .clear) :
    (step host max m e).ahead = m.ahead + uncounted host m e := by
  have ho : ∀ e, (∃ n, Change m (step host max m e) n) → uncounted host m e = 0 →
      (step host max m e).ahead = m.ahead + uncounted host m e := fun e ⟨n, hch⟩ hz => by
    rw [ahead_change h hch, hz, Nat.cast_zero, Int.add_zero]
  cases e with
  | addAttr now entry => exact ho _ (addAttr_change max now entry m) rfl
  | lookupAttr updateCount req => exact ho _ ⟨0, lookupAttr_change updateCount req m⟩ rfl
  | delAttr req => exact ho _ (delAttr_change req m) rfl
  | addFlow now req => exact ho _ (addFlow_change max now req m) rfl
  | lookupFlow updateCount req => exact ho _ ⟨0, lookupFlow_change updateCount req m⟩ rfl
  | delFlow req => exact ho _ (delFlow_change req m) rfl
  | ttl now =>
    have hz : uncounted host m (.ttl now) = 0 := rfl
    rw [step, ahead_ttl, hz, Nat.cast_zero, Int.add_zero]
  | flush rules => exact ahead_flush host rules m
  | clear => exact absurd rfl hc

theorem ahead_clear (m : Mgr) : (gkCacheCleanup m).ahead = 0 := rfl

/-! ## The count of a run -/

/-- The count is the number of entries, and the cache is full where it says so. -/
structure Accounted (max : UInt64) (m : Mgr) : Prop where
  count : m.totalEntryCount = m.stored.length
  full : m.totalEntryCount ≥ max.toNat → max.toNat ≤ m.stored.length

theorem accounted_iff {max : UInt64} : Accounted max m ↔ m.ahead = 0 := by
  unfold ahead
  exact ⟨fun h => by rw [h.count, Int.sub_self], fun h => ⟨by omega, fun hf => by omega⟩⟩

section

variable (host : Host) (max : UInt64) (events : List Event)

def AlwaysAccounted : Prop := ∀ before after, events = before ++ after → Accounted max (run host max before)

/-- A flush by rules drops devices or finds nothing to remove. -/
def FlushesNothing : Prop :=
  ∀ before rules after, events = before ++ .flush rules :: after →
    wholeDevice rules = true ∨ ∀ x ∈ (run host max before).stored, doomed host rules x = false

theorem uncounted_eq_zero {host : Host} {e : Event} : uncounted host m e = 0 ↔ ∀ rules, e = .flush rules →
      wholeDevice rules = true ∨ ∀ x ∈ m.stored, doomed host rules x = false := by
  cases e with
  | flush rules =>
    rw [uncounted]
    by_cases hwh : wholeDevice rules = true
    · rw [if_pos hwh]
      exact ⟨fun _ rules' heq => .inl (Event.flush.inj heq ▸ hwh), fun _ => rfl⟩
    rw [if_neg hwh, countP_eq_zero]
    constructor
    · intro hn rules' heq
      cases heq
      exact .inr fun x hx => Bool.eq_false_of_not_eq_true (hn x hx)
    · intro h x hx
      rcases h rules rfl with hw | hn
      · exact absurd hw hwh
      · rw [hn x hx]
        exact Bool.false_ne_true
  | addAttr | lookupAttr | delAttr | addFlow | lookupFlow | delFlow | ttl | clear => simp [uncounted]

/-- The count is right all along a run exactly if no flush by rules removes an entry of a device that stays. -/
theorem entries_counted_iff : AlwaysAccounted host max events ↔ FlushesNothing host max events := by
  simp only [AlwaysAccounted, accounted_iff]
  constructor
  · intro h before rules after heq
    have hb := h before _ heq
    have ha := h (before ++ [.flush rules]) after (by simp [heq])
    rw [run_concat, ahead_step (run_wf host max before) host max (by simp), hb, Int.zero_add] at ha
    exact uncounted_eq_zero.mp (Int.natCast_eq_zero.mp ha) rules rfl
  · intro h before
    induction before using reverseRecOn with
    | nil => exact fun _ _ => rfl
    | append_singleton before e ih =>
      intro after heq
      have hs : events = before ++ e :: after := by simp [heq]
      rw [run_concat]
      by_cases hc : e = .clear
      · rw [hc, step, ahead_clear]
      · have hz : uncounted host (run host max before) e = 0 :=
          uncounted_eq_zero.mpr fun rules hf => h before rules after (hf ▸ hs)
        rw [ahead_step (run_wf host max before) host max hc, ih _ hs, hz]
        rfl

end

def shortNameRule : FlushRules := ⟨⟨none, some (.isIn, ["plume.co".toList]), none, none, none⟩, none⟩

/-- A flushed name is still counted. -/
theorem flush_not_counted : ¬ AlwaysAccounted plainHost 100 [.addAttr 0 shortName, .flush shortNameRule] := by
  intro h
  have hc := (h _ [] (append_nil _).symm).count
  revert hc
  decide +kernel

end OpenSync.Gkc
