import OpenSync.GkcFlow
import OpenSync.GkcFlush

/-!
# Runs of the gatekeeper cache

Each operation edits one device, sweeps all trees, flushes or clears. What an operation can do to a device is said
once, in `Edit`: an entry comes to a tree, is changed in its place, or goes.
-/

namespace OpenSync.Gkc
open Option Mgr

open Fsm Keyed

inductive Event
  | addAttr (now : Int) (entry : AttrEntry)
  | lookupAttr (updateCount : Bool) (req : AttrEntry)
  | delAttr (req : AttrEntry)
  | addFlow (now : Int) (req : FlowReq)
  | lookupFlow (updateCount : Bool) (req : FlowReq)
  | delFlow (req : FlowReq)
  | ttl (now : Int)
  | flush (rules : FlushRules)
  | clear

section

variable (host : Host) (max : UInt64)

def step (m : Mgr) : Event → Mgr
  | .addAttr now entry => (gkcAddAttributeEntry max now entry m).2
  | .lookupAttr updateCount req => (gkcLookupAttributeEntry updateCount req m).2
  | .delAttr req => (gkcDelAttribute req m).2
  | .addFlow now req => (gkcAddFlowEntry max now req m).2
  | .lookupFlow updateCount req => (gkcLookupFlow updateCount req m).2
  | .delFlow req => (gkcDelFlow req m).2
  | .ttl now => gkcTtlCleanup now m
  | .flush rules => (gkcFlushRules host rules m).2
  | .clear => gkCacheCleanup m

def run (events : List Event) : Mgr := events.foldl (step host max) Mgr.start

@[simp] theorem run_concat (events : List Event) (e : Event) :
    run host max (events ++ [e]) = step host max (run host max events) e := by
  simp [run]

end

/-! ## Devices -/

def Mgr.deviceOr (m : Mgr) (mac : Mac) : PerDevice := (m.device mac).getD (gkcInitPerDev mac)

def Mgr.put (m : Mgr) (d : PerDevice) : Mgr := (m.getDevice d.deviceMac).2.setDevice d

/-- The number of entries goes up and down with the trees. -/
inductive Edit (d : PerDevice) : PerDevice → Int → Prop
  | counters {d'} (hmac : d'.deviceMac = d.deviceMac) (hattrs : d'.attrs = d.attrs) (hflows : d'.flows = d.flows) :
      Edit d d' 0
  | insertAttr {d'} (c : AttrClass) (now : Int) (entry : AttrEntry) (hmac : d'.deviceMac = d.deviceMac)
      (hnew : findAttr entry (d.attrs c) = none)
      (hattrs : d'.attrs = Function.update d.attrs c (insertAttr (gkcNewAttrEntry now entry) (d.attrs c)))
      (hflows : d'.flows = d.flows) : Edit d d' 1
  | touchAttr {d'} (c : AttrClass) (e e' : AttrCache) (hmac : d'.deviceMac = d.deviceMac)
      (hold : find AttrCache.key e'.key (d.attrs c) = some e) (hname : e'.name = e.name)
      (hdirection : e'.direction = e.direction)
      (hattrs : d'.attrs = Function.update d.attrs c (replace AttrCache.key e' (d.attrs c)))
      (hflows : d'.flows = d.flows) : Edit d d' 0
  | delAttr {d'} (c : AttrClass) (name : Name) (hmac : d'.deviceMac = d.deviceMac)
      (hold : (d.attrs c).any (·.name = name) = true)
      (hattrs : d'.attrs = Function.update d.attrs c ((d.attrs c).eraseP (·.name = name)))
      (hflows : d'.flows = d.flows) : Edit d d' (-1)
  | insertFlow {d'} (w : FlowDir) (now : Int) (req : FlowReq) (src dst : Vector UInt8 16)
      (hmac : d'.deviceMac = d.deviceMac) (hvalid : gkcIsFlowValid req = some (w, src, dst))
      (hnew : findFlow (flowKey req src dst) (d.flows w) = none) (hattrs : d'.attrs = d.attrs)
      (hflows : d'.flows = Function.update d.flows w (insertFlow (gkcNewFlowEntry now req src dst) (d.flows w))) :
      Edit d d' 1
  | touchFlow {d'} (w : FlowDir) (updateCount : Bool) (key f : IpFlow) (hmac : d'.deviceMac = d.deviceMac)
      (hkey : key.Readable) (hold : findFlow key (d.flows w) = some f) (hattrs : d'.attrs = d.attrs)
      (hflows : d'.flows = Function.update d.flows w (replaceFlow key (countFlowHit updateCount f) (d.flows w))) :
      Edit d d' 0
  | delFlow {d'} (w : FlowDir) (key : IpFlow) (hmac : d'.deviceMac = d.deviceMac)
      (hold : (d.flows w).any (gkcFlowEntryCmp · key = 0) = true) (hattrs : d'.attrs = d.attrs)
      (hflows : d'.flows = Function.update d.flows w ((d.flows w).eraseP (gkcFlowEntryCmp · key = 0))) :
      Edit d d' (-1)

variable {d d' : PerDevice}

theorem Edit.mac {n : Int} (h : Edit d d' n) : d'.deviceMac = d.deviceMac := by
  cases h <;> assumption

variable {m m' : Mgr} {mac : Mac}

theorem device_mac (h : m.device mac = some d) : d.deviceMac = mac := key_of_find h

theorem deviceOr_mac (m : Mgr) (mac : Mac) : (m.deviceOr mac).deviceMac = mac := by
  unfold deviceOr
  cases h : m.device mac with
  | none => rfl
  | some d => exact device_mac h

theorem getDevice_fst (m : Mgr) (mac : Mac) : (m.getDevice mac).1 = m.deviceOr mac := by
  unfold getDevice deviceOr
  cases m.device mac <;> rfl

theorem getDevice_total (m : Mgr) (mac : Mac) : (m.getDevice mac).2.totalEntryCount = m.totalEntryCount := by
  unfold getDevice
  cases m.device mac <;> rfl

theorem getDevice_of_device (h : m.device mac = some d) : m.getDevice mac = (d, m) := by
  rw [getDevice, h]

variable (d') in
theorem put_of_device (h : m.device d'.deviceMac = some d) : m.put d' = m.setDevice d' := by
  rw [put, getDevice_of_device h]

inductive Change (m : Mgr) : Mgr → Int → Prop
  | same : Change m m 0
  | opened (mac : Mac) : Change m (m.getDevice mac).2 0
  | edited (mac : Mac) (d' : PerDevice) (n : Int) (h : Edit (m.deviceOr mac) d' n) :
      Change m { m.put d' with totalEntryCount := m.totalEntryCount + n } n

variable (d') in
theorem Change.of_device {n : Int} (h : m.device mac = some d) (hed : Edit d d' n) :
    Change m { m.setDevice d' with totalEntryCount := m.totalEntryCount + n } n := by
  have hor : m.deviceOr mac = d := by rw [deviceOr, h, getD_some]
  have hm : d'.deviceMac = mac := hed.mac.trans (device_mac h)
  rw [← put_of_device d' (hm.symm ▸ h)]
  exact .edited mac d' n (hor.symm ▸ hed)

theorem Change.of_getDevice {n : Int} (hed : Edit (m.deviceOr mac) d' n) :
    Change m { (m.getDevice mac).2.setDevice d' with
      totalEntryCount := (m.getDevice mac).2.totalEntryCount + n } n := by
  have hm : d'.deviceMac = mac := hed.mac.trans (deviceOr_mac m mac)
  rw [getDevice_total]
  exact hm ▸ .edited d'.deviceMac d' n (hm.symm ▸ hed)

theorem Change.of_getDevice_zero (hed : Edit (m.deviceOr mac) d' 0) :
    Change m ((m.getDevice mac).2.setDevice d') 0 := by
  have h := Change.of_getDevice hed
  rwa [Int.add_zero] at h

theorem countAdd_trees (action : Nat) (t : ReqType) (d : PerDevice) : (countAdd action t d).deviceMac = d.deviceMac ∧
    (countAdd action t d).attrs = d.attrs ∧ (countAdd action t d).flows = d.flows := by
  unfold countAdd
  split <;> exact ⟨rfl, rfl, rfl⟩

theorem countFlowAdd_trees (action : Nat) (t : ReqType) (d : PerDevice) :
    (countFlowAdd action t d).deviceMac = d.deviceMac ∧ (countFlowAdd action t d).attrs = d.attrs ∧
      (countFlowAdd action t d).flows = d.flows := by
  unfold countFlowAdd
  split <;> exact ⟨rfl, rfl, rfl⟩

theorem gkcAddAttrTree_edit (now : Int) (entry : AttrEntry) (c : AttrClass) (d : PerDevice) :
    (findAttr entry (d.attrs c) ≠ none ∧ (gkcAddAttrTree now entry c d).1 = false ∧
        Edit d (gkcAddAttrTree now entry c d).2 0) ∨
      findAttr entry (d.attrs c) = none ∧ gkcAddAttrTree now entry c d =
        (true, setAttrs d c (insertAttr (gkcNewAttrEntry now entry) (d.attrs c))) := by
  cases hf : findAttr entry (d.attrs c) with
  | none =>
    refine .inr ⟨rfl, ?_⟩
    cases c <;> simp [gkcAddAttrTree, gkcInsertHostName, gkcInsertGeneric, hf]
  | some e =>
    have hk : e.key = getAttrKey entry.attrName entry.direction := key_of_find hf
    have hg : Edit d { d with reqCounter := bump d.reqCounter entry.attributeType } 0 := .counters rfl rfl rfl
    refine .inl ⟨nofun, ?_⟩
    cases c with
    | hostname =>
      simp only [gkcAddAttrTree, gkcInsertHostName, hf, true_and]
      let e' : AttrCache := { e with hits := countHit entry.attributeType e.hits, cacheTs := now }
      have ho : find AttrCache.key e'.key (d.attrs .hostname) = some e := hk.symm ▸ hf
      exact .touchAttr .hostname e e' rfl ho rfl rfl rfl rfl
    | url | ipv4 | ipv6 | app =>
      simp only [gkcAddAttrTree, gkcInsertGeneric, hf, true_and]
      exact hg

theorem addAttr_cases (max : UInt64) (now : Int) (entry : AttrEntry) (m : Mgr) :
    let r := gkcAddAttributeEntry max now entry m
    (r.1 = false ∧ Change m r.2 0) ∨
      r.1 = true ∧ ∃ c d', entry.attributeType.attrClass = some c ∧ d'.deviceMac = entry.deviceMac ∧
        findAttr entry ((m.deviceOr entry.deviceMac).attrs c) = none ∧
        d'.attrs = Function.update (m.deviceOr entry.deviceMac).attrs c
          (insertAttr (gkcNewAttrEntry now entry) ((m.deviceOr entry.deviceMac).attrs c)) ∧
        d'.flows = (m.deviceOr entry.deviceMac).flows ∧
        r.2 = { m.put d' with totalEntryCount := m.totalEntryCount + 1 } := by
  unfold gkcAddAttributeEntry
  by_cases hf : m.totalEntryCount ≥ max.toNat
  · rw [if_pos hf]
    exact .inl ⟨rfl, .same⟩
  rw [if_neg hf]
  cases hc : entry.attributeType.attrClass with
  | none => exact .inl ⟨rfl, .same⟩
  | some c =>
    simp only [getDevice_fst]
    rcases gkcAddAttrTree_edit now entry c (m.deviceOr entry.deviceMac) with ⟨-, hfa, hed⟩ | ⟨hn, heq⟩
    · rw [← Prod.mk.eta (p := gkcAddAttrTree _ _ _ _), hfa]
      exact .inl ⟨rfl, .of_getDevice_zero hed⟩
    rw [heq]
    obtain ⟨hm, ha, hfl⟩ := countAdd_trees entry.action entry.attributeType
      (setAttrs (m.deviceOr entry.deviceMac) c (insertAttr (gkcNewAttrEntry now entry)
        ((m.deviceOr entry.deviceMac).attrs c)))
    have hm' := hm.trans (deviceOr_mac m entry.deviceMac)
    refine .inr ⟨rfl, c, _, rfl, hm', hn, ha, hfl, ?_⟩
    simp [put, hm', getDevice_total]

theorem addAttr_change (max : UInt64) (now : Int) (entry : AttrEntry) (m : Mgr) :
    ∃ n, Change m (gkcAddAttributeEntry max now entry m).2 n := by
  rcases addAttr_cases max now entry m with ⟨-, hc⟩ | ⟨-, c, d', -, hm, hn, ha, hf, heq⟩
  · exact ⟨0, hc⟩
  · rw [heq]
    exact ⟨1, .edited entry.deviceMac d' 1 (.insertAttr c now entry (hm.trans (deviceOr_mac m _).symm) hn ha hf)⟩

theorem lookupAttr_change (updateCount : Bool) (req : AttrEntry) (m : Mgr) :
    Change m (gkcLookupAttributeEntry updateCount req m).2 0 := by
  unfold gkcLookupAttributeEntry
  cases hd : m.device req.deviceMac with
  | none => exact .same
  | some d =>
    cases hc : req.attributeType.attrClass with
    | none => exact .same
    | some c =>
      simp only [gkcLookupAttrTree]
      cases hf : findAttr req (d.attrs c) with
      | none => exact .same
      | some e =>
        have hke : e.key = getAttrKey req.attrName req.direction := key_of_find hf
        have hfo : find AttrCache.key e.key (d.attrs c) = some e := hke ▸ hf
        have hch := fun (e' : AttrCache) (hk : e'.key = e.key) (hn : e'.name = e.name)
            (hdi : e'.direction = e.direction) => Change.of_device
              { setAttrs d c (replace AttrCache.key e' (d.attrs c)) with
                reqCounter := bump d.reqCounter req.attributeType } hd (.touchAttr c e e' rfl (hk ▸ hfo) hn hdi rfl rfl)
        simp only [Int.add_zero] at hch
        cases updateCount with
        | true | false => exact hch _ rfl rfl rfl

theorem delAttr_change (req : AttrEntry) (m : Mgr) : ∃ n, Change m (gkcDelAttribute req m).2 n := by
  unfold gkcDelAttribute
  cases hd : m.device req.deviceMac with
  | none => exact ⟨0, .same⟩
  | some d =>
    cases hc : gkGetAttributeTree req.attributeType with
    | none => exact ⟨0, .same⟩
    | some c =>
      simp only [gkcDelAttr]
      by_cases ha : (d.attrs c).any (·.name = req.attrName) = true
      · simp only [if_pos ha]
        exact ⟨-1, .of_device (setAttrs d c _) hd (.delAttr c req.attrName rfl ha rfl rfl)⟩
      · simp only [if_neg ha]
        exact ⟨0, .same⟩

/-! ## Flows -/

theorem addFlow_change (max : UInt64) (now : Int) (req : FlowReq) (m : Mgr) :
    ∃ n, Change m (gkcAddFlowEntry max now req m).2 n := by
  unfold gkcAddFlowEntry
  by_cases ht : (gkcLookupFlow false req m).1.isSome = true
  · rw [if_pos ht]
    exact ⟨0, .same⟩
  rw [if_neg ht]
  by_cases hfu : m.totalEntryCount ≥ max.toNat
  · rw [if_pos hfu]
    exact ⟨0, .same⟩
  rw [if_neg hfu]
  simp only [getDevice_fst, gkcAddFlowTree]
  cases hv : gkcIsFlowValid req with
  | none => exact ⟨0, .opened req.deviceMac⟩
  | some v =>
    obtain ⟨w, src, dst⟩ := v
    -- a valid request that was not found is not in the tree
    have hn : findFlow (flowKey req src dst) ((m.deviceOr req.deviceMac).flows w) = none := by
      cases hd : m.device req.deviceMac with
      | none => simp [deviceOr, hd, gkcInitPerDev, findFlow]
      | some d =>
        have hor : m.deviceOr req.deviceMac = d := by rw [deviceOr, hd, getD_some]
        rw [hor]
        by_contra hs
        obtain ⟨f, hf⟩ := ne_none_iff_exists'.mp hs
        simp [gkcLookupFlow, hv, hd, hf] at ht
    obtain ⟨hm, ha, hfl⟩ := countFlowAdd_trees req.action (flowType req.direction)
      (setFlows (m.deviceOr req.deviceMac) w (insertFlow (gkcNewFlowEntry now req src dst)
        ((m.deviceOr req.deviceMac).flows w)))
    exact ⟨1, .of_getDevice (.insertFlow w now req src dst hm hv hn ha hfl)⟩

theorem lookupFlow_change (updateCount : Bool) (req : FlowReq) (m : Mgr) :
    Change m (gkcLookupFlow updateCount req m).2 0 := by
  unfold gkcLookupFlow
  cases hv : gkcIsFlowValid req with
  | none => exact .same
  | some v =>
    obtain ⟨w, src, dst⟩ := v
    cases hd : m.device req.deviceMac with
    | none => exact .same
    | some d =>
      simp only
      cases hf : findFlow (flowKey req src dst) (d.flows w) with
      | none => exact .same
      | some f =>
        have h := Change.of_device (setFlows d w _) hd (.touchFlow w updateCount (flowKey req src dst) f rfl
          (readable_flowKey hv) hf rfl rfl)
        rwa [Int.add_zero] at h

theorem delFlow_change (req : FlowReq) (m : Mgr) : ∃ n, Change m (gkcDelFlow req m).2 n := by
  unfold gkcDelFlow
  cases hv : gkcIsFlowValid req with
  | none => exact ⟨0, .same⟩
  | some v =>
    obtain ⟨w, src, dst⟩ := v
    cases hd : m.device req.deviceMac with
    | none => exact ⟨0, .same⟩
    | some d =>
      simp only [gkcDelFlowFromTree]
      by_cases ha : (d.flows w).any (gkcFlowEntryCmp · (flowKey req src dst) = 0) = true
      · simp only [if_pos ha]
        exact ⟨-1, .of_device (setFlows d w _) hd (.delFlow w (flowKey req src dst) rfl ha rfl rfl)⟩
      · simp only [if_neg ha]
        exact ⟨0, .same⟩

theorem step_change (host : Host) (max : UInt64) (m : Mgr) (e : Event) :
    (∃ n, Change m (step host max m e) n) ∨ (∃ now, e = .ttl now) ∨ (∃ rules, e = .flush rules) ∨ e = .clear := by
  cases e with
  | addAttr now entry => exact .inl (addAttr_change max now entry m)
  | lookupAttr updateCount req => exact .inl ⟨0, lookupAttr_change updateCount req m⟩
  | delAttr req => exact .inl (delAttr_change req m)
  | addFlow now req => exact .inl (addFlow_change max now req m)
  | lookupFlow updateCount req => exact .inl ⟨0, lookupFlow_change updateCount req m⟩
  | delFlow req => exact .inl (delFlow_change req m)
  | ttl now => exact .inr (.inl ⟨now, rfl⟩)
  | flush rules => exact .inr (.inr (.inl ⟨rules, rfl⟩))
  | clear => exact .inr (.inr (.inr rfl))

end OpenSync.Gkc
