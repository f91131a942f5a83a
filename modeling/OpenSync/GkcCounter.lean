import OpenSync.GkcInvariant

/-!
# The counters of a device

Each add that succeeds counts for its device and type as allowed or as blocked. Both ways of adding have their own code
for it, and that of flows counts blocked flows down.
-/

namespace OpenSync.Gkc
open List Function

open Keyed

inductive Add
  | attr (now : Int) (entry : AttrEntry)
  | flow (now : Int) (req : FlowReq)

namespace Add

def mac : Add → Mac
  | attr _ entry => entry.deviceMac
  | flow _ req => req.deviceMac

def type : Add → ReqType
  | attr _ entry => entry.attributeType
  | flow _ req => flowType req.direction

def action : Add → Nat
  | attr _ entry => entry.action
  | flow _ req => req.action

def result (max : UInt64) (m : Mgr) : Add → Bool × Mgr
  | attr now entry => gkcAddAttributeEntry max now entry m
  | flow now req => gkcAddFlowEntry max now req m

end Add

def gkcGetAllowedCounter (mac : Mac) (t : ReqType) (m : Mgr) : UInt64 :=
  if t = .unknown then 0 else ((m.device mac).map (·.allowed t)).getD 0

def gkcGetBlockedCounter (mac : Mac) (t : ReqType) (m : Mgr) : UInt64 :=
  if t = .unknown then 0 else ((m.device mac).map (·.blocked t)).getD 0

def addStep (max : UInt64) (s : Mgr × List Add) (a : Add) : Mgr × List Add :=
  ((a.result max s.1).2, if (a.result max s.1).1 then s.2 ++ [a] else s.2)

def runAdds (max : UInt64) (adds : List Add) : Mgr × List Add := adds.foldl (addStep max) (Mgr.start, [])

theorem runAdds_concat (max : UInt64) (adds : List Add) (a : Add) :
    runAdds max (adds ++ [a]) = addStep max (runAdds max adds) a := by
  simp [runAdds]

/-! ## One add -/

def counters (d : PerDevice) : (ReqType → UInt64) × (ReqType → UInt64) := (d.allowed, d.blocked)

/-- What an add that succeeds does to the counters of its device. -/
def Add.count (a : Add) (c : (ReqType → UInt64) × (ReqType → UInt64)) : (ReqType → UInt64) × (ReqType → UInt64) :=
  if a.action = fsmAllow then (bump c.1 a.type, c.2)
  else match a with
    | attr _ entry => (c.1, bump c.2 entry.attributeType)
    | flow _ req => (c.1, Function.update c.2 (flowType req.direction) (c.2 (flowType req.direction) - 1))

variable (now : Int)

variable (entry : AttrEntry)

theorem counters_countAdd (d : PerDevice) :
    counters (countAdd entry.action entry.attributeType d) = (Add.attr now entry).count (counters d) := by
  unfold countAdd Add.count Add.action
  split <;> rfl

theorem counters_countFlowAdd (req : FlowReq) (d : PerDevice) :
    counters (countFlowAdd req.action (flowType req.direction) d) = (Add.flow now req).count (counters d) := by
  unfold countFlowAdd Add.count Add.action
  split <;> rfl

variable {m : Mgr} {max : UInt64}

/-- An add that fails leaves the counters as they are; one that succeeds finds room and counts for its device. -/
structure Failed (m m' : Mgr) : Prop where
  total : m'.totalEntryCount = m.totalEntryCount
  counters : ∀ mac, counters (m'.deviceOr mac) = counters (m.deviceOr mac)

structure Succeeded (max : UInt64) (a : Add) (m m' : Mgr) : Prop where
  known : a.type ≠ .unknown
  room : m.totalEntryCount < max.toNat
  total : m'.totalEntryCount = m.totalEntryCount + 1
  counters : ∀ mac, counters (m'.deviceOr mac) =
    if mac = a.mac then a.count (counters (m.deviceOr mac)) else counters (m.deviceOr mac)

theorem Failed.refl (m : Mgr) : Failed m m := ⟨rfl, fun _ => rfl⟩

theorem counters_gkcAddAttrTree (c : AttrClass) (d : PerDevice) :
    counters (gkcAddAttrTree now entry c d).2 = counters d := by
  cases hf : findAttr entry (d.attrs c) <;> cases c <;>
    simp [gkcAddAttrTree, gkcInsertGeneric, gkcInsertHostName, hf, counters, setAttrs]

theorem mac_gkcAddAttrTree (c : AttrClass) (d : PerDevice) :
    (gkcAddAttrTree now entry c d).2.deviceMac = d.deviceMac := by
  cases hf : findAttr entry (d.attrs c) <;> cases c <;>
    simp [gkcAddAttrTree, gkcInsertGeneric, gkcInsertHostName, hf, setAttrs]

theorem deviceOr_added {mac : Mac} {d : PerDevice} (h : d.deviceMac = mac) (mac' : Mac) :
    ((m.getDevice mac).2.setDevice d).deviceOr mac' = if mac' = mac then d else m.deviceOr mac' := by
  subst h
  exact deviceOr_put m d mac'

theorem attr_result (max : UInt64) (now : Int) (entry : AttrEntry) (m : Mgr) :
    (gkcAddAttributeEntry max now entry m).1 = false ∧ Failed m (gkcAddAttributeEntry max now entry m).2 ∨
      (gkcAddAttributeEntry max now entry m).1 = true ∧
        Succeeded max (.attr now entry) m (gkcAddAttributeEntry max now entry m).2 := by
  unfold gkcAddAttributeEntry
  by_cases hf : m.totalEntryCount ≥ max.toNat
  · rw [if_pos hf]
    exact .inl ⟨rfl, .refl m⟩
  rw [if_neg hf]
  cases hcl : entry.attributeType.attrClass with
  | none => exact .inl ⟨rfl, .refl m⟩
  | some c =>
    simp only [getDevice_fst]
    have hc := counters_gkcAddAttrTree now entry c (m.deviceOr entry.deviceMac)
    have hm := (mac_gkcAddAttrTree now entry c (m.deviceOr entry.deviceMac)).trans (deviceOr_mac m entry.deviceMac)
    rcases ht : gkcAddAttrTree now entry c (m.deviceOr entry.deviceMac) with ⟨ok, d⟩
    rw [ht] at hc hm
    cases ok with
    | false =>
      refine .inl ⟨rfl, getDevice_total m _, fun mac => ?_⟩
      rw [deviceOr_added hm]
      split
      · next heq => rw [hc, heq]
      · rfl
    | true =>
      have hk : entry.attributeType ≠ .unknown := fun h => by
        rw [h] at hcl
        exact nomatch hcl
      refine .inr ⟨rfl, hk, by omega, by rw [getDevice_total], fun mac => ?_⟩
      have ha : (countAdd entry.action entry.attributeType d).deviceMac = entry.deviceMac :=
        (countAdd_trees entry.action entry.attributeType d).1.trans hm
      change counters (((m.getDevice entry.deviceMac).2.setDevice
        (countAdd entry.action entry.attributeType d)).deviceOr mac) = if mac = entry.deviceMac then _ else _
      rw [deviceOr_added ha]
      split
      · next heq => rw [counters_countAdd now, hc, heq]
      · rfl

/-- A flow is added where its request is valid, it is not there yet and there is room. -/
def Accepted (max : UInt64) (m : Mgr) (req : FlowReq) : Prop :=
  gkcIsFlowValid req ≠ none ∧ (gkcLookupFlow false req m).1 = none ∧ m.totalEntryCount < max.toNat

theorem flow_result (max : UInt64) (now : Int) (req : FlowReq) (m : Mgr) :
    (gkcAddFlowEntry max now req m).1 = false ∧ ¬ Accepted max m req ∧ Failed m (gkcAddFlowEntry max now req m).2 ∨
      (gkcAddFlowEntry max now req m).1 = true ∧ Accepted max m req ∧
        Succeeded max (.flow now req) m (gkcAddFlowEntry max now req m).2 := by
  unfold gkcAddFlowEntry Accepted
  by_cases ht : (gkcLookupFlow false req m).1.isSome = true
  · rw [if_pos ht]
    refine .inl ⟨rfl, fun h => ?_, .refl m⟩
    rw [h.2.1] at ht
    cases ht
  have hn : (gkcLookupFlow false req m).1 = none := by simpa using ht
  rw [if_neg ht]
  by_cases hf : m.totalEntryCount ≥ max.toNat
  · rw [if_pos hf]
    exact .inl ⟨rfl, fun h => by omega, .refl m⟩
  rw [if_neg hf]
  simp only [getDevice_fst, gkcAddFlowTree]
  cases hv : gkcIsFlowValid req with
  | none =>
    refine .inl ⟨rfl, fun h => h.1 rfl, getDevice_total m _, fun mac => ?_⟩
    change counters ((m.getDevice req.deviceMac).2.deviceOr mac) = _
    rw [deviceOr_getDevice]
  | some v =>
    obtain ⟨w, src, dst⟩ := v
    have hk : flowType req.direction ≠ .unknown := by
      unfold flowType
      split <;> exact fun h => by cases h
    refine .inr ⟨rfl, ⟨fun h => (by cases h), hn, by omega⟩, hk, by omega, ?_, fun mac => ?_⟩
    · exact congrArg (· + 1) (getDevice_total m req.deviceMac)
    · generalize hd : setFlows (m.deviceOr req.deviceMac) w (insertFlow (gkcNewFlowEntry now req src dst)
        ((m.deviceOr req.deviceMac).flows w)) = d
      have hm : d.deviceMac = req.deviceMac := hd ▸ deviceOr_mac m req.deviceMac
      have hc : counters d = counters (m.deviceOr req.deviceMac) := hd ▸ rfl
      have ha : (countFlowAdd req.action (flowType req.direction) d).deviceMac = req.deviceMac :=
        (countFlowAdd_trees req.action (flowType req.direction) d).1.trans hm
      simp only [Option.map_some, hd]
      change counters (((m.getDevice req.deviceMac).2.setDevice
        (countFlowAdd req.action (flowType req.direction) d)).deviceOr mac) = if mac = req.deviceMac then _ else _
      rw [deviceOr_added ha]
      split
      · next heq => rw [counters_countFlowAdd now, hc, heq]
      · rfl

/-! ## The counts of a run -/

/-- How many of the adds are for a device and a type, with an action that is allowed or not. -/
def number (mac : Mac) (t : ReqType) (allow : Bool) (done : List Add) : Nat :=
  done.countP fun a => a.mac = mac ∧ a.type = t ∧ decide (a.action = fsmAllow) = allow

structure Counted (s : Mgr × List Add) : Prop where
  allowed : ∀ mac t, (gkcGetAllowedCounter mac t s.1).toNat = number mac t true s.2
  blocked : ∀ mac t, (gkcGetBlockedCounter mac t s.1).toNat = number mac t false s.2

def BlocksNoFlow (max : UInt64) (adds : List Add) : Prop :=
  ∀ before now req after, adds = before ++ .flow now req :: after → Accepted max (runAdds max before).1 req →
    req.action = fsmAllow

def tally (allow : Bool) (c : (ReqType → UInt64) × (ReqType → UInt64)) (t : ReqType) : UInt64 :=
  if allow then c.1 t else c.2 t

theorem getAllowed_eq {t : ReqType} (h : t ≠ .unknown) (mac : Mac) (m : Mgr) :
    gkcGetAllowedCounter mac t m = tally true (counters (m.deviceOr mac)) t := by
  rw [gkcGetAllowedCounter, if_neg h, Mgr.deviceOr]
  cases m.device mac <;> rfl

theorem getBlocked_eq {t : ReqType} (h : t ≠ .unknown) (mac : Mac) (m : Mgr) :
    gkcGetBlockedCounter mac t m = tally false (counters (m.deviceOr mac)) t := by
  rw [gkcGetBlockedCounter, if_neg h, Mgr.deviceOr]
  cases m.device mac <;> rfl

def Add.CountsUp : Add → Prop
  | attr _ _ => True
  | flow _ req => req.action = fsmAllow

variable {a : Add}

theorem tally_count (h : a.CountsUp) (c : (ReqType → UInt64) × (ReqType → UInt64)) (allow : Bool)
    (t : ReqType) : tally allow (a.count c) t =
      if a.type = t ∧ decide (a.action = fsmAllow) = allow then tally allow c t + 1 else tally allow c t := by
  have hb : ∀ (f : ReqType → UInt64) (t' : ReqType), bump f t' t = if t' = t then f t + 1 else f t := by
    intro f t'
    by_cases ht : t' = t
    · rw [if_pos ht, bump, ht, update_self]
    · rw [if_neg ht, bump, update_of_ne (Ne.symm ht)]
  unfold Add.count tally
  by_cases ha : a.action = fsmAllow
  · cases allow <;> simp [ha, hb]
  · cases a with
    | flow now req => exact absurd h ha
    | attr now entry => cases allow <;> simp [ha, hb, Add.type]

theorem number_concat (mac : Mac) (t : ReqType) (allow : Bool) (done : List Add) (a : Add) :
    number mac t allow (done ++ [a]) = number mac t allow done +
      if a.mac = mac ∧ a.type = t ∧ decide (a.action = fsmAllow) = allow then 1 else 0 := by
  simp [number, countP_append, countP_singleton]

theorem number_le (mac : Mac) (t : ReqType) (allow : Bool) (done : List Add) :
    number mac t allow done ≤ done.length := countP_le_length

/-- The adds that succeeded are all in the cache, which has a size. -/
structure Held (max : UInt64) (s : Mgr × List Add) : Prop where
  total : s.1.totalEntryCount = s.2.length
  le : s.2.length ≤ max.toNat
  known : ∀ a ∈ s.2, a.type ≠ .unknown

theorem result_cases (max : UInt64) (a : Add) (m : Mgr) : (a.result max m).1 = false ∧ Failed m (a.result max m).2 ∨
      (a.result max m).1 = true ∧ Succeeded max a m (a.result max m).2 := by
  cases a with
  | attr now entry => exact attr_result max now entry m
  | flow now req =>
    rcases flow_result max now req m with ⟨hno, -, hf⟩ | ⟨hy, -, hs⟩
    · exact .inl ⟨hno, hf⟩
    · exact .inr ⟨hy, hs⟩

variable {s : Mgr × List Add}

section

variable (h : Held max s)
include h

theorem Held.stepped (a : Add) : Held max (addStep max s a) := by
  unfold addStep
  rcases result_cases max a s.1 with ⟨hno, hf⟩ | ⟨hy, hs⟩
  · simp only [hno]
    exact ⟨hf.total.trans h.total, h.le, h.known⟩
  simp only [hy, if_true]
  have hr := hs.room
  have ht := h.total
  refine ⟨?_, ?_, fun b hb => ?_⟩
  · rw [hs.total, h.total, length_append, length_singleton]
    omega
  · rw [length_append, length_singleton]
    omega
  · rcases mem_append.mp hb with hb | hb
    · exact h.known b hb
    · exact mem_singleton.mp hb ▸ hs.known

omit h in
theorem runAdds_held (max : UInt64) (adds : List Add) : Held max (runAdds max adds) := by
  induction adds using reverseRecOn with
  | nil => exact ⟨rfl, Nat.zero_le _, fun _ ha => absurd ha not_mem_nil⟩
  | append_singleton adds a ih =>
    rw [runAdds_concat]
    exact ih.stepped a

theorem Held.number_unknown (mac : Mac) (allow : Bool) : number mac .unknown allow s.2 = 0 := by
  rw [number, countP_eq_zero]
  intro a ha hc
  rw [decide_eq_true_eq] at hc
  exact h.known a ha hc.2.1

theorem Held.counted_iff : Counted s ↔ ∀ mac t allow, t ≠ .unknown →
    (tally allow (counters (s.1.deviceOr mac)) t).toNat = number mac t allow s.2 := by
  constructor
  · intro hc mac t allow ht
    cases allow with
    | true =>
      rw [← getAllowed_eq ht]
      exact hc.allowed mac t
    | false =>
      rw [← getBlocked_eq ht]
      exact hc.blocked mac t
  · intro hta
    constructor <;> intro mac t <;> by_cases ht : t = .unknown
    · rw [ht, h.number_unknown, gkcGetAllowedCounter, if_pos rfl]
      rfl
    · rw [getAllowed_eq ht]
      exact hta mac t true ht
    · rw [ht, h.number_unknown, gkcGetBlockedCounter, if_pos rfl]
      rfl
    · rw [getBlocked_eq ht]
      exact hta mac t false ht

theorem Held.counted_failed (hc : Counted s)
    (hno : (a.result max s.1).1 = false) (hf : Failed s.1 (a.result max s.1).2) : Counted (addStep max s a) := by
  rw [(h.stepped a).counted_iff]
  rw [h.counted_iff] at hc
  intro mac t allow ht
  simp only [addStep, hno, hf.counters]
  exact hc mac t allow ht

theorem Held.counted_succeeded (hco : Counted s)
    (hup : a.CountsUp) (hy : (a.result max s.1).1 = true) (hs : Succeeded max a s.1 (a.result max s.1).2) :
    Counted (addStep max s a) := by
  rw [(h.stepped a).counted_iff]
  rw [h.counted_iff] at hco
  intro mac t allow ht
  have hb := hco mac t allow ht
  have hbo : number mac t allow s.2 + 1 < 2 ^ 64 := by
    have hle := number_le mac t allow s.2
    have hr := hs.room
    have hto := h.total
    have hma := max.toNat_lt
    omega
  simp only [addStep, hy, if_true, hs.counters, number_concat]
  by_cases hm : mac = a.mac
  · rw [if_pos hm, tally_count hup]
    by_cases hc : a.type = t ∧ decide (a.action = fsmAllow) = allow
    · rw [if_pos hc, if_pos ⟨hm.symm, hc⟩, UInt64.toNat_add, hb]
      exact Nat.mod_eq_of_lt hbo
    · rw [if_neg hc, if_neg fun ha => hc ha.2, hb, Nat.add_zero]
  · rw [if_neg hm, if_neg fun ha => hm ha.1.symm, hb, Nat.add_zero]

theorem Held.not_counted (hco : Counted s) (hup : ¬ a.CountsUp)
    (hy : (a.result max s.1).1 = true) (hs : Succeeded max a s.1 (a.result max s.1).2) :
    ¬ Counted (addStep max s a) := by
  cases a with
  | attr now entry => exact absurd trivial hup
  | flow now req =>
    have hb : ¬ req.action = fsmAllow := hup
    intro ha
    have hbe := h.counted_iff.mp hco req.deviceMac (flowType req.direction) false hs.known
    have hn := ((h.stepped _).counted_iff.mp ha) req.deviceMac (flowType req.direction) false hs.known
    simp only [addStep, hy, if_true, hs.counters, number_concat] at hn
    have hc : (Add.flow now req).count (counters (s.1.deviceOr req.deviceMac)) =
        ((counters (s.1.deviceOr req.deviceMac)).1, update (counters (s.1.deviceOr req.deviceMac)).2
          (flowType req.direction) ((counters (s.1.deviceOr req.deviceMac)).2 (flowType req.direction) - 1)) := by
      unfold Add.count
      rw [if_neg (show ¬ (Add.flow now req).action = fsmAllow from hb)]
    simp only [Add.mac, Add.type, Add.action, hb, hc, tally, if_true, decide_false, and_self,
      Bool.false_eq_true, if_false, update_self, UInt64.toNat_sub] at hn hbe
    have ho : (1 : UInt64).toNat = 1 := rfl
    omega

end

theorem counted_start : Counted (Mgr.start, []) := by
  constructor <;> intro mac t
  · unfold gkcGetAllowedCounter
    split <;> rfl
  · unfold gkcGetBlockedCounter
    split <;> rfl

/-- All counters are right all along a run exactly if no flow that is not allowed is accepted. -/
theorem counters_right_iff (max : UInt64) (adds : List Add) :
    (∀ before after, adds = before ++ after → Counted (runAdds max before)) ↔ BlocksNoFlow max adds := by
  constructor
  · intro h before now req after heq ha
    have hb := h before _ heq
    have haf := h (before ++ [.flow now req]) after (by simp [heq])
    rw [runAdds_concat] at haf
    by_contra hbl
    rcases flow_result max now req (runAdds max before).1 with ⟨-, hno, -⟩ | ⟨hy, -, hs⟩
    · exact hno ha
    · exact (runAdds_held max before).not_counted (a := .flow now req) hb hbl hy hs haf
  · intro h before
    induction before using reverseRecOn with
    | nil => exact fun _ _ => counted_start
    | append_singleton before a ih =>
      intro after heq
      have hsp : adds = before ++ a :: after := by simp [heq]
      have hh := runAdds_held max before
      have hc := ih _ hsp
      rw [runAdds_concat]
      cases a with
      | attr now entry =>
        rcases attr_result max now entry (runAdds max before).1 with ⟨hno, hf⟩ | ⟨hy, hs⟩
        · exact hh.counted_failed hc hno hf
        · exact hh.counted_succeeded hc trivial hy hs
      | flow now req =>
        rcases flow_result max now req (runAdds max before).1 with ⟨hno, -, hf⟩ | ⟨hy, ha, hs⟩
        · exact hh.counted_failed hc hno hf
        · exact hh.counted_succeeded hc (h before now req after hsp ha) hy hs

def blockedFlow : FlowReq :=
  ⟨[2, 0, 0, 0, 0, 1], some (Vector.replicate 16 1), some (Vector.replicate 16 2), 1000, 443, 4, 6, directionInbound, 1,
    none, 0, 60⟩

/-- The counter of a blocked flow is far from one. -/
theorem blocked_flow_counted_down : ¬ Counted (runAdds 100 [.flow 0 blockedFlow]) := by
  intro h
  have ho := h.blocked [2, 0, 0, 0, 0, 1] .inbound
  revert ho
  decide +kernel

end OpenSync.Gkc
