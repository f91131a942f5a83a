import OpenSync.GkcInvariant

/-!
# The gatekeeper cache as a map

An attribute is stored for a device, a class, a value and a direction. The lookup finds what was added and neither
deleted nor expired since, as long as each deletion meets an entry of its own direction first: `gkc_del_attr` goes
through the tree by the order of the hashed keys and takes the first entry with the name.
-/

namespace OpenSync.Gkc
open List Option Function AttrEntry

open Fsm Keyed

structure Quad where
  mac : Mac
  cls : AttrClass
  name : Name
  direction : Nat
  deriving DecidableEq

def AttrEntry.quad (req : AttrEntry) : Option Quad :=
  req.attributeType.attrClass.map fun c => ⟨req.deviceMac, c, req.attrName, req.direction⟩

def AttrEntry.delQuad (req : AttrEntry) : Option Quad :=
  (gkGetAttributeTree req.attributeType).map fun c => ⟨req.deviceMac, c, req.attrName, req.direction⟩

def Stored (m : Mgr) (q : Quad) (e : AttrCache) : Prop :=
  e ∈ (m.deviceOr q.mac).attrs q.cls ∧ e.name = q.name ∧ e.direction = q.direction

inductive AttrEvent
  | add (now : Int) (entry : AttrEntry)
  | lookup (updateCount : Bool) (req : AttrEntry)
  | del (req : AttrEntry)
  | ttl (now : Int)

def AttrEvent.event : AttrEvent → Event
  | add now entry => .addAttr now entry
  | lookup updateCount req => .lookupAttr updateCount req
  | del req => .delAttr req
  | ttl now => .ttl now

section

variable (max : UInt64)

def attrStep (m : Mgr) : AttrEvent → Mgr
  | .add now entry => (gkcAddAttributeEntry max now entry m).2
  | .lookup updateCount req => (gkcLookupAttributeEntry updateCount req m).2
  | .del req => (gkcDelAttribute req m).2
  | .ttl now => gkcTtlCleanup now m

/-- What is in the map after an operation: an add that succeeds puts it there, a deletion of it or a clean-up that finds
it expired takes it away. -/
def mapStep (m : Mgr) (present : Quad → Prop) : AttrEvent → Quad → Prop
  | .add now entry => fun q => present q ∨ entry.quad = some q ∧ (gkcAddAttributeEntry max now entry m).1 = true
  | .lookup _ _ => present
  | .del req => fun q => present q ∧ req.delQuad ≠ some q
  | .ttl now => fun q => present q ∧ ¬ ∃ e, Stored m q e ∧ (Item.attr q.cls e).expired now = true

def bothStep (s : Mgr × (Quad → Prop)) (e : AttrEvent) : Mgr × (Quad → Prop) :=
  (attrStep max s.1 e, mapStep max s.1 s.2 e)

def runMap (events : List AttrEvent) : Mgr × (Quad → Prop) :=
  events.foldl (bothStep max) (Mgr.start, fun _ => False)

theorem runMap_concat (events : List AttrEvent) (e : AttrEvent) :
    runMap max (events ++ [e]) = bothStep max (runMap max events) e := by
  simp [runMap]

theorem attrStep_eq (host : Host) (m : Mgr) (e : AttrEvent) : attrStep max m e = step host max m e.event := by
  cases e <;> rfl

end

/-! ## One operation -/

variable {m : Mgr} {q : Quad} {max : UInt64}

def Present (m : Mgr) (q : Quad) : Prop := ∃ e, Stored m q e

theorem Stored.unique {e e' : AttrCache} (h : m.Wf) (he : Stored m q e) (he' : Stored m q e') : e = e' := by
  have ht := h.deviceOr q.mac
  refine inj_on_of_nodup_map (ht.unique q.cls) he.1 he'.1 ?_
  rw [ht.key q.cls e he.1, ht.key q.cls e' he'.1, he.2.1, he.2.2, he'.2.1, he'.2.2]

theorem Edit.attrs_iff {d d' : PerDevice} {n : Int} (h : Edit d d' n) (ht : TreesWf d) (hn : n = 0) (c : AttrClass) (name : Name)
    (direction : Nat) : (∃ e ∈ d'.attrs c, e.name = name ∧ e.direction = direction) ↔
      ∃ e ∈ d.attrs c, e.name = name ∧ e.direction = direction := by
  cases h with
  | counters _ ha _ | touchFlow _ _ _ _ _ _ _ ha _ => rw [ha]
  | insertAttr | insertFlow | delAttr | delFlow => exact absurd hn (by decide)
  | touchAttr c' e e' _ ho hna hd ha _ =>
    rw [ha]
    by_cases hc : c = c'
    · subst hc
      rw [update_self]
      have hm : e ∈ d.attrs c := mem_of_find ho
      constructor
      · rintro ⟨b, hb, hbn, hbd⟩
        obtain ⟨b, hm', rfl⟩ := mem_map.mp hb
        split at hbn
        · next hk =>
          rw [if_pos hk] at hbd
          exact ⟨e, hm, hna ▸ hbn, hd ▸ hbd⟩
        · next hk =>
          rw [if_neg hk] at hbd
          exact ⟨b, hm', hbn, hbd⟩
      · rintro ⟨b, hb, hbn, hbd⟩
        by_cases hk : b.key = e'.key
        · have hbe : b = e := inj_on_of_nodup_map (ht.unique c) hb hm (hk.trans (key_of_find ho).symm)
          refine ⟨e', mem_map.mpr ⟨b, hb, if_pos hk⟩, ?_, ?_⟩
          · rw [hna, ← hbe, hbn]
          · rw [hd, ← hbe, hbd]
        · exact ⟨b, mem_map.mpr ⟨b, hb, if_neg hk⟩, hbn, hbd⟩
    · rw [update_of_ne hc]

theorem present_iff : Present m q ↔
    ∃ e ∈ (m.deviceOr q.mac).attrs q.cls, e.name = q.name ∧ e.direction = q.direction := Iff.rfl

theorem present_change {m' : Mgr} {n : Int} (h : m.Wf) (hc : Change m m' n) (hn : n = 0) :
    Present m' q ↔ Present m q := by
  cases hc with
  | same => rfl
  | opened mac => rw [present_iff, deviceOr_getDevice, present_iff]
  | edited mac d' _ hed =>
    have hm : d'.deviceMac = mac := hed.mac.trans (deviceOr_mac m mac)
    have hd : ({ m.put d' with totalEntryCount := m.totalEntryCount + n } : Mgr).deviceOr q.mac =
        if q.mac = mac then d' else m.deviceOr q.mac := hm ▸ deviceOr_put m d' q.mac
    rw [present_iff, present_iff, hd]
    split
    · next heq =>
      rw [heq]
      exact hed.attrs_iff (h.deviceOr mac) hn q.cls q.name q.direction
    · rfl

theorem present_add (h : m.Wf) (now : Int) (entry : AttrEntry) : Present (gkcAddAttributeEntry max now entry m).2 q ↔
      Present m q ∨ entry.quad = some q ∧ (gkcAddAttributeEntry max now entry m).1 = true := by
  rcases addAttr_cases max now entry m with ⟨hno, hch⟩ | ⟨hy, c, d', hcl, hm, hn, ha, -, heq⟩
  · rw [present_change h hch rfl, hno]
    simp
  have hqu : entry.quad = some ⟨entry.deviceMac, c, entry.attrName, entry.direction⟩ := by
    rw [quad, hcl, map_some]
  have hd : (gkcAddAttributeEntry max now entry m).2.deviceOr q.mac =
      if q.mac = entry.deviceMac then d' else m.deviceOr q.mac := by
    rw [heq, ← hm]
    exact deviceOr_put m d' q.mac
  rw [hy, hqu, present_iff, present_iff, hd]
  obtain ⟨qmac, qcls, qname, qdirection⟩ := q
  simp only [some.injEq, Quad.mk.injEq, and_true]
  by_cases hq : qmac = entry.deviceMac
  · rw [if_pos hq, ha, ← hq]
    by_cases hc : qcls = c
    · have hp : (insert AttrCache.key keyLt (gkcNewAttrEntry now entry) ((m.deviceOr qmac).attrs c)).Perm _ :=
        insert_perm _ _ _
      have hme := fun e => hp.mem_iff (a := e)
      rw [hc, update_self, insertAttr]
      simp only [hme, mem_cons, true_and, exists_eq_or_imp]
      exact or_comm
    · have hne : ¬ c = qcls := fun heq => hc heq.symm
      rw [update_of_ne hc]
      simp [hne]
  · have hne : ¬ entry.deviceMac = qmac := fun heq => hq heq.symm
    rw [if_neg hq]
    simp [hne]

theorem present_ttl (h : m.Wf) (now : Int) : Present (gkcTtlCleanup now m) q ↔
    Present m q ∧ ¬ ∃ e, Stored m q e ∧ (Item.attr q.cls e).expired now = true := by
  have hd : (gkcTtlCleanup now m).deviceOr q.mac = sweepDevice (Item.expired now) (m.deviceOr q.mac) := by
    have hfi : find PerDevice.deviceMac q.mac (m.devices.map (sweepDevice (Item.expired now))) = _ :=
      find_map (f := sweepDevice (Item.expired now)) (fun _ => rfl) _ _
    simp only [Mgr.deviceOr, Mgr.device, gkcTtlCleanup, hfi]
    cases find PerDevice.deviceMac q.mac m.devices <;> rfl
  constructor
  · rintro ⟨e, hm, hn, hdi⟩
    rw [hd] at hm
    obtain ⟨ho, hf⟩ := mem_filter.mp hm
    have hs : Stored m q e := ⟨ho, hn, hdi⟩
    refine ⟨⟨e, hs⟩, ?_⟩
    rintro ⟨e', hs', hex⟩
    rw [hs'.unique h hs] at hex
    rw [hex] at hf
    cases hf
  · rintro ⟨⟨e, hs⟩, hf⟩
    refine ⟨e, ?_, hs.2⟩
    rw [hd]
    refine mem_filter.mpr ⟨hs.1, ?_⟩
    by_contra hex
    exact hf ⟨e, hs, by simpa using hex⟩

/-! ## Deletion -/

def taken (m : Mgr) (req : AttrEntry) (c : AttrClass) : Option AttrCache :=
  ((m.deviceOr req.deviceMac).attrs c).find? (·.name = req.attrName)

theorem mem_eraseP_of_nodup {α : Type*} {p : α → Bool} {l : List α} (hl : l.Nodup) (a : α) :
    a ∈ l.eraseP p ↔ a ∈ l ∧ l.find? p ≠ some a := by
  induction l with
  | nil => simp
  | cons b l ih =>
    obtain ⟨hb, hl⟩ := nodup_cons.mp hl
    cases hp : p b with
    | true =>
      rw [eraseP_cons_of_pos hp, find?_cons_of_pos hp, mem_cons]
      refine ⟨fun ha => ⟨.inr ha, fun heq => hb (some.inj heq ▸ ha)⟩, fun ⟨ha, hne⟩ => ?_⟩
      exact ha.resolve_left fun heq => hne (heq ▸ rfl)
    | false =>
      have hn : ¬ p b = true := by simp [hp]
      rw [eraseP_cons_of_neg hn, find?_cons_of_neg hn, mem_cons, mem_cons, ih hl]
      refine ⟨?_, fun ⟨ha, hne⟩ => ha.imp_right fun ha => ⟨ha, hne⟩⟩
      rintro (rfl | ⟨ha, hne⟩)
      · exact ⟨.inl rfl, fun hf => hb (mem_of_find?_eq_some hf)⟩
      · exact ⟨.inr ha, hne⟩

theorem stored_del (h : m.Wf) (req : AttrEntry) (e : AttrCache) : Stored (gkcDelAttribute req m).2 q e ↔
    Stored m q e ∧ ¬ (q.mac = req.deviceMac ∧ gkGetAttributeTree req.attributeType = some q.cls ∧
      taken m req q.cls = some e) := by
  unfold gkcDelAttribute taken
  cases hd : m.device req.deviceMac with
  | none =>
    have hem : m.deviceOr req.deviceMac = gkcInitPerDev req.deviceMac := by rw [Mgr.deviceOr, hd, getD_none]
    simp [hem, gkcInitPerDev]
  | some d =>
    have hor : m.deviceOr req.deviceMac = d := by rw [Mgr.deviceOr, hd, getD_some]
    have ht := h.deviceOr req.deviceMac
    rw [hor] at ht ⊢
    cases hc : gkGetAttributeTree req.attributeType with
    | none => simp
    | some c =>
      simp only [gkcDelAttr, some.injEq]
      by_cases han : (d.attrs c).any (·.name = req.attrName) = true
      · simp only [if_pos han]
        have hm : (setAttrs d c ((d.attrs c).eraseP (·.name = req.attrName))).deviceMac = req.deviceMac :=
          show d.deviceMac = req.deviceMac from device_mac hd
        have hde : (m.setDevice (setAttrs d c ((d.attrs c).eraseP (·.name = req.attrName)))).deviceOr q.mac =
            if q.mac = req.deviceMac then setAttrs d c ((d.attrs c).eraseP (·.name = req.attrName))
            else m.deviceOr q.mac := by
          rw [← put_of_device _ (hm.symm ▸ hd), deviceOr_put, hm]
        change _ ∈ ((m.setDevice _).deviceOr q.mac).attrs q.cls ∧ _ ↔ _
        rw [hde, Stored]
        by_cases hq : q.mac = req.deviceMac
        · have ha : (setAttrs d c ((d.attrs c).eraseP (·.name = req.attrName))).attrs =
              update d.attrs c ((d.attrs c).eraseP (·.name = req.attrName)) := rfl
          rw [if_pos hq, hq, hor, ha]
          by_cases hcl : q.cls = c
          · rw [hcl, update_self, mem_eraseP_of_nodup (.of_map _ (ht.unique c))]
            tauto
          · have hne : ¬ c = q.cls := fun heq => hcl heq.symm
            rw [update_of_ne hcl]
            simp [hne]
        · rw [if_neg hq]
          simp [hq]
      · simp only [if_neg han]
        have hn : (d.attrs c).find? (·.name = req.attrName) = none := by
          rw [find?_eq_none]
          intro b hb hna
          exact han (any_eq_true.mpr ⟨b, hb, hna⟩)
        refine ⟨fun hs => ⟨hs, ?_⟩, And.left⟩
        rintro ⟨-, hcl, hta⟩
        rw [← hcl, hn] at hta
        cases hta

theorem present_del (h : m.Wf) {req : AttrEntry} (ho : ∀ c e, gkGetAttributeTree req.attributeType = some c →
    taken m req c = some e → e.direction = req.direction) :
    Present (gkcDelAttribute req m).2 q ↔ Present m q ∧ req.delQuad ≠ some q := by
  have hq : req.delQuad = some q ↔ gkGetAttributeTree req.attributeType = some q.cls ∧ q.mac = req.deviceMac ∧
      q.name = req.attrName ∧ q.direction = req.direction := by
    obtain ⟨qmac, qcls, qname, qdirection⟩ := q
    rw [delQuad, map_eq_some_iff]
    constructor
    · rintro ⟨c, hc, heq⟩
      cases heq
      exact ⟨hc, rfl, rfl, rfl⟩
    · rintro ⟨hc, rfl, rfl, rfl⟩
      exact ⟨qcls, hc, rfl⟩
  have hn : ∀ e, taken m req q.cls = some e → e.name = req.attrName := fun e ht => by
    simpa using find?_some ht
  constructor
  · rintro ⟨e, he⟩
    obtain ⟨hs, hl⟩ := (stored_del h req e).mp he
    refine ⟨⟨e, hs⟩, fun hd => ?_⟩
    obtain ⟨hc, hm, hqn, hqd⟩ := hq.mp hd
    -- the first entry with the name is the one of the direction asked for
    have hso : taken m req q.cls ≠ none := by
      intro hnon
      have hno := find?_eq_none.mp hnon e (hm ▸ hs.1)
      exact hno (by simp [hs.2.1, hqn])
    obtain ⟨e', ht⟩ := ne_none_iff_exists'.mp hso
    have hs' : Stored m q e' := by
      refine ⟨?_, (hn e' ht).trans hqn.symm, (ho q.cls e' hc ht).trans hqd.symm⟩
      rw [hm]
      exact mem_of_find?_eq_some ht
    exact hl ⟨hm, hc, hs.unique h hs' ▸ ht⟩
  · rintro ⟨⟨e, hs⟩, hd⟩
    refine ⟨e, (stored_del h req e).mpr ⟨hs, fun ⟨hm, hc, ht⟩ => hd (hq.mpr ⟨hc, hm, ?_, ?_⟩)⟩⟩
    · exact hs.2.1.symm.trans (hn e ht)
    · exact hs.2.2.symm.trans (ho q.cls e hc ht)

/-! ## Lookups -/

theorem lookup_isSome (updateCount : Bool) (req : AttrEntry) (m : Mgr) :
    (gkcLookupAttributeEntry updateCount req m).1.isSome = true ↔ ∃ c, req.attributeType.attrClass = some c ∧
      ∃ e ∈ (m.deviceOr req.deviceMac).attrs c, e.key = getAttrKey req.attrName req.direction := by
  unfold gkcLookupAttributeEntry
  cases hc : req.attributeType.attrClass with
  | none => cases m.device req.deviceMac <;> simp
  | some c =>
    simp only [some.injEq, exists_eq_left']
    cases hd : m.device req.deviceMac with
    | none => simp [Mgr.deviceOr, hd, gkcInitPerDev]
    | some d =>
      have hor : m.deviceOr req.deviceMac = d := by rw [Mgr.deviceOr, hd, getD_some]
      rw [hor]
      simp only [gkcLookupAttrTree]
      cases hf : findAttr req (d.attrs c) with
      | none =>
        simp only [isSome_none, Bool.false_eq_true, false_iff]
        rintro ⟨e, he, hk⟩
        exact find_eq_none.mp hf e he hk
      | some e => exact iff_of_true rfl ⟨e, mem_of_find hf, key_of_find hf⟩

/-- The names and directions that are used have keys of their own. -/
def KeysInjective (used : Set (Name × Nat)) : Prop := Set.InjOn (fun p : Name × Nat => getAttrKey p.1 p.2) used

def UsedOnly (used : Set (Name × Nat)) (m : Mgr) : Prop := ∀ q, Present m q → (q.name, q.direction) ∈ used

theorem lookup_iff_present {used : Set (Name × Nat)} (hin : KeysInjective used) (h : m.Wf) (hu : UsedOnly used m)
    (updateCount : Bool) {req : AttrEntry} (hr : (req.attrName, req.direction) ∈ used) :
    (gkcLookupAttributeEntry updateCount req m).1.isSome = true ↔ ∃ q, req.quad = some q ∧ Present m q := by
  rw [lookup_isSome]
  constructor
  · rintro ⟨c, hc, e, he, hk⟩
    rw [(h.deviceOr req.deviceMac).key c e he] at hk
    have hpr : Present m ⟨req.deviceMac, c, e.name, e.direction⟩ := ⟨e, he, rfl, rfl⟩
    have hp : (e.name, e.direction) = (req.attrName, req.direction) := hin (hu _ hpr) hr hk
    refine ⟨⟨req.deviceMac, c, req.attrName, req.direction⟩, ?_, e, he, congrArg Prod.fst hp, congrArg Prod.snd hp⟩
    rw [quad, hc, map_some]
  · rintro ⟨q, hq, e, he, hn, hd⟩
    obtain ⟨c, hc, rfl⟩ := map_eq_some_iff.mp hq
    refine ⟨c, hc, e, he, ?_⟩
    rw [(h.deviceOr req.deviceMac).key c e he, hn, hd]

/-! ## Runs -/

theorem runMap_wf (max : UInt64) (events : List AttrEvent) : (runMap max events).1.Wf := by
  induction events using reverseRecOn with
  | nil => exact Mgr.wf_start
  | append_singleton events e ih =>
    rw [runMap_concat, bothStep, attrStep_eq max plainHost]
    exact ih.stepped plainHost max e.event

theorem present_of_step (h : m.Wf) {e : AttrEvent} (hp : Present (attrStep max m e) q) :
    Present m q ∨ ∃ now entry, e = .add now entry ∧ entry.quad = some q := by
  cases e with
  | add now entry =>
    rcases (present_add h now entry).mp hp with ho | ⟨hq, -⟩
    · exact .inl ho
    · exact .inr ⟨now, entry, rfl, hq⟩
  | lookup updateCount req => exact .inl ((present_change h (lookupAttr_change updateCount req m) rfl).mp hp)
  | del req =>
    obtain ⟨e, he⟩ := hp
    exact .inl ⟨e, ((stored_del h req e).mp he).1⟩
  | ttl now => exact .inl ((present_ttl h now).mp hp).1

section

variable (used : Set (Name × Nat)) (max : UInt64) (events : List AttrEvent)

/-- The lookup of each state finds what is in the map, and a deletion leaves the lookup of everything else alone. -/
structure MapRefined : Prop where
  found : ∀ before after, events = before ++ after → ∀ updateCount req, (req.attrName, req.direction) ∈ used →
    ((gkcLookupAttributeEntry updateCount req (runMap max before).1).1.isSome = true ↔
      ∃ q, req.quad = some q ∧ (runMap max before).2 q)
  kept : ∀ before del after, events = before ++ .del del :: after →
    ∀ updateCount req, (req.attrName, req.direction) ∈ used → (∀ q, req.quad = some q → del.delQuad ≠ some q) →
      (gkcLookupAttributeEntry updateCount req (gkcDelAttribute del (runMap max before).1).2).1.isSome =
        (gkcLookupAttributeEntry updateCount req (runMap max before).1).1.isSome

/-- Where a name is stored at all, the first entry with it in the order of the keys has the direction of the deletion. -/
def DeletesOwn : Prop :=
  ∀ before req after, events = before ++ .del req :: after → ∀ c e, gkGetAttributeTree req.attributeType = some c →
    taken (runMap max before).1 req c = some e → e.direction = req.direction

def AddsUsed : Prop := ∀ now entry, AttrEvent.add now entry ∈ events → (entry.attrName, entry.direction) ∈ used

end

variable {used : Set (Name × Nat)} {events : List AttrEvent}

theorem runMap_used (hu : AddsUsed used events) (before : List AttrEvent) :
    ∀ after, events = before ++ after → UsedOnly used (runMap max before).1 := by
  induction before using reverseRecOn with
  | nil =>
    rintro after - q ⟨e, he, -⟩
    exact absurd he not_mem_nil
  | append_singleton before e ih =>
    intro after heq q hp
    have hs : events = before ++ e :: after := by simp [heq]
    rw [runMap_concat] at hp
    rcases present_of_step (runMap_wf max before) hp with ho | ⟨now, entry, rfl, hq⟩
    · exact ih _ hs q ho
    · obtain ⟨c, -, rfl⟩ := map_eq_some_iff.mp hq
      exact hu now entry (by simp [hs])

theorem runMap_present (h : DeletesOwn max events) (before : List AttrEvent) :
    ∀ after, events = before ++ after → ∀ q, (runMap max before).2 q ↔ Present (runMap max before).1 q := by
  induction before using reverseRecOn with
  | nil =>
    rintro after - q
    refine ⟨False.elim, ?_⟩
    rintro ⟨e, he, -⟩
    exact absurd he not_mem_nil
  | append_singleton before e ih =>
    intro after heq q
    have hs : events = before ++ e :: after := by simp [heq]
    have hwf := runMap_wf max before
    have hb := ih _ hs
    rw [runMap_concat]
    cases e with
    | add now entry =>
      rw [bothStep, attrStep, present_add hwf]
      exact or_congr_left (hb q)
    | lookup updateCount req =>
      rw [bothStep, mapStep, attrStep, present_change hwf (lookupAttr_change updateCount req _) rfl, hb]
    | del req =>
      rw [bothStep, attrStep, present_del hwf (h before req after hs)]
      exact and_congr_left' (hb q)
    | ttl now =>
      rw [bothStep, attrStep, present_ttl hwf]
      exact and_congr_left' (hb q)

def AttrClass.reqType : AttrClass → ReqType
  | .hostname => .fqdn
  | .url => .url
  | .ipv4 => .ipv4
  | .ipv6 => .ipv6
  | .app => .app

def Quad.req (q : Quad) : AttrEntry := ⟨q.mac, q.cls.reqType, q.name, 0, 0, q.direction, none, 0, 0, 0, none, 0⟩

theorem Quad.quad_req (q : Quad) : q.req.quad = some q := by
  obtain ⟨mac, c, name, direction⟩ := q
  cases c <;> rfl

/-- With keys that tell the names and directions of a run apart, the cache is the map exactly if each deletion of the run
meets an entry of its own direction first. -/
theorem attributes_refine_iff (used : Set (Name × Nat)) (max : UInt64) (events : List AttrEvent)
    (hinj : KeysInjective used) (hused : AddsUsed used events) : MapRefined used max events ↔ DeletesOwn max events := by
  have hl : ∀ before after, events = before ++ after → ∀ updateCount req, (req.attrName, req.direction) ∈ used →
      ((gkcLookupAttributeEntry updateCount req (runMap max before).1).1.isSome = true ↔
        ∃ q, req.quad = some q ∧ Present (runMap max before).1 q) := fun before after heq updateCount _ hr =>
    lookup_iff_present hinj (runMap_wf max before) (runMap_used hused before after heq) updateCount hr
  constructor
  · intro h before req after heq c e hc ht
    by_contra ho
    have hwf := runMap_wf max before
    let q : Quad := ⟨req.deviceMac, c, e.name, e.direction⟩
    have ha : events = (before ++ [.del req]) ++ after := by simp [heq]
    have hs : Stored (runMap max before).1 q e := ⟨mem_of_find?_eq_some ht, rfl, rfl⟩
    have hqu : (q.req.attrName, q.req.direction) ∈ used := runMap_used hused before _ heq q ⟨e, hs⟩
    -- what is stored before the deletion is in the map, and so it is after it
    have hm : (runMap max before).2 q := by
      obtain ⟨q', hq', hp⟩ := (h.found before _ heq false q.req hqu).mp
        ((hl before _ heq false q.req hqu).mpr ⟨q, q.quad_req, e, hs⟩)
      exact some.inj (q.quad_req.symm.trans hq') ▸ hp
    have hd : req.delQuad ≠ some q := fun hd => by
      rw [delQuad, hc, map_some] at hd
      exact ho (congrArg Quad.direction (some.inj hd)).symm
    have hm' : (runMap max (before ++ [.del req])).2 q := by
      rw [runMap_concat]
      exact ⟨hm, hd⟩
    obtain ⟨q', hq', e', he'⟩ := (hl _ after ha false q.req hqu).mp
      ((h.found _ after ha false q.req hqu).mpr ⟨q, q.quad_req, hm'⟩)
    rw [← some.inj (q.quad_req.symm.trans hq'), runMap_concat] at he'
    obtain ⟨hs', hle⟩ := (stored_del hwf req e').mp he'
    exact hle ⟨rfl, hc, hs.unique hwf hs' ▸ ht⟩
  · intro h
    have hm := runMap_present h
    have hf : ∀ before after, events = before ++ after → ∀ updateCount req, (req.attrName, req.direction) ∈ used →
        ((gkcLookupAttributeEntry updateCount req (runMap max before).1).1.isSome = true ↔
          ∃ q, req.quad = some q ∧ (runMap max before).2 q) := fun before after heq updateCount req hr => by
      rw [hl before after heq updateCount req hr]
      simp [hm before after heq]
    refine ⟨hf, fun before del after heq updateCount req hr ho => ?_⟩
    have ha : events = (before ++ [.del del]) ++ after := by simp [heq]
    have hst : (runMap max (before ++ [.del del])).1 = (gkcDelAttribute del (runMap max before).1).2 := by
      rw [runMap_concat]
      rfl
    have hth := hf _ after ha updateCount req hr
    rw [hst] at hth
    rw [Bool.eq_iff_iff, hth, hf before _ heq updateCount req hr, runMap_concat]
    refine exists_congr fun q => and_congr_right fun hq => ?_
    exact ⟨And.left, fun hol => ⟨hol, ho q hq⟩⟩

def plumeIn (direction : Nat) : AttrEntry :=
  ⟨[2, 0, 0, 0, 0, 1], .fqdn, "plume.com".toList, 60, fsmAllow, direction, none, 4, 1, 0, none, 0⟩

def plumeDirections : Set (Name × Nat) := {("plume.com".toList, directionInbound), ("plume.com".toList, directionOutbound)}

theorem plumeDirections_keys : KeysInjective plumeDirections := by
  have hne : getAttrKey "plume.com".toList directionInbound ≠ getAttrKey "plume.com".toList directionOutbound := by
    decide +kernel
  rintro p (rfl | rfl) p' (rfl | rfl) hk
  · rfl
  · exact absurd hk hne
  · exact absurd hk.symm hne
  · rfl

def bothDirections : List AttrEvent :=
  [.add 0 (plumeIn directionInbound), .add 0 (plumeIn directionOutbound), .del (plumeIn directionInbound)]

theorem bothDirections_used : AddsUsed plumeDirections bothDirections := by
  intro now entry hm
  simp only [bothDirections, mem_cons, AttrEvent.add.injEq, reduceCtorEq, not_mem_nil, or_false] at hm
  rcases hm with ⟨-, rfl⟩ | ⟨-, rfl⟩
  · exact .inl rfl
  · exact .inr rfl

theorem bothDirections_refine_iff : MapRefined plumeDirections 100 bothDirections ↔ DeletesOwn 100 bothDirections :=
  attributes_refine_iff plumeDirections 100 bothDirections plumeDirections_keys bothDirections_used

/-- The deletion of one direction takes the other. -/
theorem other_direction_deleted : KeysInjective plumeDirections ∧ AddsUsed plumeDirections bothDirections ∧
      ¬ MapRefined plumeDirections 100 bothDirections := by
  refine ⟨plumeDirections_keys, bothDirections_used, fun h => ?_⟩
  have hk := h.kept [.add 0 (plumeIn directionInbound), .add 0 (plumeIn directionOutbound)] _ [] rfl false
      (plumeIn directionOutbound) (.inr rfl) fun q hq hd => by
    have heq : (plumeIn directionOutbound).quad = (plumeIn directionInbound).delQuad := hq.trans hd.symm
    revert heq
    decide +kernel
  revert hk
  decide +kernel

end OpenSync.Gkc
