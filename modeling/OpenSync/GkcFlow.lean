import OpenSync.GkcCache

/-!
# The order of flows

`gkc_flow_entry_cmp` orders the flow trees. It takes the length of the addresses from an IP version of 16, and versions
are 4 and 6, so that it compares four bytes of either. It is a total preorder all the same, and flows of version 6 that
share what it compares are one.
-/

namespace OpenSync.Gkc

open Comparator LawfulOn

def IpFlow.Wf (f : IpFlow) : Prop :=
  f.ipVersion = 4 ∧ f.srcIpAddr.length = 4 ∧ f.dstIpAddr.length = 4 ∨
    f.ipVersion = 6 ∧ f.srcIpAddr.length = 16 ∧ f.dstIpAddr.length = 16

def SameFlow (f g : IpFlow) : Prop :=
  f.ipVersion = g.ipVersion ∧ f.srcIpAddr = g.srcIpAddr ∧ f.dstIpAddr = g.dstIpAddr ∧ f.protocol = g.protocol ∧
    f.srcPort = g.srcPort ∧ f.dstPort = g.dstPort

def Alias (f g : IpFlow) : Prop :=
  f.ipVersion = g.ipVersion ∧ f.srcIpAddr.take 4 = g.srcIpAddr.take 4 ∧ f.dstIpAddr.take 4 = g.dstIpAddr.take 4 ∧
    f.protocol = g.protocol ∧ f.srcPort = g.srcPort ∧ f.dstPort = g.dstPort

def aliasKey (f : IpFlow) : Nat × List UInt8 × List UInt8 × Nat × Nat × Nat :=
  (f.ipVersion, f.srcIpAddr.take 4, f.dstIpAddr.take 4, f.protocol, f.srcPort, f.dstPort)

variable {f g : IpFlow}

theorem alias_iff : Alias f g ↔ aliasKey f = aliasKey g := by
  simp [Alias, aliasKey]

def IpFlow.Readable (f : IpFlow) : Prop := f.ipVersion ≠ 16 ∧ 4 ≤ f.srcIpAddr.length ∧ 4 ≤ f.dstIpAddr.length

theorem IpFlow.Wf.readable (h : f.Wf) : f.Readable := by
  unfold IpFlow.Wf at h
  unfold IpFlow.Readable
  omega

theorem cmp_eq_zero_iff (hf : f.Readable) (hg : g.Readable) : gkcFlowEntryCmp f g = 0 ↔ Alias f g := by
  have hs : ∀ a b : Nat, (a : Int) - b = 0 ↔ a = b := fun a b => by omega
  unfold gkcFlowEntryCmp Alias
  simp [if_neg hf.1, orElse_eq_zero, hs, memcmp_eq_zero hf.2.1 hg.2.1, memcmp_eq_zero hf.2.2 hg.2.2]

theorem cmp_lawfulOn : LawfulOn {f | f.Readable} gkcFlowEntryCmp := by
  have hs : LawfulOn {f : IpFlow | f.Readable} fun f g => memcmp 4 f.srcIpAddr g.srcIpAddr :=
    (memcmp_lawfulOn 4).comap fun f (hf : f.Readable) => hf.2.1
  have hd : LawfulOn {f : IpFlow | f.Readable} fun f g => memcmp 4 f.dstIpAddr g.dstIpAddr :=
    (memcmp_lawfulOn 4).comap fun f (hf : f.Readable) => hf.2.2
  have ha := (sub {f : IpFlow | f.Readable} IpFlow.ipVersion).orElse (hs.orElse (hd.orElse
    ((sub _ IpFlow.protocol).orElse ((sub _ IpFlow.srcPort).orElse (sub _ IpFlow.dstPort)))))
  have heq : ∀ f ∈ {f : IpFlow | f.Readable}, ∀ g, gkcFlowEntryCmp f g = _ := fun f hf g => by
    rw [gkcFlowEntryCmp, if_neg hf.1]
  refine ⟨fun f hf g hg => ?_, fun f hf g hg h hh => ?_⟩
  · rw [heq f hf, heq g hg]
    exact ha.anti f hf g hg
  · rw [heq f hf, heq g hg, heq f hf]
    exact ha.trans f hf g hg h hh

/-- The comparison is a total order on the entries, whose equality is that of the flows. -/
structure OrdersFlows (s : Set IpFlow) : Prop where
  lawful : LawfulOn s gkcFlowEntryCmp
  same : ∀ f ∈ s, ∀ g ∈ s, (gkcFlowEntryCmp f g = 0 ↔ SameFlow f g)

/-- No two flows of version 6 differ after the fourth byte of an address only. -/
def Apart (s : Set IpFlow) : Prop :=
  ∀ f ∈ s, ∀ g ∈ s, f.ipVersion = 6 → Alias f g → f.srcIpAddr = g.srcIpAddr ∧ f.dstIpAddr = g.dstIpAddr

theorem Alias.of_sameFlow (h : SameFlow f g) : Alias f g := by
  obtain ⟨hv, hs, hd, hr⟩ := h
  exact ⟨hv, hs ▸ rfl, hd ▸ rfl, hr⟩

theorem Alias.sameFlow_of_v4 (h : Alias f g) (hf : f.Wf) (hg : g.Wf) (h6 : f.ipVersion ≠ 6) : SameFlow f g := by
  obtain ⟨hv, hs, hd, hr⟩ := h
  unfold IpFlow.Wf at hf hg
  have hl : f.srcIpAddr.length ≤ 4 ∧ g.srcIpAddr.length ≤ 4 ∧ f.dstIpAddr.length ≤ 4 ∧ g.dstIpAddr.length ≤ 4 := by
    omega
  rw [List.take_of_length_le hl.1, List.take_of_length_le hl.2.1] at hs
  rw [List.take_of_length_le hl.2.2.1, List.take_of_length_le hl.2.2.2] at hd
  exact ⟨hv, hs, hd, hr⟩

theorem ordersFlows_iff {s : Set IpFlow} (hs : ∀ f ∈ s, f.Wf) : OrdersFlows s ↔ Apart s := by
  constructor
  · intro h f hf g hg _ ha
    obtain ⟨-, hsr, hd, -⟩ := (h.same f hf g hg).mp ((cmp_eq_zero_iff (hs f hf).readable (hs g hg).readable).mpr ha)
    exact ⟨hsr, hd⟩
  · intro h
    refine ⟨⟨fun f hf g hg => cmp_lawfulOn.anti f (hs f hf).readable g (hs g hg).readable,
      fun f hf g hg e he => cmp_lawfulOn.trans f (hs f hf).readable g (hs g hg).readable e (hs e he).readable⟩,
      fun f hf g hg => ?_⟩
    rw [cmp_eq_zero_iff (hs f hf).readable (hs g hg).readable]
    refine ⟨fun ha => ?_, .of_sameFlow⟩
    by_cases h6 : f.ipVersion = 6
    · obtain ⟨hsr, hd⟩ := h f hf g hg h6 ha
      exact ⟨ha.1, hsr, hd, ha.2.2.2⟩
    · exact ha.sameFlow_of_v4 (hs f hf) (hs g hg) h6

/-! ## Requests -/

variable {src dst : Vector UInt8 16}

theorem wf_of_valid {req : FlowReq} {w : FlowDir}
    (h : gkcIsFlowValid req = some (w, src, dst)) (now : Int) : (gkcNewFlowEntry now req src dst).Wf := by
  have hve : req.ipVersion = 4 ∨ req.ipVersion = 6 := by
    unfold gkcIsFlowValid at h
    split at h
    · split at h
      · next hv => exact hv
      · exact nomatch h
    · exact nomatch h
  unfold IpFlow.Wf gkcNewFlowEntry
  rcases hve with hv | hv <;> simp [hv]

theorem alias_flowKey (now : Int) (req : FlowReq) (src dst : Vector UInt8 16) :
    Alias (flowKey req src dst) (gkcNewFlowEntry now req src dst) := by
  have ht : ∀ v : Vector UInt8 16, v.toList.take 4 = (v.toList.take (if req.ipVersion = 4 then 4 else 16)).take 4 := by
    intro v
    rw [List.take_take]
    split <;> rfl
  exact ⟨rfl, ht src, ht dst, rfl, rfl, rfl⟩

theorem readable_flowKey {req : FlowReq} {w : FlowDir}
    (h : gkcIsFlowValid req = some (w, src, dst)) : (flowKey req src dst).Readable := by
  have hv : (flowKey req src dst).ipVersion ≠ 16 := (wf_of_valid h 0).readable.1
  exact ⟨hv, by simp [flowKey], by simp [flowKey]⟩

end OpenSync.Gkc
