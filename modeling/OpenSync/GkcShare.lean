import OpenSync.GkcInvariant

/-!
# Flows that share an entry

A request for a flow is served by the entry that the comparison finds. With one entry for each thing the comparison
looks at, that is the entry of another flow exactly if such a flow is stored.
-/

namespace OpenSync.Gkc
open List

open Keyed

def Event.flowReq : Event → Option FlowReq
  | .addFlow _ req | .lookupFlow _ req | .delFlow req => some req
  | _ => none

def Shares (m : Mgr) (req : FlowReq) : Prop :=
  ∃ w src dst d f, gkcIsFlowValid req = some (w, src, dst) ∧ m.device req.deviceMac = some d ∧
    findFlow (flowKey req src dst) (d.flows w) = some f ∧ ¬ SameFlow f (gkcNewFlowEntry 0 req src dst)

/-- A flow of version 6 is stored in the tree of the request that differs from it after the fourth byte of an address
only. -/
def Collides (m : Mgr) (req : FlowReq) : Prop :=
  ∃ w src dst d, gkcIsFlowValid req = some (w, src, dst) ∧ m.device req.deviceMac = some d ∧
    ¬ Apart {f | f ∈ d.flows w ∨ f = gkcNewFlowEntry 0 req src dst}

theorem not_apart_iff {tree : List IpFlow} (hu : Unique aliasKey tree) {g : IpFlow} :
    ¬ Apart {f | f ∈ tree ∨ f = g} ↔ ∃ f ∈ tree, f.ipVersion = 6 ∧ Alias f g ∧ ¬ (f.srcIpAddr = g.srcIpAddr ∧
      f.dstIpAddr = g.dstIpAddr) := by
  have hin : ∀ f ∈ tree, ∀ f' ∈ tree, Alias f f' → f = f' := fun f hf f' hf' h =>
    inj_on_of_nodup_map hu hf hf' (alias_iff.mp h)
  constructor
  · intro h
    simp only [Apart, not_forall] at h
    obtain ⟨f, hf, f', hf', h6, ha, hne⟩ := h
    rcases hf with hf | rfl <;> rcases hf' with hf' | rfl
    · exact absurd (hin f hf f' hf' ha ▸ ⟨rfl, rfl⟩) hne
    · exact ⟨f, hf, h6, ha, hne⟩
    · refine ⟨f', hf', ha.1.symm.trans h6, alias_iff.mpr (alias_iff.mp ha).symm, fun h => hne ?_⟩
      exact ⟨h.1.symm, h.2.symm⟩
    · exact absurd ⟨rfl, rfl⟩ hne
  · rintro ⟨f, hf, h6, ha, hne⟩ hap
    exact hne (hap f (.inl hf) g (.inr rfl) h6 ha)

theorem shares_iff {m : Mgr} (h : m.Wf) (req : FlowReq) : Shares m req ↔ Collides m req := by
  refine exists_congr fun w => exists_congr fun src => exists_congr fun dst => exists_congr fun d => ?_
  simp only [exists_and_left]
  refine and_congr_right fun hv => and_congr_right fun hd => ?_
  have ht := h.trees d (mem_of_find hd)
  have hk := readable_flowKey hv
  have hnew := alias_iff.mp (alias_flowKey 0 req src dst)
  rw [not_apart_iff (ht.apart w)]
  constructor
  · rintro ⟨f, hfi, ho⟩
    have hf : f ∈ d.flows w := mem_of_find?_eq_some hfi
    have hz : gkcFlowEntryCmp f (flowKey req src dst) = 0 := by simpa using find?_some hfi
    have ha : Alias f (gkcNewFlowEntry 0 req src dst) :=
      alias_iff.mpr ((alias_iff.mp ((cmp_eq_zero_iff (ht.wf w f hf).readable hk).mp hz)).trans hnew)
    have h6 : f.ipVersion = 6 := by
      by_contra h6
      exact ho (ha.sameFlow_of_v4 (ht.wf w f hf) (wf_of_valid hv 0) h6)
    exact ⟨f, hf, h6, ha, fun ⟨hsr, hds⟩ => ho ⟨ha.1, hsr, hds, ha.2.2.2⟩⟩
  · rintro ⟨f, hf, h6, ha, hne⟩
    have hso : findFlow (flowKey req src dst) (d.flows w) ≠ none := fun hn =>
      (findFlow_eq_none hk (ht.wf w)).mp hn f hf ((alias_iff.mp ha).trans hnew.symm)
    obtain ⟨g, hg⟩ := Option.ne_none_iff_exists'.mp hso
    have hm : g ∈ d.flows w := mem_of_find?_eq_some hg
    have hz : gkcFlowEntryCmp g (flowKey req src dst) = 0 := by simpa using find?_some hg
    -- the tree has one entry for what the comparison looks at
    have hgf : g = f := inj_on_of_nodup_map (ht.apart w) hm hf
      ((alias_iff.mp ((cmp_eq_zero_iff (ht.wf w g hm).readable hk).mp hz)).trans (hnew.trans (alias_iff.mp ha).symm))
    exact ⟨g, hg, fun hs => hne (hgf ▸ ⟨hs.2.1, hs.2.2.1⟩)⟩

section

variable (host : Host) (max : UInt64)

def NeverShared (events : List Event) : Prop :=
  ∀ before e after, events = before ++ e :: after → ∀ req, e.flowReq = some req → ¬ Shares (run host max before) req

def NeverCollides (events : List Event) : Prop :=
  ∀ before e after, events = before ++ e :: after → ∀ req, e.flowReq = some req → ¬ Collides (run host max before) req

end

/-- Flows are told apart exactly where no two of version 6 differ after the fourth byte of an address only: in a set of
entries, and by each request of a run among the entries stored when it comes. -/
theorem flows_identified_iff (s : Set {f : IpFlow // f.Wf}) (host : Host) (max : UInt64) (events : List Event) :
    (OrdersFlows (Subtype.val '' s) ↔ Apart (Subtype.val '' s)) ∧
      (NeverShared host max events ↔ NeverCollides host max events) := by
  constructor
  · refine ordersFlows_iff fun f hf => ?_
    obtain ⟨g, -, rfl⟩ := hf
    exact g.2
  · unfold NeverShared NeverCollides
    simp [shares_iff (run_wf host max _)]

def flowTo (last : UInt8) : FlowReq :=
  ⟨[2, 0, 0, 0, 0, 1], some #v[32, 1, 13, 184, 0, 0, 0, 0, 0, 0, 0, 0, 0, 0, 0, 1],
    some #v[32, 1, 13, 184, 0, 0, 0, 0, 0, 0, 0, 0, 0, 0, 0, last], 1000, 443, 6, 6, directionOutbound, fsmAllow, none,
    0, 60⟩

/-- The second flow is answered with the entry of the first. -/
theorem flows_share_entry :
    ¬ OrdersFlows {f | f.Wf} ∧ ¬ NeverShared plainHost 100 [.addFlow 0 (flowTo 2), .lookupFlow false (flowTo 3)] := by
  have ho : ¬ SameFlow (gkcNewFlowEntry 0 (flowTo 2) ((flowTo 2).srcIpAddr.getD default)
      ((flowTo 2).dstIpAddr.getD default)) (gkcNewFlowEntry 0 (flowTo 3) ((flowTo 3).srcIpAddr.getD default)
        ((flowTo 3).dstIpAddr.getD default)) := fun h => absurd h.2.2.1 (by decide +kernel)
  constructor
  · intro h
    refine ho ((h.same _ (wf_of_valid (w := .outbound) rfl 0) _ (wf_of_valid (w := .outbound) rfl 0)).mp ?_)
    decide +kernel
  · intro h
    refine h [.addFlow 0 (flowTo 2)] _ [] rfl (flowTo 3) rfl ⟨.outbound, _, _, _, _, rfl, rfl, ?_, ho⟩
    rfl

end OpenSync.Gkc
