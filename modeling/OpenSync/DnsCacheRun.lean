import OpenSync.DnsCache

/-!
# The cache as a map

What the cache is for: a map from device and address to the verdict of the last successful addition and its time,
from which deletions and clean-ups take keys away. The refresh of a key that is in the cache carries over the
action, the redirect flag and the lifetime only, so the cache is that map as long as the rest is the same.
-/

namespace OpenSync.DnsCache
open List Function

open Keyed Net

inductive Op
  | add (toAdd : Ip2actionReq) (now : Int)
  | del (toDel : Ip2actionReq)
  | ttlCleanup (now : Int)
  | lookup (req : Ip2actionReq)

def step (s : State) : Op → Bool × State
  | .add toAdd now => dnsCacheAddEntry s toAdd now
  | .del toDel => dnsCacheDelEntry s toDel
  | .ttlCleanup now => dnsCacheTtlCleanup s now
  | .lookup req => ((dnsCacheIp2actionLookup s req).found, (dnsCacheIp2actionLookup s req).state)

def run (s : State) (ops : List Op) : State := ops.foldl (fun s op => (step s op).2) s

def observe (s : State) : List Op → List (Op × Bool)
  | [] => []
  | op :: ops => (op, (step s op).1) :: observe (step s op).2 ops

/-! ## Verdicts -/

inductive ServiceData
  | bc (reputation : UInt8) (confidenceLevels : List UInt8)
  | wp (riskLevel : UInt8)
  | gk (confidenceLevel categoryId : UInt32) (gkPolicy : Option (List Char))
  | other
  deriving DecidableEq

structure Verdict where
  action : Int
  cacheTtl : Int
  redirectFlag : Bool
  policyIdx : UInt8
  serviceId : Int
  categories : List UInt8
  catUnknownToService : Bool
  data : ServiceData
  deriving DecidableEq

def used (n : Nat) (slots : Slots) : List UInt8 := (List.ofFn slots).take n

def serviceData (serviceId : Int) (n : Nat) (info : CacheInfo) : ServiceData :=
  if serviceId = bcSvc then .bc info.bc.reputation (used n info.bc.confidenceLevels)
  else if serviceId = wpSvc then .wp info.wb.riskLevel
  else if serviceId = gkSvc then .gk info.gk.confidenceLevel info.gk.categoryId info.gk.gkPolicy
  else .other

def Ip2actionReq.verdict (r : Ip2actionReq) : Verdict where
  action := r.action
  cacheTtl := r.cacheTtl
  redirectFlag := r.redirectFlag
  policyIdx := r.policyIdx
  serviceId := r.serviceId
  categories := used r.nelems r.categories
  catUnknownToService := r.catUnknownToService
  data := serviceData r.serviceId r.nelems r.info

/-- The verdicts differ at most in what a refresh carries over. -/
def SameRest (v w : Verdict) : Prop :=
  { v with action := w.action, cacheTtl := w.cacheTtl, redirectFlag := w.redirectFlag } = w

/-! ## The map -/

abbrev Map := Key → Option (Verdict × Int)

def mapStep (m : Map) : Op × Bool → Map
  | (.add toAdd now, true) => Function.update m toAdd.key (some (toAdd.verdict, now))
  | (.del toDel, true) => Function.update m toDel.key none
  | (.ttlCleanup now, true) => fun k => (m k).filter fun v => decide (now - v.2 < v.1.cacheTtl)
  | _ => m

def mapOf (calls : List (Op × Bool)) : Map := calls.foldl mapStep fun _ => none

/-- A refresh of a stored verdict changes only what it carries over. -/
def OpSafe (s : State) : Op → Prop
  | .add toAdd _ => ∀ e, find s toAdd.key = some e → SameRest e.verdict toAdd.verdict
  | _ => True

def RunSafe (s : State) : List Op → Prop
  | [] => True
  | op :: ops => OpSafe s op ∧ RunSafe (step s op).2 ops

/-! ## Copies -/

theorem used_copySlots (n : Nat) (dst src : Slots) : used n (copySlots n dst src) = used n src := by
  apply ext_getElem
  · simp [used]
  · intro i h1 h2
    have hi : i < n := by
      simp only [used, length_take] at h2
      omega
    simp only [used, getElem_take, List.getElem_ofFn, copySlots, if_pos hi]

/-- A payload that was accepted reads as the one it was copied from; a missing gatekeeper policy leaves the one
that was there. -/
theorem setService_data {serviceId : Int} {n : Nat} {dst src : CacheInfo}
    (hok : (setService serviceId n dst src).1 = true) (hd : dst.gk.gkPolicy = none) :
    serviceData serviceId n (setService serviceId n dst src).2 = serviceData serviceId n src := by
  unfold setService at hok ⊢
  unfold serviceData
  split_ifs at hok ⊢ with hbc hwp hgk
  · unfold setBcCacheEntry at hok ⊢
    split_ifs at hok ⊢
    simp [used_copySlots]
  · unfold setWbCacheEntry at hok ⊢
    split_ifs at hok ⊢
    rfl
  · simp [setGkCacheEntry, hd]

theorem setService_ok (serviceId : Int) (n : Nat) (dst dst' src : CacheInfo) :
    (setService serviceId n dst src).1 = (setService serviceId n dst' src).1 := by
  unfold setService setBcCacheEntry setWbCacheEntry
  split_ifs <;> rfl

theorem setService_again {serviceId : Int} {n : Nat} {dst dst' src : CacheInfo}
    (hok : (setService serviceId n dst src).1 = true) :
    (setService serviceId n dst' (setService serviceId n dst src).2).1 = true := by
  unfold setService at hok ⊢
  split_ifs at hok ⊢ with hbc hwp hgk
  · unfold setBcCacheEntry at hok ⊢
    split_ifs at hok ⊢
    simp_all
  · unfold setWbCacheEntry at hok ⊢
    split_ifs at hok ⊢
    simp_all
  · rfl

/-! ## The invariant -/

/-- A stored verdict has a payload that its service accepts. -/
def Stored (e : Ip2action) : Prop := (setService e.serviceId e.nelems zeroInfo e.info).1 = true

structure Inv (s : State) (m : Map) : Prop where
  initialized : s.initialized = true
  unique : Unique Ip2action.key s.ip2aTree
  entries : s.entries = s.ip2aTree.length
  stored : ∀ e ∈ s.ip2aTree, Stored e
  agrees : ∀ k, m k = (find s k).map fun e => (e.verdict, e.cacheTs)

theorem Stored.known {e : Ip2action} (h : Stored e) :
    e.serviceId = bcSvc ∨ e.serviceId = wpSvc ∨ e.serviceId = gkSvc := by
  unfold Stored setService at h
  split_ifs at h with hbc hwp hgk
  · exact .inl hbc
  · exact .inr (.inl hwp)
  · exact .inr (.inr hgk)

section Steps

variable {s : State} {m : Map} {toAdd : Ip2actionReq} {now : Int}

theorem allocIp2action_spec {e : Ip2action} (h : allocIp2action toAdd now = some e) :
    e.key = toAdd.key ∧ e.verdict = toAdd.verdict ∧ e.cacheTs = now ∧ Stored e := by
  simp only [allocIp2action] at h
  split_ifs at h with hok
  obtain rfl := Option.some.inj h
  refine ⟨rfl, ?_, rfl, setService_again hok⟩
  simp only [Ip2actionReq.verdict, used_copySlots, setService_data hok (show zeroInfo.gk.gkPolicy = none from rfl)]

theorem updateIp2action_verdict {e : Ip2action} {toUpd : Ip2actionReq}
    (h : SameRest e.verdict toUpd.verdict) : (updateIp2action e toUpd now).verdict = toUpd.verdict := by
  rw [← h]
  rfl

variable (h : Inv s m)
include h

theorem Inv.add (hs : OpSafe s (.add toAdd now)) :
    Inv (dnsCacheAddEntry s toAdd now).2 (mapStep m (.add toAdd now, (dnsCacheAddEntry s toAdd now).1)) := by
  unfold dnsCacheAddEntry
  simp only [h.initialized, Bool.not_true, Bool.false_eq_true, if_false]
  cases hf : find s toAdd.key with
  | some e =>
    have hk : e.key = toAdd.key := key_of_find hf
    have hm := mem_of_find hf
    refine ⟨rfl, h.unique.replace _, ?_, ?_, fun k => ?_⟩
    · simp only [Keyed.replace, length_map]
      exact h.entries
    · intro e' he'
      obtain ⟨b, hb, rfl⟩ := mem_map.mp he'
      split
      · exact h.stored e hm
      · exact h.stored b hb
    · simp only [mapStep]
      rw [find, find_replace]
      by_cases hkk : k = toAdd.key
      · subst hkk
        rw [update_self, if_pos (show _ = (updateIp2action e toAdd now).key from hk.symm)]
        rw [find] at hf
        rw [hf, Option.map_some, Option.map_some, updateIp2action_verdict (hs e hf)]
        rfl
      · rw [update_of_ne hkk, if_neg (show k ≠ (updateIp2action e toAdd now).key from fun heq => hkk (heq.trans hk))]
        exact h.agrees k
  | none =>
    cases ha : allocIp2action toAdd now with
    | none => exact h
    | some e =>
      obtain ⟨hk, hv, hts, hst⟩ := allocIp2action_spec ha
      refine ⟨rfl, h.unique.insert lt (hk ▸ hf), ?_, ?_, fun k => ?_⟩
      · simp only [(insert_perm lt e s.ip2aTree).length_eq, length_cons, h.entries]
        omega
      · exact forall_mem_perm_cons (insert_perm lt e s.ip2aTree) hst h.stored
      · simp only [mapStep]
        rw [find, find_insert lt_irrefl, hk]
        by_cases hkk : k = toAdd.key
        · rw [hkk, update_self, if_pos rfl, Option.map_some, hv, hts]
        · rw [update_of_ne hkk, if_neg hkk]
          exact h.agrees k

theorem Inv.del (toDel : Ip2actionReq) :
    Inv (dnsCacheDelEntry s toDel).2 (mapStep m (.del toDel, (dnsCacheDelEntry s toDel).1)) := by
  unfold dnsCacheDelEntry
  simp only [h.initialized, Bool.not_true, Bool.false_eq_true, if_false]
  cases hf : find s toDel.key with
  | none =>
    refine ⟨h.initialized, h.unique, h.entries, h.stored, fun k => ?_⟩
    simp only [mapStep]
    by_cases hkk : k = toDel.key
    · rw [hkk, update_self, hf]
      rfl
    · rw [update_of_ne hkk]
      exact h.agrees k
  | some e =>
    have hk : e.key = toDel.key := key_of_find hf
    refine ⟨rfl, h.unique.drop _, ?_, ?_, fun k => ?_⟩
    · simp only [h.entries, length_drop h.unique (mem_of_find hf)]
      have hp := length_pos_of_mem (mem_of_find hf)
      omega
    · exact fun e' he' => h.stored e' (mem_of_mem_filter he')
    · simp only [mapStep]
      rw [find, find_drop, hk]
      by_cases hkk : k = toDel.key
      · rw [hkk, update_self, if_pos rfl]
        rfl
      · rw [update_of_ne hkk, if_neg hkk]
        exact h.agrees k

theorem Inv.ttlCleanup (now : Int) :
    Inv (dnsCacheTtlCleanup s now).2 (mapStep m (.ttlCleanup now, (dnsCacheTtlCleanup s now).1)) := by
  unfold dnsCacheTtlCleanup
  simp only [h.initialized, Bool.not_true, Bool.false_eq_true, if_false]
  refine ⟨rfl, h.unique.filter _, ?_, ?_, fun k => ?_⟩
  · have hl := length_eq_length_filter_add (fresh now) (l := s.ip2aTree)
    simp only [h.entries]
    omega
  · exact fun e' he' => h.stored e' (mem_of_mem_filter he')
  · simp only [mapStep]
    rw [find, find_filter h.unique, h.agrees k, find]
    cases Keyed.find Ip2action.key k s.ip2aTree with
    | none => rfl
    | some e =>
      simp only [Option.map_some, Option.filter_some, fresh, Ip2actionReq.verdict]
      split <;> simp_all

theorem Inv.lookup (req : Ip2actionReq) : Inv (dnsCacheIp2actionLookup s req).state m := by
  unfold dnsCacheIp2actionLookup
  split
  · exact h
  · split
    · exact h
    · exact ⟨h.initialized, h.unique, h.entries, h.stored, h.agrees⟩

theorem Inv.step (op : Op) (hs : OpSafe s op) : Inv (step s op).2 (mapStep m (op, (step s op).1)) := by
  cases op with
  | add toAdd now => exact h.add hs
  | del toDel => exact h.del toDel
  | ttlCleanup now => exact h.ttlCleanup now
  | lookup req =>
    have hm : mapStep m (.lookup req, (DnsCache.step s (.lookup req)).1) = m := by
      cases (DnsCache.step s (.lookup req)).1 <;> rfl
    rw [hm]
    exact h.lookup req

end Steps

/-! ## Runs -/

theorem inv_init : Inv init fun _ => none := ⟨rfl, nodup_nil, rfl, by simp [init], fun _ => rfl⟩

theorem Inv.run {s : State} {m : Map} (h : Inv s m) (ops : List Op) (hs : RunSafe s ops) :
    Inv (run s ops) ((observe s ops).foldl mapStep m) := by
  induction ops generalizing s m with
  | nil => exact h
  | cons op ops ih => exact ih (h.step op hs.1) hs.2

section Lookups

variable {s : State} {m : Map} {req : Ip2actionReq}

theorem Inv.found (h : Inv s m) : (dnsCacheIp2actionLookup s req).found = true ↔ (m req.key).isSome = true := by
  rw [h.agrees, Option.isSome_map]
  unfold dnsCacheIp2actionLookup
  cases hf : find s req.key with
  | none => simp
  | some e =>
    have hk := (h.stored e (mem_of_find hf)).known
    simpa [or_assoc] using hk

theorem Inv.verdict (h : Inv s m) (hr : req.info.gk.gkPolicy = none) {v : Verdict} {t : Int}
    (hm : m req.key = some (v, t)) : (dnsCacheIp2actionLookup s req).req.verdict = v := by
  rw [h.agrees] at hm
  obtain ⟨e, hf, heq⟩ := Option.map_eq_some_iff.mp hm
  obtain ⟨rfl, -⟩ := Prod.mk.inj heq
  have hok : (setService e.serviceId e.nelems req.info e.info).1 = true := by
    rw [setService_ok _ _ _ zeroInfo]
    exact h.stored e (mem_of_find hf)
  simp only [dnsCacheIp2actionLookup, hf, Ip2actionReq.verdict, used_copySlots, setService_data hok hr]

end Lookups

/-- As long as a refresh changes only what it carries over, a lookup succeeds exactly for the keys of the map, it
returns the verdict of the map, and the entries are counted. -/
theorem lookup_refines_map (ops : List Op) (hsafe : RunSafe init ops) :
    (∀ req, (dnsCacheIp2actionLookup (run init ops) req).found = true ↔
      (mapOf (observe init ops) req.key).isSome = true) ∧
    (∀ req v t, req.info.gk.gkPolicy = none → mapOf (observe init ops) req.key = some (v, t) →
      (dnsCacheIp2actionLookup (run init ops) req).req.verdict = v) ∧
    (run init ops).entries = (run init ops).ip2aTree.length :=
  have h := inv_init.run ops hsafe
  ⟨fun _ => h.found, fun _ _ _ hr hm => h.verdict hr hm, h.entries⟩

def hostIp : Ip := ⟨.inet, [10, 0, 0, 1], rfl⟩

def gkVerdict (action : Int) (policyIdx : UInt8) (categories : Slots) : Ip2actionReq :=
  ⟨7, hostIp, 60, action, policyIdx, gkSvc, 1, false, categories, false, zeroInfo⟩

theorem refreshed_lookup_refines :
    (dnsCacheIp2actionLookup (run init [.add (gkVerdict 1 0 fun _ => 5) 0, .add (gkVerdict 2 0 fun _ => 5) 9])
      (gkVerdict 0 0 fun _ => 0)).req.verdict = (gkVerdict 2 0 fun _ => 5).verdict := by
  refine (lookup_refines_map [.add (gkVerdict 1 0 fun _ => 5) 0, .add (gkVerdict 2 0 fun _ => 5) 9]
    ⟨fun e he => ?_, fun e he => ?_, trivial⟩).2.1 _ _ 9 rfl ?_
  · simp [find, init] at he
  · obtain rfl := Option.some.inj (he.symm.trans rfl)
    exact rfl
  · rfl

/-- The same device and address with another policy and another category: the lookup returns the old ones. -/
theorem refresh_keeps_old_policy :
    (dnsCacheAddEntry (run init [.add (gkVerdict 1 0 fun _ => 5) 0]) (gkVerdict 2 3 fun _ => 6) 9).1 = true ∧
      (dnsCacheIp2actionLookup (run init [.add (gkVerdict 1 0 fun _ => 5) 0, .add (gkVerdict 2 3 fun _ => 6) 9])
        (gkVerdict 0 0 fun _ => 0)).req.verdict = (gkVerdict 2 0 fun _ => 5).verdict ∧
      (gkVerdict 2 0 fun _ => 5).verdict ≠ (gkVerdict 2 3 fun _ => 6).verdict := by
  decide +kernel

end OpenSync.DnsCache
