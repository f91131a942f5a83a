import OpenSync.NeighTable

/-!
# The latest binding

A lookup should answer with the address that the most recent addition or update brought for the first source that
holds an entry. An addition for a key that is held only refreshes the entry, so this takes that it brings the
address that is held already; an update overwrites it.
-/

namespace OpenSync.Neigh
open List Function

open Keyed Net

inductive Op
  | neighEvent (info : NfNeighInfo) (now : Int)
  | linkEvent (info : NfNeighInfo)
  | add (toAdd : Request) (ovsdb : Bool)
  | delete (toDel : Request) (ovsdb : Bool)
  | cacheUpdate (entry : Request) (mac : Mac)
  | ttlCleanup (ttl : Int) (sourceMask : Nat) (now : Int)

def step (s : State) : Op → State
  | .neighEvent info now => processNeighEvent s info now
  | .linkEvent info => processLinkEvent s info
  | .add toAdd ovsdb => (neighTableAdd s toAdd ovsdb).2.2
  | .delete toDel ovsdb => neighTableDelete s toDel ovsdb
  | .cacheUpdate entry mac => (neighTableCacheUpdate s entry mac).2
  | .ttlCleanup ttl sourceMask now => neighTableTtlCleanup s ttl sourceMask now

def run (s : State) (ops : List Op) : State := ops.foldl step s

/-! ## What a run should answer -/

def Request.binding (r : Request) : Option (Key × Mac) := r.key.bind fun k => r.mac.map fun m => (k, m)

def carried : Op → Option (Key × Mac)
  | .neighEvent info now => if info.add then (info.request now).binding else none
  | .add toAdd _ => toAdd.binding
  | .cacheUpdate entry mac => entry.key.map fun k => (k, mac)
  | _ => none

abbrev Latest := Key → Option Mac

def record (latest : Latest) : Option (Key × Mac) → Latest
  | some (k, mac) => Function.update latest k (some mac)
  | none => latest

def latestStep (latest : Latest) (op : Op) : Latest := record latest (carried op)

def latest (ops : List Op) : Latest := ops.foldl latestStep fun _ => none

def Holds (s : State) (source : Source) (ip : Ip) : Prop := ∃ e ∈ s.neighTable, e.source = source ∧ e.ip = ip

/-- The first source in lookup order that holds an entry. -/
def firstHolder (s : State) (ip : Ip) : Option Source :=
  lookupSources.find? fun source => (find s ⟨source, ip⟩).isSome

def AddSafe (s : State) (r : Request) : Prop :=
  ∀ k mac, r.binding = some (k, mac) → ∀ e, find s k = some e → e.mac = mac

def OpSafe (s : State) : Op → Prop
  | .neighEvent info now => info.add = true → AddSafe s (info.request now)
  | .add toAdd _ => AddSafe s toAdd
  | _ => True

def RunSafe (s : State) : List Op → Prop
  | [] => True
  | op :: ops => OpSafe s op ∧ RunSafe (step s op) ops

/-! ## Additions -/

section Additions

variable {s : State} {r : Request}

theorem binding_none (h : r.binding = none) : neighTableAddToCache s r = ⟨none, r, s⟩ := by
  rcases r with ⟨source, ip, mac, ifname, ifindex, ts⟩
  cases mac with
  | none => rfl
  | some mac =>
    cases ip with
    | none => rfl
    | some ip => simp [Request.binding, Request.key] at h

theorem binding_some {k : Key} {mac : Mac} (hb : r.binding = some (k, mac)) :
    r.mac = some mac ∧ ∃ ip, r.ip = some ip ∧ k = ⟨r.source.getD .notSet, ip⟩ := by
  obtain ⟨k', hk, hm⟩ := Option.bind_eq_some_iff.mp hb
  obtain ⟨mac', hma, heq⟩ := Option.map_eq_some_iff.mp hm
  obtain ⟨ip, hip, rfl⟩ := Option.map_eq_some_iff.mp hk
  obtain ⟨rfl, rfl⟩ := Prod.mk.inj heq
  exact ⟨hma, ip, hip, rfl⟩

theorem addToCache_held {k : Key} {mac : Mac} {e : Entry} (hb : r.binding = some (k, mac)) (hf : find s k = some e) :
    neighTableAddToCache s r = ⟨none, { r with mac := some e.mac }, { s with
        neighTable := replace Entry.key { e with cacheValidTs := r.cacheValidTs } s.neighTable }⟩ := by
  obtain ⟨hm, ip, hip, rfl⟩ := binding_some hb
  simp [neighTableAddToCache, neighTableCacheLookup, Request.key, hm, hip, hf]

theorem addToCache_new {k : Key} {mac : Mac} (hb : r.binding = some (k, mac)) (hf : find s k = none) :
    ∃ e : Entry, e.key = k ∧ e.mac = mac ∧ e.ifindex = r.ifindex ∧ neighTableAddToCache s r =
      ⟨some e, r, { s with neighTable := insert Entry.key lt e s.neighTable, count := s.count + 1 }⟩ := by
  obtain ⟨hm, ip, hip, rfl⟩ := binding_some hb
  refine ⟨⟨r.source.getD .notSet, ip, mac, r.ifname, r.ifindex, r.cacheValidTs⟩, rfl, rfl, rfl, ?_⟩
  simp [neighTableAddToCache, neighTableCacheLookup, Request.key, hm, hip, hf]

end Additions

/-! ## The invariant -/

structure Inv (s : State) (latest : Latest) : Prop where
  unique : Unique Entry.key s.neighTable
  agrees : ∀ k e, find s k = some e → latest k = some e.mac

section Steps

variable {s : State} {latest : Latest}

section

variable (h : Inv s latest)
include h

theorem Inv.congr {s' : State} (ht : s'.neighTable = s.neighTable) : Inv s' latest := by
  rcases s' with ⟨table, interfaces, count⟩
  obtain rfl : table = s.neighTable := ht
  exact ⟨h.unique, h.agrees⟩

theorem Inv.replace (e : Entry) : Inv { s with neighTable := Keyed.replace Entry.key e s.neighTable }
      (record latest (some (e.key, e.mac))) := by
  refine ⟨h.unique.replace e, fun k' e' hf => ?_⟩
  rw [find, find_replace] at hf
  simp only [record]
  by_cases hk : k' = e.key
  · rw [if_pos hk] at hf
    obtain ⟨-, -, rfl⟩ := Option.map_eq_some_iff.mp hf
    rw [hk, update_self]
  · rw [if_neg hk] at hf
    rw [update_of_ne hk]
    exact h.agrees k' e' hf

theorem Inv.insert (e : Entry) (hf : find s e.key = none) (count : Int) :
    Inv { s with neighTable := Keyed.insert Entry.key lt e s.neighTable, count := count }
      (record latest (some (e.key, e.mac))) := by
  refine ⟨h.unique.insert lt hf, fun k' e' hfi => ?_⟩
  rw [find, find_insert lt_irrefl] at hfi
  simp only [record]
  by_cases hk : k' = e.key
  · rw [if_pos hk] at hfi
    obtain rfl := Option.some.inj hfi
    rw [hk, update_self]
  · rw [if_neg hk] at hfi
    rw [update_of_ne hk]
    exact h.agrees k' e' hfi

theorem Inv.addToCache {r : Request} (hs : AddSafe s r) :
    Inv (neighTableAddToCache s r).state (record latest r.binding) := by
  cases hb : r.binding with
  | none =>
    rw [binding_none hb]
    exact h
  | some b =>
    obtain ⟨k, mac⟩ := b
    cases hf : find s k with
    | some e =>
      obtain rfl : e.key = k := key_of_find hf
      obtain rfl : e.mac = mac := hs _ mac hb e hf
      rw [addToCache_held hb hf]
      exact h.replace { e with cacheValidTs := r.cacheValidTs }
    | none =>
      obtain ⟨e, rfl, rfl, -, heq⟩ := addToCache_new hb hf
      rw [heq]
      exact h.insert e hf _

theorem Inv.filter (keep : Entry → Bool) (count : Int) :
    Inv { s with neighTable := s.neighTable.filter keep, count := count } latest := by
  refine ⟨h.unique.filter keep, fun k e hf => ?_⟩
  rw [find, find_filter h.unique] at hf
  exact h.agrees k e (Option.filter_eq_some_iff.mp hf).1

theorem Inv.delete (toDel : Request) : Inv (neighTableDeleteFromCache s toDel) latest := by
  unfold neighTableDeleteFromCache
  split
  · exact h
  · exact h.filter _ _

omit h in
theorem binding_update (entry : Request) (mac : Mac) :
    ({ entry with mac := some mac } : Request).binding = entry.key.map fun k => (k, mac) := by
  rcases entry with ⟨source, ip, mac', ifname, ifindex, ts⟩
  cases ip <;> rfl

theorem Inv.cacheUpdate (entry : Request) (mac : Mac) :
    Inv (neighTableCacheUpdate s entry mac).2 (latestStep latest (.cacheUpdate entry mac)) := by
  simp only [neighTableCacheUpdate, latestStep, carried]
  split
  · rename_i hn
    rw [← binding_update]
    apply h.addToCache
    intro k mac' hb e hf
    rw [binding_update] at hb
    obtain ⟨k', hk', heq⟩ := Option.map_eq_some_iff.mp hb
    obtain ⟨rfl, -⟩ := Prod.mk.inj heq
    rw [hk', Option.bind_some, hf] at hn
    simp at hn
  · rename_i e hs
    obtain ⟨k, hk, hf⟩ := Option.bind_eq_some_iff.mp hs
    obtain rfl : e.key = k := key_of_find hf
    rw [hk]
    exact h.replace { e with mac := mac, ifname := entry.ifname }

end

theorem bumpIntf_neighTable (s : State) (ifindex : Int) : (bumpIntf s ifindex).neighTable = s.neighTable := by
  unfold bumpIntf
  split <;> rfl

theorem dropIntf_neighTable (s : State) (ifindex : Int) : (dropIntf s ifindex).neighTable = s.neighTable := by
  unfold dropIntf
  split <;> rfl

theorem Inv.step (h : Inv s latest) (op : Op) (hs : OpSafe s op) : Inv (step s op) (latestStep latest op) := by
  cases op with
  | neighEvent info now =>
    simp only [Neigh.step, processNeighEvent, latestStep, carried]
    cases ha : info.add with
    | true =>
      have hst := h.addToCache (hs ha)
      simp only [if_true]
      split
      · exact hst.congr (bumpIntf_neighTable _ _)
      · exact hst
    | false =>
      simp only [Bool.false_eq_true, if_false]
      split
      · exact (h.delete _).congr (dropIntf_neighTable _ _)
      · exact h
  | linkEvent info =>
    simp only [Neigh.step, processLinkEvent, latestStep, carried]
    split
    · exact h
    · split
      · exact h
      · exact (h.filter _ 0).congr rfl
  | add toAdd ovsdb => exact h.addToCache hs
  | delete toDel ovsdb =>
    simp only [Neigh.step, neighTableDelete, latestStep, carried]
    split
    · exact h
    · exact h.filter _ _
  | cacheUpdate entry mac => exact h.cacheUpdate entry mac
  | ttlCleanup ttl sourceMask now => exact h.filter _ _

end Steps

theorem inv_init : Inv init fun _ => none := ⟨nodup_nil, by simp [find, init]⟩

theorem Inv.run {s : State} {latest : Latest} (h : Inv s latest) (ops : List Op) (hs : RunSafe s ops) :
    Inv (run s ops) (ops.foldl latestStep latest) := by
  induction ops generalizing s latest with
  | nil => exact h
  | cons op ops ih => exact ih (h.step op hs.1) hs.2

/-! ## Lookups -/

theorem AddSafe.caller {s : State} {r : Request} (hs : AddSafe s r) :
    (neighTableAddToCache s r).caller.mac = r.mac := by
  cases hb : r.binding with
  | none => rw [binding_none hb]
  | some b =>
    obtain ⟨k, mac⟩ := b
    cases hf : find s k with
    | none =>
      obtain ⟨e, -, -, -, heq⟩ := addToCache_new hb hf
      rw [heq]
    | some e =>
      rw [addToCache_held hb hf]
      have hma : r.mac = some mac := by
        obtain ⟨k', -, hk'⟩ := Option.bind_eq_some_iff.mp hb
        obtain ⟨m, hm, heq⟩ := Option.map_eq_some_iff.mp hk'
        rw [hm, (Prod.mk.inj heq).2]
      rw [hma, hs k mac hb e hf]

theorem hostIp_length : ([10, 0, 0, 1] : List UInt8).length = Family.inet.len := rfl

def hostIp : Ip := ⟨.inet, [10, 0, 0, 1], hostIp_length⟩

def addEvent (mac : Mac) : NfNeighInfo := ⟨some hostIp, 3, some mac, some .system, true, false⟩

def hostUpdate : Request := ⟨some .system, some hostIp, none, none, 3, 0⟩

end OpenSync.Neigh
