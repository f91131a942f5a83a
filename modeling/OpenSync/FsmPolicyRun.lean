import OpenSync.FsmPolicy

/-!
# The tables after the rows

What the tables are for: the slot of a table and an index holds the row with that policy and index, as the row
converts. A modification does not look at the row as it was, and some rows are not stored at all or make a step read
beyond the array; as long as the events keep clear of these, the tables hold the rows and no step fails.
-/

namespace OpenSync.Fsm.Policy
open List Function

open Keyed

def InRange (r : Row) : Prop := 0 ≤ r.idx ∧ r.idx < fsmMaxPolicies

instance (r : Row) : Decidable (InRange r) := inferInstanceAs (Decidable (_ ∧ _))

def rowKey (r : Row) : Name × Int := (policyName r, r.idx)

def rowContent (r : Row) : Option Content := (convert r).map fsmPreparePolicy

def held (s : Session) : List (Name × Int × Content) :=
  s.policyTables.flatMap fun t => (List.finRange fsmMaxPolicies).filterMap fun i =>
    (t.lookupArray i).map fun p => (t.name, (i : Int), p.content)

/-! ## Runs -/

@[grind =] def run (s : Session) : List Event → Option Session
  | [] => some s
  | e :: es => (callbackFSMPolicy s e).bind fun s => run s es

def liveAfter (live : List Row) : Event → List Row
  | .insert new => new :: live
  | .modify old new => new :: drop rowKey (rowKey old) live
  | .delete old => drop rowKey (rowKey old) live

def liveRows (live : List Row) (es : List Event) : List Row := es.foldl liveAfter live

/-- The database sends an event for a row that is there, and no two rows have the same policy and index. -/
def Sent (live : List Row) : Event → Prop
  | .insert new => find rowKey (rowKey new) live = none
  | .modify old new => old ∈ live ∧ find rowKey (rowKey new) (drop rowKey (rowKey old) live) = none
  | .delete old => old ∈ live

instance (live : List Row) (e : Event) : Decidable (Sent live e) := by
  cases e <;> unfold Sent <;> infer_instance

def AllSent (live : List Row) : List Event → Prop
  | [] => True
  | e :: es => Sent live e ∧ AllSent (liveAfter live e) es

instance decidableAllSent (live : List Row) : (es : List Event) → Decidable (AllSent live es)
  | [] => isTrue trivial
  | e :: es =>
    haveI := decidableAllSent (liveAfter live e) es
    inferInstanceAs (Decidable (_ ∧ _))

/-- A row that is stored when it is added: its index is not the first, it is no request to flush, its operations are
known, and the names it brings fit a table. -/
structure Storable (r : Row) : Prop where
  idx : r.idx ≠ 0
  flush : fsmPolicyIsFlushRequest r = false
  convert : (convert r).isSome
  policy : (policyName r).length < policyNameSize
  next : ∀ pair ∈ (schema2tree r.next).head?, pair.1.length < policyNameSize

instance (r : Row) : Decidable (Storable r) :=
  decidable_of_iff (r.idx ≠ 0 ∧ fsmPolicyIsFlushRequest r = false ∧ (convert r).isSome ∧
      (policyName r).length < policyNameSize ∧
      ∀ pair ∈ (schema2tree r.next).head?, pair.1.length < policyNameSize)
    ⟨fun h => ⟨h.1, h.2.1, h.2.2.1, h.2.2.2.1, h.2.2.2.2⟩, fun h => ⟨h.idx, h.flush, h.convert, h.policy, h.next⟩⟩

/-- Events that the tables follow. A row beyond the array may come, but not go from a table that exists; a stored row
may change anything but its policy and index. -/
def EventSafe (s : Session) : Event → Prop
  | .insert new => InRange new → Storable new
  | .modify old new => (InRange old → rowKey new = rowKey old) ∧ (InRange new → Storable new)
  | .delete old => InRange old ∨ findTable s (policyName old) = none

instance (s : Session) (e : Event) : Decidable (EventSafe s e) := by
  cases e <;> unfold EventSafe <;> infer_instance

def RunSafe (s : Session) : List Event → Prop
  | [] => True
  | e :: es => EventSafe s e ∧ ∀ s' ∈ callbackFSMPolicy s e, RunSafe s' es

instance decidableRunSafe (s : Session) : (es : List Event) → Decidable (RunSafe s es)
  | [] => isTrue trivial
  | e :: es =>
    haveI := fun s' => decidableRunSafe s' es
    inferInstanceAs (Decidable (_ ∧ ∀ s' ∈ callbackFSMPolicy s e, RunSafe s' es))

/-! ## Tables as a map -/

def slot (s : Session) (name : Name) (i : Fin fsmMaxPolicies) : Option Content :=
  (find PolicyTable.name name s.policyTables).bind fun t => (t.lookupArray i).map FsmPolicy.content

structure WellFormed (s : Session) : Prop where
  names : Keyed.Unique PolicyTable.name s.policyTables
  ids : Keyed.Unique PolicyTable.id s.policyTables
  id_lt : ∀ t ∈ s.policyTables, t.id < s.nextId
  short : ∀ t ∈ s.policyTables, t.name.length < policyNameSize
  idx : ∀ t ∈ s.policyTables, ∀ i p, t.lookupArray i = some p → p.idx = i

theorem wellFormed_start : WellFormed Session.start := by
  constructor <;> simp [Session.start, Keyed.Unique]

variable {s : Session}

theorem WellFormed.eq_of_id (hw : WellFormed s) {t u : PolicyTable} (ht : t ∈ s.policyTables)
    (hu : u ∈ s.policyTables) (h : t.id = u.id) : t = u := by
  have hft := find_of_mem hw.ids ht
  rw [h, find_of_mem hw.ids hu] at hft
  exact (Option.some.inj hft).symm

theorem sameName_iff {a b : Name} (h : a.length < policyNameSize) : sameName a b = true ↔ a = b := by
  unfold sameName
  rw [decide_eq_true_eq, take_of_length_le h.le]
  constructor
  · intro heq
    have hl := congrArg length heq
    rw [length_take] at hl
    rw [heq, take_of_length_le (by omega)]
  · intro heq
    rw [← heq, take_of_length_le h.le]

theorem findTable_eq (hw : WellFormed s) (name : Name) :
    findTable s name = find PolicyTable.name name s.policyTables := by
  apply find?_congr
  intro t ht
  rw [Bool.eq_iff_iff, sameName_iff (hw.short t ht), decide_eq_true_eq]

theorem nameLt_irrefl (a : Name) : nameLt a a = false := by
  rw [nameLt, decide_eq_false_iff_not]
  exact lt_irrefl a

structure Got (s : Session) (name : Name) (id : Nat) (s' : Session) : Prop where
  wellFormed : WellFormed s'
  slot : ∀ n i, slot s' n i = slot s n i
  found : ∃ t, find PolicyTable.name name s'.policyTables = some t ∧ t.id = id
  kept : ∀ {n t}, find PolicyTable.name n s.policyTables = some t → find PolicyTable.name n s'.policyTables = some t

variable {name : Name}

theorem getTable_got (hw : WellFormed s) (h : name.length < policyNameSize) :
    Got s name (getTable s name).1 (getTable s name).2 := by
  unfold getTable
  rw [findTable_eq hw]
  cases hf : find PolicyTable.name name s.policyTables with
  | some t => exact ⟨hw, fun _ _ => rfl, ⟨t, hf, rfl⟩, id⟩
  | none =>
    have hta : name.take (policyNameSize - 1) = name := take_of_length_le (by omega)
    simp only [hta]
    have hp : (insert PolicyTable.name nameLt ⟨s.nextId, name, fun _ => none⟩ s.policyTables).Perm _ :=
      insert_perm nameLt _ _
    have hin : ∀ n, find PolicyTable.name n (insert PolicyTable.name nameLt ⟨s.nextId, name, fun _ => none⟩
        s.policyTables) = if n = name then some ⟨s.nextId, name, fun _ => none⟩ else
          find PolicyTable.name n s.policyTables := fun n => find_insert nameLt_irrefl
    refine ⟨⟨hw.names.insert nameLt hf, ?_, ?_, ?_, ?_⟩, ?_, ?_, ?_⟩
    · -- the new number is greater than all others
      rw [Keyed.Unique, (hp.map _).nodup_iff, map_cons, nodup_cons]
      refine ⟨?_, hw.ids⟩
      intro hm
      obtain ⟨t, ht, hid⟩ := mem_map.mp hm
      exact absurd hid (hw.id_lt t ht).ne
    · exact forall_mem_perm_cons hp (Nat.lt_succ_self _) fun t ht => (hw.id_lt t ht).trans (Nat.lt_succ_self _)
    · exact forall_mem_perm_cons hp h hw.short
    · exact forall_mem_perm_cons hp (by simp) hw.idx
    · intro n i
      unfold slot
      simp only [hin]
      split_ifs with hn
      · rw [hn, hf]
        rfl
      · rfl
    · exact ⟨_, (hin name).trans (if_pos rfl), rfl⟩
    · intro n t ht
      rw [hin, if_neg, ht]
      rintro rfl
      rw [hf] at ht
      cases ht

variable {t : PolicyTable}

theorem setSlot_spec (hw : WellFormed s)
    (ht : find PolicyTable.name name s.policyTables = some t) (i : Fin fsmMaxPolicies) {p : Option FsmPolicy}
    (hp : ∀ q, p = some q → q.idx = i) :
    WellFormed (onTable t.id (setSlot i p) s) ∧ (∀ n j, slot (onTable t.id (setSlot i p) s) n j =
        if n = name ∧ j = i then p.map FsmPolicy.content else slot s n j) ∧
      find PolicyTable.name name (onTable t.id (setSlot i p) s).policyTables = some (setSlot i p t) := by
  have hm := mem_of_find ht
  have hna := key_of_find ht
  have hf : ∀ n, find PolicyTable.name n (onTable t.id (setSlot i p) s).policyTables =
      (find PolicyTable.name n s.policyTables).map fun u => if u.id = t.id then setSlot i p u else u := by
    intro n
    apply find_map
    intro u
    split_ifs <;> rfl
  have hids : ∀ u ∈ s.policyTables, u.id = t.id → u = t := fun u hu hid => hw.eq_of_id hu hm hid
  have hk : ∀ {κ : Type} (key : PolicyTable → κ), (∀ u, key (setSlot i p u) = key u) →
      (onTable t.id (setSlot i p) s).policyTables.map key = s.policyTables.map key := by
    intro κ key hke
    rw [onTable, map_map]
    apply map_congr_left
    intro u _
    simp only [comp_apply]
    split_ifs <;> simp [hke]
  have hc : ∀ u ∈ (onTable t.id (setSlot i p) s).policyTables, u ∈ s.policyTables ∨ u = setSlot i p t := by
    intro u hu
    obtain ⟨v, hv, rfl⟩ := mem_map.mp hu
    split_ifs with hid
    · exact .inr (by rw [hids v hv hid])
    · exact .inl hv
  refine ⟨⟨?_, ?_, ?_, ?_, ?_⟩, ?_, ?_⟩
  · rw [Keyed.Unique, hk PolicyTable.name fun _ => rfl]
    exact hw.names
  · rw [Keyed.Unique, hk PolicyTable.id fun _ => rfl]
    exact hw.ids
  · intro u hu
    rcases hc u hu with hu | rfl
    · exact hw.id_lt u hu
    · exact hw.id_lt t hm
  · intro u hu
    rcases hc u hu with hu | rfl
    · exact hw.short u hu
    · exact hw.short t hm
  · intro u hu j q hq
    rcases hc u hu with hu | rfl
    · exact hw.idx u hu j q hq
    · simp only [setSlot, update_apply] at hq
      split_ifs at hq with hj
      · rw [hp q hq, hj]
      · exact hw.idx t hm j q hq
  · intro n j
    unfold slot
    rw [hf]
    by_cases hn : n = name
    · subst hn
      rw [ht]
      by_cases hj : j = i <;> simp [setSlot, update_apply, hj]
    rw [if_neg fun h => hn h.1]
    cases hu : find PolicyTable.name n s.policyTables with
    | none => rfl
    | some u =>
      have hne : u.id ≠ t.id := by
        intro hid
        rw [hids u (mem_of_find hu) hid] at hu
        exact hn ((key_of_find hu).symm.trans hna)
      simp [hne]
  · rw [hf, ht]
    simp

/-! ## Adding and deleting -/

variable {i : Fin fsmMaxPolicies}

theorem slotOf_eq_some {idx : Int} : slotOf idx = some i ↔ idx = i := by
  unfold slotOf
  split_ifs with h
  · rw [Option.some.injEq, Fin.ext_iff]
    simp only
    omega
  constructor
  · intro h'
    cases h'
  · rintro rfl
    exact absurd ⟨by omega, by omega⟩ h

variable {r : Row}

theorem slotOf_none : slotOf r.idx = none ↔ ¬ InRange r := by
  unfold slotOf InRange
  split_ifs with h <;> simp [h]

theorem fsmPolicyGetPrev_some (t : PolicyTable) {k : Nat} (h : k < fsmMaxPolicies) :
    ∃ prev, fsmPolicyGetPrev t k = some prev := by
  induction k with
  | zero => exact ⟨0, by rw [fsmPolicyGetPrev]⟩
  | succ k ih =>
    have hs : slotOf ((k + 1 : Nat) : Int) = some ⟨k + 1, h⟩ := slotOf_eq_some.mpr rfl
    rw [fsmPolicyGetPrev, readSlot, hs, Option.map_some, Option.bind_some]
    split_ifs
    · exact ih (Nat.lt_of_succ_lt h)
    · exact ⟨k + 1, rfl⟩

section

variable (hw : WellFormed s)
include hw

theorem fsmPolicySetNext_got (hr : Storable r) :
    WellFormed (fsmPolicySetNext s r) ∧ (∀ n i, slot (fsmPolicySetNext s r) n i = slot s n i) ∧
      ∀ {n t}, find PolicyTable.name n s.policyTables = some t →
        find PolicyTable.name n (fsmPolicySetNext s r).policyTables = some t := by
  unfold fsmPolicySetNext
  cases hn : (schema2tree r.next).head? with
  | none => exact ⟨hw, fun _ _ => rfl, id⟩
  | some pair =>
    have hg := getTable_got hw (hr.next pair hn)
    exact ⟨hg.wellFormed, hg.slot, hg.kept⟩

theorem fsmPolicyInsertSchemaP_spec (hr : Storable r)
    (ht : find PolicyTable.name name s.policyTables = some t) (hi : r.idx = i) :
    ∃ s', fsmPolicyInsertSchemaP s t.id i r = some s' ∧ WellFormed s' ∧
      (∀ n j, slot s' n j = if n = name ∧ j = i then convert r else slot s n j) ∧
      ∃ t', find PolicyTable.name name s'.policyTables = some t' ∧ t'.id = t.id ∧
        (t'.lookupArray i).map FsmPolicy.content = convert r := by
  obtain ⟨hw', hs, hk⟩ := fsmPolicySetNext_got hw hr
  have ht' := hk ht
  obtain ⟨content, hc⟩ := Option.isSome_iff_exists.mp hr.convert
  have hta : tableOf (fsmPolicySetNext s r) t.id = some t := find_of_mem hw'.ids (mem_of_find ht')
  have hp : sizePred i < fsmMaxPolicies := by
    have hne := hr.idx
    unfold sizePred
    split_ifs <;> omega
  unfold fsmPolicyInsertSchemaP
  simp only [hc, hta]
  obtain ⟨prev, hpr⟩ := fsmPolicyGetPrev_some (setSlot i (some ⟨i, content, 0, fsmMaxPolicies⟩) t) hp
  rw [hpr]
  obtain ⟨hwf, hsl, hf⟩ := setSlot_spec hw' ht' i (p := some ⟨i, content, fsmPolicyGetNext (setSlot i
    (some ⟨i, content, 0, fsmMaxPolicies⟩) t) (i + 1), fsmMaxPolicies⟩) (fun q hq => by cases hq; rfl)
  refine ⟨_, rfl, hwf, ?_, _, hf, rfl, ?_⟩
  · intro n j
    rw [hsl, hs]
    rfl
  · simp [setSlot]

theorem onTable_prepareSlot (ht : find PolicyTable.name name s.policyTables = some t) :
    onTable t.id (prepareSlot i) s = onTable t.id
      (setSlot i ((t.lookupArray i).map fun p => { p with content := fsmPreparePolicy p.content })) s := by
  unfold onTable
  congr 1
  apply map_congr_left
  intro u hu
  split_ifs with hid
  · rw [hw.eq_of_id hu (mem_of_find ht) hid, prepareSlot]
  · rfl

theorem fsmAddPolicy_spec (hr : Storable r) (hi : r.idx = i) (hf : slot s (policyName r) i = none) :
    ∃ s', fsmAddPolicy s r = some s' ∧ WellFormed s' ∧
      ∀ n j, slot s' n j = if n = policyName r ∧ j = i then rowContent r else slot s n j := by
  have hg := getTable_got hw hr.policy
  obtain ⟨t, ht, hid⟩ := hg.found
  have hta : tableOf (getTable s (policyName r)).2 (getTable s (policyName r)).1 = some t := by
    rw [← hid]
    exact find_of_mem hg.wellFormed.ids (mem_of_find ht)
  have hem : t.lookupArray i = none := by
    have hs := hg.slot (policyName r) i
    rw [hf] at hs
    simpa [slot, ht] using hs
  obtain ⟨s', hin, hw', hsl, t', ht', hid', hc⟩ := fsmPolicyInsertSchemaP_spec hg.wellFormed hr ht hi
  unfold fsmAddPolicy fsmPolicyGet
  simp only [slotOf_eq_some.mpr hi, hr.flush, Bool.false_eq_true, if_false, hta, Option.bind_some, hem]
  rw [← hid, hin, Option.map_some, Option.map_some, ← hid', onTable_prepareSlot hw' ht']
  obtain ⟨hwf, hfi, -⟩ := setSlot_spec hw' ht' i
    (p := (t'.lookupArray i).map fun p => { p with content := fsmPreparePolicy p.content }) (by
      intro q hq
      obtain ⟨q', hq', rfl⟩ := Option.map_eq_some_iff.mp hq
      exact hw'.idx t' (mem_of_find ht') i q' hq')
  refine ⟨_, rfl, hwf, ?_⟩
  intro n j
  rw [hfi, hsl, hg.slot]
  split_ifs
  · rw [rowContent, ← hc, Option.map_map, Option.map_map]
    rfl
  · rfl

theorem fsmDeletePolicy_spec (hi : r.idx = i) : ∃ s', fsmDeletePolicy s r = some s' ∧ WellFormed s' ∧
      ∀ n j, slot s' n j = if n = policyName r ∧ j = i then none else slot s n j := by
  unfold fsmDeletePolicy
  rw [findTable_eq hw, slotOf_eq_some.mpr hi]
  cases ht : find PolicyTable.name (policyName r) s.policyTables with
  | none =>
    refine ⟨s, rfl, hw, ?_⟩
    intro n j
    split_ifs with h
    · rw [slot, h.1, ht]
      rfl
    · rfl
  | some t =>
    simp only
    cases hp : t.lookupArray i with
    | none =>
      refine ⟨s, rfl, hw, ?_⟩
      intro n j
      split_ifs with h
      · rw [slot, h.1, h.2, ht, Option.bind_some, hp]
        rfl
      · rfl
    | some p =>
      have hid := hw.idx t (mem_of_find ht) i p hp
      simp only [fsmFreePolicy, hid]
      have hs : slotOf (((i : Nat) : Int)) = some i := slotOf_eq_some.mpr rfl
      rw [hs, Option.map_some]
      obtain ⟨hwf, hsl, -⟩ := setSlot_spec hw ht i (p := none) (by simp)
      exact ⟨_, rfl, hwf, hsl⟩

end

/-! ## Events -/

structure Mirrors (s : Session) (live : List Row) : Prop where
  wellFormed : WellFormed s
  unique : Keyed.Unique rowKey live
  stored : ∀ r ∈ live, InRange r → (rowContent r).isSome
  slot : ∀ name i, slot s name i = (find rowKey (name, ((i : Nat) : Int)) live).bind rowContent

theorem mirrors_start : Mirrors Session.start [] := ⟨wellFormed_start, nodup_nil, by simp, fun _ _ => rfl⟩

variable {s : Session} {live : List Row}

theorem inRange_of_key (h : rowKey r = (name, ((i : Nat) : Int))) : InRange r := by
  have hid : r.idx = i := congrArg Prod.snd h
  exact ⟨by omega, by omega⟩

theorem Storable.rowContent (h : Storable r) : (Policy.rowContent r).isSome := by
  rw [Policy.rowContent, Option.isSome_map]
  exact h.convert

theorem inRange_slot (h : InRange r) : ∃ i : Fin fsmMaxPolicies, r.idx = i :=
  ⟨⟨r.idx.toNat, by have := h.2; have := h.1; omega⟩, by have := h.1; simp; omega⟩

theorem rowKey_eq_iff {i j : Fin fsmMaxPolicies} (hi : r.idx = i) :
    rowKey r = (name, ((j : Nat) : Int)) ↔ name = policyName r ∧ j = i := by
  rw [rowKey, Prod.mk.injEq, Fin.ext_iff]
  constructor
  · rintro ⟨rfl, hj⟩
    exact ⟨rfl, by omega⟩
  · rintro ⟨rfl, hj⟩
    exact ⟨rfl, by omega⟩

section

variable (h : Mirrors s live)
include h

/-- A row beyond the array is in no slot: the tables mirror the rows with it and without it. -/
theorem Mirrors.beyond (hr : ¬ InRange r) : Mirrors s (drop rowKey (rowKey r) live) := by
  refine ⟨h.wellFormed, h.unique.drop _, fun r' hr' => h.stored r' (mem_of_mem_filter hr'), ?_⟩
  intro name i
  rw [h.slot, find_drop, if_neg fun hk => hr (inRange_of_key hk.symm)]

theorem Mirrors.added (hn : find rowKey (rowKey r) live = none)
    (hs : InRange r → Storable r) : ∃ s', fsmAddPolicy s r = some s' ∧ Mirrors s' (r :: live) := by
  have hu : Keyed.Unique rowKey (r :: live) := by
    refine nodup_cons.mpr ⟨fun hm => ?_, h.unique⟩
    obtain ⟨r', hr', hk⟩ := mem_map.mp hm
    exact (find_eq_none.mp hn) r' hr' hk
  have hst := forall_mem_cons.mpr ⟨fun hr => (hs hr).rowContent, h.stored⟩
  by_cases hr : InRange r
  · obtain ⟨i, hi⟩ := inRange_slot hr
    have hf : Policy.slot s (policyName r) i = none := by
      rw [h.slot, ← hi]
      exact (congrArg (Option.bind · rowContent) hn :)
    obtain ⟨s', ha, hw', hsl⟩ := fsmAddPolicy_spec h.wellFormed (hs hr) hi hf
    refine ⟨s', ha, hw', hu, hst, ?_⟩
    intro name j
    rw [hsl, find_cons]
    by_cases hk : name = policyName r ∧ j = i
    · rw [if_pos hk, if_pos ((rowKey_eq_iff hi).mpr hk), Option.bind_some]
    · rw [if_neg hk, if_neg fun h' => hk ((rowKey_eq_iff hi).mp h'), h.slot]
  · refine ⟨s, by rw [fsmAddPolicy, slotOf_none.mpr hr], h.wellFormed, hu, hst, ?_⟩
    intro name j
    rw [find_cons, if_neg fun hk => hr (inRange_of_key hk), h.slot]

theorem Mirrors.deleted (hr : InRange r) :
    ∃ s', fsmDeletePolicy s r = some s' ∧ Mirrors s' (drop rowKey (rowKey r) live) := by
  obtain ⟨i, hi⟩ := inRange_slot hr
  obtain ⟨s', hd, hw', hs⟩ := fsmDeletePolicy_spec h.wellFormed hi
  refine ⟨s', hd, hw', h.unique.drop _, fun r' hr' => h.stored r' (mem_of_mem_filter hr'), ?_⟩
  intro name j
  rw [hs, find_drop]
  by_cases hk : name = policyName r ∧ j = i
  · rw [if_pos hk, if_pos ((rowKey_eq_iff hi).mpr hk).symm, Option.bind_none]
  · rw [if_neg hk, if_neg fun h' => hk ((rowKey_eq_iff hi).mp h'.symm), h.slot]

theorem Mirrors.modified {old new : Row} (hse : Sent live (.modify old new)) (hs : EventSafe s (.modify old new)) :
    ∃ s', fsmUpdatePolicy s new = some s' ∧ Mirrors s' (new :: drop rowKey (rowKey old) live) := by
  have hn : drop rowKey (rowKey new) (drop rowKey (rowKey old) live) = drop rowKey (rowKey old) live :=
    filter_eq_self.mpr fun r hr => decide_eq_true (find_eq_none.mp hse.2 r hr)
  unfold fsmUpdatePolicy
  by_cases hr : InRange new
  · -- the slot of the new row is freed and filled again
    obtain ⟨s₁, hd, h₁⟩ : ∃ s₁, fsmDeletePolicy s new = some s₁ ∧ Mirrors s₁ (drop rowKey (rowKey old) live) := by
      by_cases ho : InRange old
      · exact hs.1 ho ▸ h.deleted hr
      · exact hn ▸ (h.beyond ho).deleted hr
    obtain ⟨i, hi⟩ := inRange_slot hr
    simp only [slotOf_eq_some.mpr hi, hd, Option.bind_some]
    exact h₁.added hse.2 hs.2
  · have ho : ¬ InRange old := by
      intro ho
      have hk := congrArg Prod.snd (hs.1 ho)
      exact hr (by unfold InRange at ho ⊢; simp only [rowKey] at hk; rwa [hk])
    obtain ⟨s', ha, hs'⟩ := (h.beyond ho).added hse.2 hs.2
    rw [fsmAddPolicy, slotOf_none.mpr hr] at ha
    rw [slotOf_none.mpr hr]
    exact ⟨s', ha, hs'⟩

theorem Mirrors.stepped {e : Event} (hse : Sent live e) (hs : EventSafe s e) :
    ∃ s', callbackFSMPolicy s e = some s' ∧ Mirrors s' (liveAfter live e) := by
  cases e with
  | insert new => exact h.added hse hs
  | modify old new => exact h.modified hse hs
  | delete old =>
    by_cases hr : InRange old
    · exact h.deleted hr
    · refine ⟨s, ?_, h.beyond hr⟩
      rw [callbackFSMPolicy, fsmDeletePolicy, hs.resolve_left hr]

theorem Mirrors.ran {es : List Event} (hs : AllSent live es) (hsa : RunSafe s es) :
    ∃ s', run s es = some s' ∧ Mirrors s' (liveRows live es) := by
  induction es generalizing s live with
  | nil => exact ⟨s, rfl, h⟩
  | cons e es ih =>
    obtain ⟨s', hst, hs'⟩ := h.stepped hs.1 hsa.1
    rw [run, hst]
    exact ih hs' hs.2 (hsa.2 s' hst)

end

theorem mem_held (hw : WellFormed s) {idx : Int} {c : Content} :
    (name, idx, c) ∈ held s ↔ ∃ i : Fin fsmMaxPolicies, idx = i ∧ slot s name i = some c := by
  simp only [held, mem_flatMap, mem_filterMap, mem_finRange, true_and, Option.map_eq_some_iff, Prod.mk.injEq]
  constructor
  · rintro ⟨t, ht, i, p, hp, rfl, rfl, rfl⟩
    refine ⟨i, rfl, ?_⟩
    rw [slot, find_of_mem hw.names ht, Option.bind_some, hp]
    rfl
  · rintro ⟨i, rfl, hs⟩
    obtain ⟨t, ht, hc⟩ := Option.bind_eq_some_iff.mp hs
    obtain ⟨p, hp, rfl⟩ := Option.map_eq_some_iff.mp hc
    exact ⟨t, mem_of_find ht, i, p, hp, key_of_find ht, rfl, rfl⟩

/-- After a run of safe events no step has read beyond an array, the tables hold a content under a name and an index
just if a row that is there says so, and every row within the array has one. -/
theorem tables_mirror (es : List Event) (hsent : AllSent [] es) (hsafe : RunSafe Session.start es) :
    ∃ s, run Session.start es = some s ∧ (∀ name idx c, (name, idx, c) ∈ held s ↔
        ∃ r ∈ liveRows [] es, InRange r ∧ rowKey r = (name, idx) ∧ rowContent r = some c) ∧
      ∀ r ∈ liveRows [] es, InRange r → ∃ c, (policyName r, r.idx, c) ∈ held s := by
  obtain ⟨s, hru, hs⟩ := mirrors_start.ran hsent hsafe
  have hh : ∀ name idx c, (name, idx, c) ∈ held s ↔
      ∃ r ∈ liveRows [] es, InRange r ∧ rowKey r = (name, idx) ∧ rowContent r = some c := by
    intro name idx c
    rw [mem_held hs.wellFormed]
    constructor
    · rintro ⟨i, rfl, hsl⟩
      rw [hs.slot] at hsl
      obtain ⟨r, hr, hc⟩ := Option.bind_eq_some_iff.mp hsl
      have hk := key_of_find hr
      exact ⟨r, mem_of_find hr, inRange_of_key hk, hk, hc⟩
    · rintro ⟨r, hr, hra, hk, hc⟩
      obtain ⟨i, hi⟩ := inRange_slot hra
      have hid : r.idx = idx := congrArg Prod.snd hk
      refine ⟨i, hid.symm.trans hi, ?_⟩
      rw [hs.slot, ← hi, hid, ← hk, find_of_mem hs.unique hr, Option.bind_some, hc]
  refine ⟨s, hru, hh, ?_⟩
  intro r hr hra
  obtain ⟨c, hc⟩ := Option.isSome_iff_exists.mp (hs.stored r hr hra)
  exact ⟨c, (hh _ _ _).mpr ⟨r, hr, hra, rfl, hc⟩⟩

def macRow (policy : String) (idx : Int) (action : String) : Row :=
  ⟨"r".toList, idx, some policy.toList, some "in".toList, ["00:11:22:33:44:55".toList], none, [], none, [], none, 0,
    none, [], some action.toList, none, [], [], []⟩

def followedRun : List Event :=
  [.insert (macRow "p" 3 "allow"), .modify (macRow "p" 3 "allow") (macRow "p" 3 "drop"),
    .insert (macRow "p" 70 "allow"), .insert (macRow "q" 3 "allow"), .delete (macRow "q" 3 "allow")]

theorem followedRun_mirrored : liveRows [] followedRun = [macRow "p" 70 "allow", macRow "p" 3 "drop"] ∧
    ∃ s, run Session.start followedRun = some s ∧ (∀ name idx c, (name, idx, c) ∈ held s ↔
        ∃ r ∈ liveRows [] followedRun, InRange r ∧ rowKey r = (name, idx) ∧ rowContent r = some c) ∧
      ∀ r ∈ liveRows [] followedRun, InRange r → ∃ c, (policyName r, r.idx, c) ∈ held s :=
  ⟨by decide +kernel, tables_mirror followedRun (by decide +kernel) (by decide +kernel)⟩

/-- A row that moves to another index stays at the old one as well; and a row at the first index makes the search
for the slot below read beyond the array. -/
theorem moved_row_held_twice :
    (run Session.start [.insert (macRow "p" 1 "allow"), .modify (macRow "p" 1 "allow") (macRow "p" 2 "allow")]).map
        (fun s => (held s).map fun e => e.2.1) = some [1, 2] ∧
      (run Session.start [.insert (macRow "p" 0 "allow")]).isNone := by
  decide +kernel

end OpenSync.Fsm.Policy
