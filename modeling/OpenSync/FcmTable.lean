import OpenSync.FcmFilter
import Mathlib.Tactic

/-!
# Tables of flow filters

`fcm_filter_ovsdb.c` keeps the rows of `FCM_Filter` in one table for each name, in an array by their index, and
`fcm_filter_client.c` tells the clients of a name when its table changes. A name is cut to the size of the field that
holds it; of two tables with one name a search is taken to find the newer one. A result `none` stands for an access
outside the array or through `NULL`.
-/

namespace OpenSync.FcmTable
open List Option Function

open Tags (Text)
open Fcm (fcmMaxFilters)

def fcmMaxFilterByName : ℤ := 64
def filterNameSize : ℕ := 32

/-- A row of `FCM_Filter`, with the columns that its conversion looks at; the other ones are copied. -/
structure Row (C : Type) where
  name : Text
  index : ℤ
  appnameOp : Option Text
  apptagOp : Option Text
  columns : C

variable {C : Type}

/-- What `fcm_filter_set_app_names` and `fcm_filter_set_app_tags` make of an operation. -/
def opConverts (op : Option Text) : Bool := op.all fun t => t = "in".toList || t = "out".toList

def Row.converts (row : Row C) : Bool := opConverts row.appnameOp && opConverts row.apptagOp

/-- A client as the manager keeps it. A table is known by its name. -/
structure Client where
  session : ℕ
  name : Text
  table : Option Text
  updateClient : Bool
  deriving DecidableEq

abbrev LookupArray (C : Type) := Fin fcmMaxFilters → Option (Row C)

structure Mgr (C : Type) where
  fcmFilters : Text → Option (LookupArray C)
  clients : List Client

def Mgr.empty : Mgr C := ⟨fun _ => none, []⟩

def slot (index : ℤ) : Option (Fin fcmMaxFilters) :=
  if h : 0 ≤ index ∧ index < fcmMaxFilters then some ⟨index.toNat, by omega⟩ else none

/-! ## Rows -/

def fcmFilterUpdateClients (clients : List Client) (table : Text) : List (ℕ × Text) :=
  (clients.filter fun client => client.name = table && client.updateClient).map fun client => (client.session, table)

/-- The table with the row in it, once there is room for it, and who is told. -/
def fcmFilterGet (m : Mgr C) (row : Row C) (i : Fin fcmMaxFilters) : Mgr C × List (ℕ × Text) :=
  let (table, array) :=
    match m.fcmFilters row.name with
    | some array => (row.name, array)
    | none => (row.name.take (filterNameSize - 1), fun _ => none)
  let m := { m with fcmFilters := Function.update m.fcmFilters table (some array) }
  if (array i).isSome then (m, [])
  else
    let array := Function.update array i (if row.converts then some row else none)
    ({ m with fcmFilters := Function.update m.fcmFilters table (some array) }, fcmFilterUpdateClients m.clients table)

def fcmAddFilter (m : Mgr C) (row : Row C) : Mgr C × List (ℕ × Text) :=
  match slot row.index with
  | none => (m, [])
  | some i => fcmFilterGet m row i

/-- `fcm_filter_lookup` writes to the filter that it has found, and `fcm_free_filter` clears the filter's own index. -/
def fcmDeleteFilter (m : Mgr C) (row : Row C) : Option (Mgr C) :=
  match m.fcmFilters row.name with
  | none => some m
  | some array => do
    let i ← slot row.index
    let filter ← array i
    let j ← slot filter.index
    some { m with fcmFilters := Function.update m.fcmFilters row.name (some (Function.update array j none)) }

/-- The old row is not looked at. -/
def fcmUpdateFilter (m : Mgr C) (row : Row C) : Option (Mgr C) :=
  if row.index < 0 ∨ fcmMaxFilterByName ≤ row.index then some m
  else (fcmDeleteFilter m row).map fun m => (fcmAddFilter m row).1

inductive Event (C : Type)
  | insert (row : Row C)
  | delete (row : Row C)
  | modify (old row : Row C)

def callbackFcmFilter (m : Mgr C) : Event C → Option (Mgr C)
  | .insert row => some (fcmAddFilter m row).1
  | .delete row => fcmDeleteFilter m row
  | .modify _ row => fcmUpdateFilter m row

def run (events : List (Event C)) : Option (Mgr C) := events.foldlM callbackFcmFilter .empty

/-! ## Specification -/

def Row.key (row : Row C) : Text × ℤ := (row.name, row.index)

def Row.Storable (row : Row C) : Prop := row.converts = true ∧ (slot row.index).isSome = true

namespace Event

def live (rows : Set (Row C)) : Event C → Set (Row C)
  | .insert row => rows ∪ {row}
  | .delete row => rows \ {row}
  | .modify old row => rows \ {old} ∪ {row}

/-- What the database may tell: no name and index of two live rows. -/
def Valid (rows : Set (Row C)) : Event C → Prop
  | .insert row => ∀ r ∈ rows, r.key ≠ row.key
  | .delete row => row ∈ rows
  | .modify old row => old ∈ rows ∧ ∀ r ∈ rows \ {old}, r.key ≠ row.key

/-- A name that fits for a row that gets a place. A row is deleted that has one, or whose name has no table. A row that
has a place keeps its name and index when it changes, and a row that has none does not come to a name with a table. -/
def Safe (m : Mgr C) : Event C → Prop
  | .insert row => (slot row.index).isSome = true → row.name.length < filterNameSize
  | .delete row => row.Storable ∨ m.fcmFilters row.name = none
  | .modify old row =>
    ((slot row.index).isSome = true → row.name.length < filterNameSize) ∧ (old.Storable → old.key = row.key) ∧
      (old.Storable ∨ row.index < 0 ∨ fcmMaxFilterByName ≤ row.index ∨ m.fcmFilters row.name = none)

end Event

def rows (events : List (Event C)) : Set (Row C) := events.foldl Event.live ∅

/-- Each table holds the live rows of its name that can be converted, each at its index. -/
structure Mirror (m : Mgr C) (rows : Set (Row C)) : Prop where
  holds : ∀ name array, m.fcmFilters name = some array → ∀ i row, array i = some row ↔
    row ∈ rows ∧ row.converts = true ∧ row.name = name ∧ slot row.index = some i
  exist : ∀ row ∈ rows, row.Storable → (m.fcmFilters row.name).isSome = true

def Stored (m : Mgr C) (row : Row C) : Prop := ∃ array i, m.fcmFilters row.name = some array ∧ array i = some row

/-! ## One event -/

variable {i : Fin fcmMaxFilters}

theorem slot_eq_some {index : ℤ} : slot index = some i ↔ index = (i : ℕ) := by
  unfold slot
  split_ifs with h
  · rw [some.injEq, Fin.ext_iff]
    dsimp only
    omega
  · simp only [false_iff]
    omega

variable {m : Mgr C} {rows : Set (Row C)} {row : Row C}

theorem key_eq {r : Row C} (hn : r.name = row.name) (hr : slot r.index = some i)
    (hro : slot row.index = some i) : r.key = row.key :=
  Prod.ext hn ((slot_eq_some.1 hr).trans (slot_eq_some.1 hro).symm)

theorem Row.storable_of_slot (hc : row.converts = true)
    (hs : slot row.index = some i) : row.Storable := ⟨hc, by rw [hs]; rfl⟩

variable {rows' : Set (Row C)}

theorem Mirror.congr (h : Mirror m rows) (hro : ∀ r : Row C, r.Storable → (r ∈ rows ↔ r ∈ rows')) : Mirror m rows' := by
  refine ⟨fun name array ha i r => (h.holds name array ha i r).trans ?_, fun r hr hs => ?_⟩
  · refine and_congr_left fun ⟨hc, _, hsl⟩ => hro r ?_
    exact Row.storable_of_slot hc hsl
  · exact h.exist r ((hro r hs).2 hr) hs

def Mgr.array (m : Mgr C) (name : Text) : LookupArray C := (m.fcmFilters name).getD fun _ => none

theorem Mirror.array (h : Mirror m rows) (name : Text) (i : Fin fcmMaxFilters) (row : Row C) :
    m.array name i = some row ↔ row ∈ rows ∧ row.converts = true ∧ row.name = name ∧ slot row.index = some i := by
  unfold Mgr.array
  cases ha : m.fcmFilters name with
  | some array => exact h.holds name array ha i row
  | none =>
    refine iff_of_false (by simp) ?_
    rintro ⟨hr, hc, rfl, hs⟩
    have hex := h.exist row hr (Row.storable_of_slot hc hs)
    simp [ha] at hex

theorem Mirror.updated (h : Mirror m rows) {m' : Mgr C} {name : Text} {array : LookupArray C}
    (hfi : m'.fcmFilters = Function.update m.fcmFilters name (some array))
    (ho : ∀ r : Row C, r.name ≠ name → (r ∈ rows' ↔ r ∈ rows)) (ha : ∀ i r, array i = some r ↔
      r ∈ rows' ∧ r.converts = true ∧ r.name = name ∧ slot r.index = some i) : Mirror m' rows' := by
  constructor
  · intro name' array' hf i r
    rw [hfi] at hf
    by_cases heq : name' = name
    · subst heq
      rw [update_self, some.injEq] at hf
      rw [← hf]
      exact ha i r
    · rw [update_of_ne heq] at hf
      rw [h.holds name' array' hf i r]
      refine and_congr_left fun ⟨_, hn, _⟩ => (ho r ?_).symm
      rwa [hn]
  · intro r hr hs
    rw [hfi]
    by_cases heq : r.name = name
    · rw [heq, update_self]
      rfl
    · rw [update_of_ne heq]
      exact h.exist r ((ho r heq).1 hr) hs

theorem fcmFilterGet_filters (hn : row.name.take (filterNameSize - 1) = row.name) (hem : m.array row.name i = none) :
    (fcmFilterGet m row i).1.fcmFilters = Function.update m.fcmFilters row.name
      (some (Function.update (m.array row.name) i (if row.converts then some row else none))) := by
  unfold Mgr.array at hem ⊢
  unfold fcmFilterGet
  cases ha : m.fcmFilters row.name with
  | some array =>
    rw [ha] at hem
    simp [show array i = none from hem]
  | none => simp [hn]

theorem Mirror.added (h : Mirror m rows) (hf : ∀ r ∈ rows, r.key ≠ row.key)
    (hsh : (slot row.index).isSome = true → row.name.length < filterNameSize) :
    Mirror (fcmAddFilter m row).1 (rows ∪ {row}) := by
  unfold fcmAddFilter
  cases hs : slot row.index with
  | none =>
    refine h.congr fun r hst => ?_
    have hne : r ≠ row := by
      rintro rfl
      rw [Row.Storable, hs] at hst
      exact Bool.false_ne_true hst.2
    simp [hne]
  | some i =>
    have hn : row.name.take (filterNameSize - 1) = row.name := by
      have hlt := hsh (by rw [hs]; rfl)
      exact take_of_length_le (by unfold filterNameSize at hlt ⊢; omega)
    have hem : m.array row.name i = none := by
      rw [eq_none_iff_forall_ne_some]
      intro r hr
      obtain ⟨hm, -, hrn, hrs⟩ := (h.array row.name i r).1 hr
      exact hf r hm (key_eq hrn hrs hs)
    refine h.updated (fcmFilterGet_filters hn hem) (fun r hne => ?_) fun j r => ?_
    · have hne' : r ≠ row := fun heq => hne (congrArg Row.name heq)
      simp [hne']
    · rw [update_apply]
      by_cases hj : j = i
      · subst hj
        rw [if_pos rfl]
        constructor
        · intro hr
          by_cases hc : row.converts = true
          · rw [if_pos hc, some.injEq] at hr
            exact hr ▸ ⟨.inr rfl, hc, rfl, hs⟩
          · rw [if_neg hc] at hr
            cases hr
        · rintro ⟨hr, hc, hrn, hrs⟩
          rcases hr with hr | rfl
          · exact absurd (key_eq hrn hrs hs) (hf r hr)
          · rw [if_pos hc]
      · rw [if_neg hj, h.array row.name j r]
        refine and_congr_left fun ⟨_, _, hrs⟩ => (or_iff_left fun heq => hj ?_).symm
        rw [Set.mem_singleton_iff.1 heq, hs, some.injEq] at hrs
        exact hrs.symm

theorem Mirror.deleted (h : Mirror m rows) (hu : ∀ r ∈ rows, ∀ q ∈ rows, r.key = q.key → r = q)
    (hro : row ∈ rows) (hst : row.Storable) : ∃ m', fcmDeleteFilter m row = some m' ∧ Mirror m' (rows \ {row}) := by
  obtain ⟨array, ha⟩ := isSome_iff_exists.1 (h.exist row hro hst)
  obtain ⟨i, hs⟩ := isSome_iff_exists.1 hst.2
  have hf : array i = some row := (h.holds row.name array ha i row).2 ⟨hro, hst.1, rfl, hs⟩
  refine ⟨{ m with fcmFilters := update m.fcmFilters row.name (some (update array i none)) },
    by simp [fcmDeleteFilter, ha, hs, hf], h.updated rfl (fun r hne => ?_) fun j r => ?_⟩
  · have hne' : r ≠ row := fun heq => hne (congrArg Row.name heq)
    simp [hne']
  · rw [update_apply]
    by_cases hj : j = i
    · subst hj
      refine iff_of_false (by simp) ?_
      rintro ⟨⟨hr, hne⟩, -, hrn, hrs⟩
      exact hne (hu r hr row hro (key_eq hrn hrs hs))
    · rw [if_neg hj, h.holds row.name array ha j r]
      refine and_congr_left fun ⟨_, _, hrs⟩ => (and_iff_left fun heq => hj ?_).symm
      rw [Set.mem_singleton_iff.1 heq, hs, some.injEq] at hrs
      exact hrs.symm

structure Inv (m : Mgr C) (rows : Set (Row C)) : Prop where
  mirror : Mirror m rows
  unique : ∀ r ∈ rows, ∀ q ∈ rows, r.key = q.key → r = q

theorem unique_union (hu : ∀ r ∈ rows, ∀ q ∈ rows, r.key = q.key → r = q) (hf : ∀ r ∈ rows, r.key ≠ row.key) :
    ∀ r ∈ rows ∪ {row}, ∀ q ∈ rows ∪ {row}, r.key = q.key → r = q := by
  rintro r (hr | rfl) q (hq | rfl) hk
  · exact hu r hr q hq hk
  · exact absurd hk (hf r hr)
  · exact absurd hk.symm (hf q hq)
  · rfl

theorem Inv.stepped {e : Event C} (h : Inv m rows) (hv : e.Valid rows) (hsa : e.Safe m) :
    ∃ m', callbackFcmFilter m e = some m' ∧ Inv m' (e.live rows) := by
  have hdi (old : Row C) : ∀ r ∈ rows \ {old}, ∀ q ∈ rows \ {old}, r.key = q.key → r = q :=
    fun r hr q hq => h.unique r hr.1 q hq.1
  have hdro {old : Row C} (hno : ¬ old.Storable) : Mirror m (rows \ {old}) :=
    h.mirror.congr fun r hs => (and_iff_left (by rintro rfl; exact hno hs)).symm
  cases e with
  | insert row => exact ⟨_, rfl, h.mirror.added hv hsa, unique_union h.unique hv⟩
  | delete row =>
    by_cases hs : row.Storable
    · obtain ⟨m', hd, hm⟩ := h.mirror.deleted h.unique hv hs
      exact ⟨m', hd, hm, hdi row⟩
    · have ht := hsa.resolve_left hs
      exact ⟨m, by simp [callbackFcmFilter, fcmDeleteFilter, ht], hdro hs, hdi row⟩
  | modify old row =>
    obtain ⟨ho, hf⟩ := hv
    obtain ⟨hsh, hk, hp⟩ := hsa
    have hu := unique_union (hdi old) hf
    by_cases hs : old.Storable
    · obtain ⟨hn, hin⟩ := Prod.mk.inj (hk hs)
      obtain ⟨m', hd, hm⟩ := h.mirror.deleted h.unique ho hs
      obtain ⟨i, hsl⟩ := isSome_iff_exists.1 hs.2
      have hra : ¬ (row.index < 0 ∨ fcmMaxFilterByName ≤ row.index) := by
        have hi : i.val < 60 := i.isLt
        rw [← hin, slot_eq_some.1 hsl]
        unfold fcmMaxFilterByName
        omega
      have hd' : fcmDeleteFilter m row = some m' := by
        rw [← hd, fcmDeleteFilter, fcmDeleteFilter, hn, hin]
      exact ⟨_, by rw [callbackFcmFilter, fcmUpdateFilter, if_neg hra, hd', map_some], hm.added hf hsh, hu⟩
    · rw [callbackFcmFilter, fcmUpdateFilter]
      by_cases hra : row.index < 0 ∨ fcmMaxFilterByName ≤ row.index
      · refine ⟨m, if_pos hra, (hdro hs).congr fun r hr => ?_, hu⟩
        refine (or_iff_left ?_).symm
        rintro rfl
        obtain ⟨i, hsl⟩ := isSome_iff_exists.1 hr.2
        have hi : i.val < 60 := i.isLt
        rw [slot_eq_some.1 hsl, fcmMaxFilterByName] at hra
        omega
      · have ht : m.fcmFilters row.name = none := by
          rcases hp with hst | hlt | hge | ht
          · exact absurd hst hs
          · exact absurd (.inl hlt) hra
          · exact absurd (.inr hge) hra
          · exact ht
        refine ⟨_, by rw [if_neg hra, fcmDeleteFilter, ht, map_some], ?_, hu⟩
        exact (hdro hs).added hf hsh

/-! ## Runs -/

theorem Mirror.stored (h : Mirror m rows) (hr : row ∈ rows) (hs : row.Storable) : Stored m row := by
  obtain ⟨array, ha⟩ := isSome_iff_exists.1 (h.exist row hr hs)
  obtain ⟨i, hsl⟩ := isSome_iff_exists.1 hs.2
  exact ⟨array, i, ha, (h.holds row.name array ha i row).2 ⟨hr, hs.1, rfl, hsl⟩⟩

def SafeRun (events : List (Event C)) : Prop :=
  ∀ before e after, events = before ++ e :: after → e.Valid (FcmTable.rows before) ∧ ∀ m, run before = some m → e.Safe m

theorem SafeRun.inv {events : List (Event C)} (h : SafeRun events) :
    ∃ m, run events = some m ∧ Inv m (FcmTable.rows events) := by
  induction events using reverseRecOn with
  | nil => exact ⟨.empty, rfl, ⟨fun _ _ h => (nomatch h), fun _ h => h.elim⟩, fun _ h => h.elim⟩
  | append_singleton events e ih =>
    obtain ⟨m, hr, hin⟩ := ih fun before e' after heq => h before e' (after ++ [e]) (by simp [heq])
    obtain ⟨hv, hs⟩ := h events e [] rfl
    obtain ⟨m', hst, hi'⟩ := hin.stepped hv (hs m hr)
    refine ⟨m', ?_, ?_⟩
    · rw [run, foldlM_append, ← run, hr]
      simpa using hst
    · rwa [FcmTable.rows, foldl_concat]

/-- In a run whose events are all safe no access leaves an array, the tables mirror the live rows, and deleting a row
that is in no table changes nothing. -/
theorem tables_mirror_rows (events : List (Event C)) (h : SafeRun events) :
    (∃ m, run events = some m ∧ Mirror m (FcmTable.rows events)) ∧
      ∀ before row after, events = before ++ .delete row :: after → ∀ m, run before = some m → ¬ Stored m row →
        callbackFcmFilter m (.delete row) = some m := by
  constructor
  · obtain ⟨m, hr, hin⟩ := h.inv
    exact ⟨m, hr, hin.mirror⟩
  · intro before row after heq m hr hn
    obtain ⟨hv, hs⟩ := h before _ after heq
    have hbe : SafeRun before := fun b e a hb => h b e (a ++ .delete row :: after) (by simp [heq, hb])
    obtain ⟨m', hr', hin⟩ := hbe.inv
    obtain rfl := some.inj (hr.symm.trans hr')
    have ht := (hs m hr).resolve_left fun hst => hn (hin.mirror.stored hv hst)
    simp [callbackFcmFilter, fcmDeleteFilter, ht]

def lateRow (op : String) : Row Unit := ⟨"late".toList, 3, some op.toList, none, ()⟩

theorem tables_mirror_rows_late : SafeRun [.insert (lateRow "in")] ∧
    ∃ m, run [.insert (lateRow "in")] = some m ∧ Mirror m (FcmTable.rows [.insert (lateRow "in")]) := by
  have hs : SafeRun [Event.insert (lateRow "in")] := by
    intro before e after heq
    obtain ⟨rfl, rfl, rfl⟩ : before = [] ∧ e = .insert (lateRow "in") ∧ after = [] := by
      rcases before with _ | ⟨b, before⟩ <;> simp_all
    exact ⟨fun _ h => h.elim, fun _ _ _ => by decide⟩
  exact ⟨hs, (tables_mirror_rows _ hs).1⟩

/-- A row that cannot be converted leaves a table with nothing at its index, and deleting it writes through `NULL`. -/
theorem rejected_row_deleted : (lateRow "like").converts = false ∧ (run [.insert (lateRow "like")]).isSome = true ∧
    run [.insert (lateRow "like"), .delete (lateRow "like")] = none := by
  refine ⟨by decide, rfl, ?_⟩
  decide +kernel

end OpenSync.FcmTable
