import OpenSync.Ovsdb

/-!
# Update notifications

`ovsdb_update_parse_next` leaves its two loops at each row and is entered again behind the place where it left them.
-/

namespace OpenSync.Ovsdb
open List Option

/-- A JSON value seen as an object, none if it is another value. -/
abbrev Object (β : Type) := Option (List (Text × β))

/-- `"old"` and `"new"` of each row of each table. -/
abbrev Tables (J : Type) := List (Text × Object (Object (Object J)))

/-- `ovsdb_update_parse_t`; an iterator is what is left of its object, the current element first. -/
structure Parse (J : Type) where
  jtable : Tables J
  itable : Tables J
  irow : List (Text × Object (Object J))
  uuid : Text
  jnew : Option (Object J)
  jold : Option (Object J)

inductive UpdateType
  | error | new | modify | del

/-- What the callback finds in the monitor. -/
structure Monitor (J : Type) where
  type : UpdateType
  table : Option Text
  uuid : Option Text
  new : Option (List (Text × J))
  old : Option (List (Text × J))

variable {J : Type}

section

variable (p : Parse J)

def parseRow (itable : Tables J) (irow : List (Text × Object (Object J))) (uuid : Text) (jdata : Object (Object J)) :
    Option (Parse J) :=
  jdata.map fun data =>
    { p with itable, irow, uuid, jnew := data.lookup "new".toList, jold := data.lookup "old".toList }

def parseTables : Tables J → Option (Parse J)
  | [] => none
  | (_, none) :: _ => none
  | (_, some []) :: tables => parseTables tables
  | (table, some ((uuid, jdata) :: rows)) :: tables =>
    parseRow p ((table, some ((uuid, jdata) :: rows)) :: tables) ((uuid, jdata) :: rows) uuid jdata

def parseNext : Option (Parse J) :=
  match p.itable with
  | [] => parseTables p p.jtable
  | _ :: tables =>
    match p.irow.tail with
    | [] => parseTables p tables
    | (uuid, jdata) :: rows => parseRow p p.itable ((uuid, jdata) :: rows) uuid jdata

def updateType : UpdateType :=
  if p.jold.isNone ∧ p.jnew.isSome then .new
  else if p.jold.isSome ∧ p.jnew.isSome then .modify
  else if p.jold.isSome ∧ p.jnew.isNone then .del
  else .error

end

def objectSet (key : Text) (value : J) : List (Text × J) → List (Text × J)
  | [] => [(key, value)]
  | c :: object => if c.1 = key then (key, value) :: object else c :: objectSet key value object

/-- Only an object takes a further column. -/
def addUuid (juuid : J) : Option (Object J) → Option (Option (List (Text × J)))
  | none => some none
  | some json => json.map fun object => some (objectSet "_uuid".toList juuid object)

variable (ovsUuid : Text → J)

def monitorRow (p : Parse J) : Option (Monitor J) := do
  let new ← addUuid (ovsUuid p.uuid) p.jnew
  let old ← addUuid (ovsUuid p.uuid) p.jold
  some ⟨updateType p, p.itable.head?.map Prod.fst, some p.uuid, new, old⟩

def processLoop : ℕ → Parse J → Option (List (Monitor J))
  | 0, _ => none
  | fuel + 1, p =>
    match parseNext p with
    | none => some []
    | some p => (processLoop fuel p).map ((monitorRow ovsUuid p).toList ++ ·)

/-- The calls of the callback. -/
def monitorProcess (fuel : ℕ) : Object (Object (Object (Object J))) → Option (List (Monitor J))
  | none => some [⟨.error, none, none, none, none⟩]
  | some jtable => processLoop ovsUuid fuel ⟨jtable, [], [], [], none, none⟩

/-! ## What an update says -/

/-- A row of an update: its table, its uuid, and the two objects. -/
structure Row (J : Type) where
  table : Text
  uuid : Text
  data : List (Text × Object J)

def Row.column (row : Row J) (key : Text) : Option (Object J) := row.data.lookup key

def tableRows (table : Text) (rows : List (Text × Object (Object J))) : List (Row J) :=
  rows.map fun r => ⟨table, r.1, r.2.getD []⟩

def rowsOf (tables : Tables J) : List (Row J) := tables.flatMap fun t => tableRows t.1 (t.2.getD [])

structure WellFormedRow (jdata : Object (Object J)) : Prop where
  isSome : jdata.isSome
  new : (jdata.getD []).lookup "new".toList ≠ some none
  old : (jdata.getD []).lookup "old".toList ≠ some none

def WellFormed (tables : Tables J) : Prop :=
  ∀ t ∈ tables, ∃ rows, t.2 = some rows ∧ ∀ r ∈ rows, WellFormedRow r.2

def columns (object : List (Text × J)) (key : Text) : Option J := object.lookup key

/-- The call for a row. -/
structure Delivers (row : Row J) (m : Monitor J) : Prop where
  table : m.table = some row.table
  uuid : m.uuid = some row.uuid
  type : m.type = match row.column "old".toList, row.column "new".toList with
    | none, none => .error
    | none, some _ => .new
    | some _, some _ => .modify
    | some _, none => .del
  new : m.new.map columns = (row.column "new".toList).map fun json =>
    Function.update (columns (json.getD [])) "_uuid".toList (some (ovsUuid row.uuid))
  old : m.old.map columns = (row.column "old".toList).map fun json =>
    Function.update (columns (json.getD [])) "_uuid".toList (some (ovsUuid row.uuid))

theorem columns_objectSet (key : Text) (value : J) (object : List (Text × J)) :
    columns (objectSet key value object) = Function.update (columns object) key (some value) := by
  funext k
  simp only [columns, Function.update_apply]
  induction object with
  | nil => grind [objectSet]
  | cons c object ih => grind [objectSet]

theorem addUuid_spec (juuid : J) {json : Option (Object J)} (h : json ≠ some none) : ∃ r, addUuid juuid json = some r ∧
      r.map columns = json.map fun json => Function.update (columns (json.getD [])) "_uuid".toList (some juuid) := by
  match json, h with
  | none, _ => exact ⟨none, rfl, rfl⟩
  | some (some object), _ => exact ⟨_, rfl, congrArg some (columns_objectSet ..)⟩
  | some none, h => exact absurd rfl h

variable {p : Parse J} {tables : Tables J} {row : Row J} {rows : List (Row J)}

/-- The parser stands at the row, and these come after it. -/
structure At (p : Parse J) (row : Row J) (rest : List (Row J)) : Prop where
  table : p.itable.head?.map Prod.fst = some row.table
  uuid : p.uuid = row.uuid
  new : p.jnew = row.column "new".toList
  old : p.jold = row.column "old".toList
  formed : WellFormedRow (some row.data)
  wellFormed : WellFormed p.itable
  rest : rest = tableRows row.table p.irow.tail ++ rowsOf p.itable.tail
  rows : ∀ r ∈ p.irow.tail, WellFormedRow r.2

theorem At.delivers {rest : List (Row J)} (h : At p row rest) :
    ∃ m, monitorRow ovsUuid p = some m ∧ Delivers ovsUuid row m := by
  obtain ⟨new, hn, hnew⟩ := addUuid_spec (ovsUuid row.uuid) h.formed.new
  obtain ⟨old, ho, hold⟩ := addUuid_spec (ovsUuid row.uuid) h.formed.old
  have hm : monitorRow ovsUuid p = some ⟨updateType p, p.itable.head?.map Prod.fst, some p.uuid, new, old⟩ := by
    rw [monitorRow, h.new, h.old, h.uuid]
    exact bind_eq_some_iff.mpr ⟨new, hn, bind_eq_some_iff.mpr ⟨old, ho, rfl⟩⟩
  refine ⟨_, hm, h.table, congrArg some h.uuid, ?_, hnew, hold⟩
  simp only [updateType, h.new, h.old]
  cases row.column "old".toList <;> cases row.column "new".toList <;> rfl

/-- The parser finds these rows next. -/
def Finds (found : Option (Parse J)) : List (Row J) → Prop
  | [] => found = none
  | row :: rest => ∃ p, found = some p ∧ At p row rest

theorem parseRow_finds {table uuid : Text} {jdata : Object (Object J)} {irow : List (Text × Object (Object J))}
    {jrow : Object (Object (Object J))} (ht : WellFormed ((table, jrow) :: tables))
    (hr : ∀ r ∈ (uuid, jdata) :: irow, WellFormedRow r.2) :
    Finds (parseRow p ((table, jrow) :: tables) ((uuid, jdata) :: irow) uuid jdata)
      (tableRows table ((uuid, jdata) :: irow) ++ rowsOf tables) := by
  have hd := hr _ mem_cons_self
  obtain ⟨data, rfl⟩ := Option.isSome_iff_exists.mp hd.isSome
  exact ⟨_, rfl, rfl, rfl, rfl, rfl, hd, ht, rfl, fun r hm => hr r (mem_cons_of_mem _ hm)⟩

theorem parseTables_finds (h : WellFormed tables) : Finds (parseTables p tables) (rowsOf tables) := by
  induction tables with
  | nil => rfl
  | cons t tables ih =>
    obtain ⟨table, jrow⟩ := t
    obtain ⟨irow, rfl, hr⟩ := h _ mem_cons_self
    cases irow with
    | nil => exact ih fun t ht => h t (mem_cons_of_mem _ ht)
    | cons r irow => exact parseRow_finds h hr

theorem At.finds {rest : List (Row J)} (h : At p row rest) : Finds (parseNext p) rest := by
  obtain ⟨jtable, itable, irow, uuid, jnew, jold⟩ := p
  obtain ⟨ht, -, -, -, -, hw, rfl, hr⟩ := h
  cases itable with
  | nil => cases ht
  | cons t tables =>
    obtain ⟨table, jrow⟩ := t
    obtain rfl : table = row.table := Option.some_inj.mp ht
    simp only [parseNext, tail_cons] at hr ⊢
    cases hi : irow.tail with
    | nil => exact parseTables_finds fun t ht => hw t (mem_cons_of_mem _ ht)
    | cons r irow =>
      rw [hi] at hr
      exact parseRow_finds hw hr

theorem processLoop_delivers {fuel : ℕ} (h : Finds (parseNext p) rows) (hf : rows.length < fuel) :
    ∃ calls, processLoop ovsUuid fuel p = some calls ∧ Forall₂ (Delivers ovsUuid) rows calls := by
  obtain ⟨fuel, rfl⟩ := Nat.exists_eq_add_of_lt hf
  induction rows generalizing p with
  | nil =>
    have hn : parseNext p = none := h
    exact ⟨[], by simp [processLoop, hn], .nil⟩
  | cons row rest ih =>
    obtain ⟨p', hn, hp⟩ := h
    obtain ⟨m, hm, hd⟩ := hp.delivers ovsUuid
    obtain ⟨calls, hc, hall⟩ := ih hp.finds (by omega)
    refine ⟨m :: calls, ?_, .cons hd hall⟩
    rw [processLoop, hn, length_cons, Nat.add_right_comm]
    simp [hm, hc]

theorem update_delivered_once {jtable : Tables J} (h : WellFormed jtable) :
    ∃ n, ∀ fuel ≥ n, ∃ calls, monitorProcess ovsUuid fuel (some jtable) = some calls ∧
      Forall₂ (Delivers ovsUuid) (rowsOf jtable) calls :=
  ⟨_, fun _ hf => processLoop_delivers ovsUuid (parseTables_finds h) hf⟩

def newBridge : Tables Text :=
  [("Port".toList, some []), ("Bridge".toList, some [("a".toList, some [("new".toList, some [])])])]

theorem newBridge_delivered : WellFormed newBridge ∧
    ∃ n, ∀ fuel ≥ n, ∃ calls, monitorProcess id fuel (some newBridge) = some calls ∧
      Forall₂ (Delivers id) (rowsOf newBridge) calls := by
  have h : WellFormed newBridge := by
    simp only [WellFormed, newBridge, forall_mem_cons]
    exact ⟨⟨_, rfl, by simp⟩, ⟨_, rfl, fun r hr => mem_singleton.mp hr ▸ ⟨rfl, by decide, by decide⟩⟩, by simp⟩
  exact ⟨h, update_delivered_once id h⟩

end OpenSync.Ovsdb
