import OpenSync.Forest

/-!
# Units of an interface

`inet_unit.c` keeps the services of an interface in a tree of units: a unit runs only while the unit it depends
on runs. Requests set flags; a commit first walks the tree to stop what has to stop, on the way up, and then
walks it again to start what has to start, on the way down. The callback that does the work may fail.

The pointer of a unit is its position in the tree. The trace of callbacks is kept newest first.
-/

namespace OpenSync.Inet

open Forest

structure InetUnit where
  unId : Int
  unStatus : Bool
  unEnabled : Bool
  unPending : Bool
  unError : Bool
  deriving DecidableEq, Repr

/-- The trees below a unit; a tree of units is a forest of one. -/
abbrev Units := Forest InetUnit

/-- A new unit, by `inet_unit` or, started by default, by `inet_unit_s`. -/
def newUnit (id : Int) (started : Bool) : InetUnit := ⟨id, started, false, started, false⟩

def inetUnit (id : Int) : InetUnit := newUnit id false

def inetUnitS (id : Int) : InetUnit := newUnit id true

/-! ## The walk -/

/-- The function of a walk: the parent is read through `un_parent`, the flag tells the way down. -/
abbrev WalkFn (σ : Type) := Option InetUnit → Position → InetUnit → σ → Bool → Bool × InetUnit × σ

structure Walked (σ : Type) where
  retval : Bool
  units : Units
  ctx : σ

/-- Siblings are all visited; a failed entry is not descended into, and a unit is left only after a
successful visit of everything below it. -/
@[grind =] def inetUnitWalk {σ : Type} (fn : WalkFn σ) (parent : Option InetUnit) (up : Position) :
    Nat → Units → σ → Walked σ
  | _, .nil, ctx => ⟨true, .nil, ctx⟩
  | i, .cons unit deps rest, ctx =>
    let entry := fn parent (i :: up) unit ctx true
    if entry.1 then
      let below := inetUnitWalk fn (some entry.2.1) (i :: up) 0 deps entry.2.2
      if below.retval then
        let leave := fn parent (i :: up) entry.2.1 below.ctx false
        let siblings := inetUnitWalk fn parent up (i + 1) rest leave.2.2
        ⟨leave.1 && siblings.retval, .cons leave.2.1 below.units siblings.units, siblings.ctx⟩
      else
        let siblings := inetUnitWalk fn parent up (i + 1) rest below.ctx
        ⟨false, .cons entry.2.1 below.units siblings.units, siblings.ctx⟩
    else
      let siblings := inetUnitWalk fn parent up (i + 1) rest entry.2.2
      ⟨false, .cons entry.2.1 deps siblings.units, siblings.ctx⟩

/-! ## Requests -/

def findFn (id : Int) : WalkFn (Option (Position × InetUnit)) := fun _ p unit result descend =>
  if !descend then (true, unit, result)
  else if unit.unId = id then (false, unit, some (p, unit))
  else (true, unit, result)

def inetUnitFind (units : Units) (id : Int) : Option (Position × InetUnit) :=
  let walked := inetUnitWalk (findFn id) none [] 0 units none
  if walked.retval then none else walked.ctx

/-- `pu->un_enabled = true`. -/
def enableAt (p : Position) (units : Units) : Units :=
  units.modifyAt p (fun unit deps => ({ unit with unEnabled := true }, deps)) [] 0

def inetUnitStart (units : Units) (id : Int) : Bool × Units :=
  match inetUnitFind units id with
  | none => (false, units)
  | some (p, _) => (true, enableAt p units)

def stopFn : WalkFn PUnit := fun _ _ unit ctx descend =>
  (true, if descend then { unit with unPending := true } else unit, ctx)

def stopTree (unit : InetUnit) (deps : Units) : InetUnit × Units :=
  match (inetUnitWalk stopFn none [] 0 (.cons { unit with unEnabled := false } deps .nil) ⟨⟩).units with
  | .cons unit' deps' _ => (unit', deps')
  | .nil => (unit, deps)

def stopAt (p : Position) (units : Units) : Units := units.modifyAt p stopTree [] 0

def inetUnitStop (units : Units) (id : Int) : Bool × Units :=
  match inetUnitFind units id with
  | none => (false, units)
  | some (p, _) => (true, stopAt p units)

def inetUnitRestart (units : Units) (id : Int) (startIfStopped : Bool) : Bool × Units :=
  match inetUnitFind units id with
  | none => (false, units)
  | some (_, pu) =>
    if startIfStopped || pu.unEnabled then
      let stopped := inetUnitStop units id
      if !stopped.1 then (false, stopped.2)
      else
        let started := inetUnitStart stopped.2 id
        if !started.1 then (false, started.2) else (true, started.2)
    else (true, units)

def inetUnitEnable (units : Units) (id : Int) (enable : Bool) : Bool × Units :=
  if enable then inetUnitStart units id else inetUnitStop units id

/-! ## The commit -/

structure Call where
  unit : Position
  id : Int
  enable : Bool
  ok : Bool
  deriving DecidableEq, Repr

/-- A callback may depend on what was called before. -/
abbrev CommitFn := List Call → Int → Bool → Bool

def commitStart (fn : CommitFn) : WalkFn (List Call) := fun parent p unit trace descend =>
  if !descend then (true, unit, trace)
  else if parent.any fun q => !q.unStatus then (true, unit, trace)
  else if !unit.unEnabled || unit.unStatus then (true, unit, trace)
  else
    let ok := fn trace unit.unId true
    (ok, { unit with unError := !ok, unStatus := true, unPending := false }, ⟨p, unit.unId, true, ok⟩ :: trace)

def commitStop (fn : CommitFn) : WalkFn (List Call) := fun _ p unit trace descend =>
  if descend then (true, unit, trace)
  else if !unit.unPending && unit.unEnabled then (true, unit, trace)
  else if unit.unStatus then
    let ok := fn trace unit.unId false
    (true, { unit with unError := !ok, unPending := false, unStatus := false }, ⟨p, unit.unId, false, ok⟩ :: trace)
  else (true, { unit with unPending := false, unStatus := false }, trace)

def inetUnitCommit (fn : CommitFn) (units : Units) (trace : List Call) : Walked (List Call) :=
  let stopped := inetUnitWalk (commitStop fn) none [] 0 units trace
  let started := inetUnitWalk (commitStart fn) none [] 0 stopped.units stopped.ctx
  ⟨stopped.retval && started.retval, started.units, started.ctx⟩

/-! ## Runs -/

inductive Op
  | start (id : Int)
  | stop (id : Int)
  | restart (id : Int) (startIfStopped : Bool)
  | enable (id : Int) (enable : Bool)
  | commit (fn : CommitFn)

structure State where
  units : Units
  trace : List Call

def step (s : State) : Op → State
  | .start id => { s with units := (inetUnitStart s.units id).2 }
  | .stop id => { s with units := (inetUnitStop s.units id).2 }
  | .restart id startIfStopped => { s with units := (inetUnitRestart s.units id startIfStopped).2 }
  | .enable id enable => { s with units := (inetUnitEnable s.units id enable).2 }
  | .commit fn =>
    let committed := inetUnitCommit fn s.units s.trace
    ⟨committed.units, committed.ctx⟩

def run (s : State) (ops : List Op) : State := ops.foldl step s

def Built (units : Units) : Prop := ∀ x ∈ units.nodes, x.2 = newUnit x.2.unId x.2.unStatus

/-! ## What a request can do -/

def mark (unit : InetUnit) : InetUnit := { unit with unPending := true }

theorem walk_stopFn (parent : Option InetUnit) (up : Position) (i : Nat) (units : Units) :
    inetUnitWalk stopFn parent up i units ⟨⟩ = ⟨true, units.map mark, ⟨⟩⟩ := by
  induction units generalizing parent up i with
  | nil => rfl
  | cons unit deps rest ihd ihr => simp [inetUnitWalk, stopFn, ihd, ihr, Forest.map, mark]

theorem stopTree_eq (unit : InetUnit) (deps : Units) :
    stopTree unit deps = ({ unit with unEnabled := false, unPending := true }, deps.map mark) := by
  rw [stopTree, walk_stopFn]
  rfl

theorem Op.keeps {P : Units → Prop} (hen : ∀ p units, P units → P (enableAt p units))
    (hst : ∀ p units, P units → P (stopAt p units)) {s : State} (h : P s.units) (op : Op)
    (hop : ∀ fn, op ≠ .commit fn) : P (step s op).units := by
  have hsta (units : Units) (hu : P units) (id : Int) : P (inetUnitStart units id).2 := by
    unfold inetUnitStart
    split
    · exact hu
    · exact hen _ _ hu
  have hs' (units : Units) (hu : P units) (id : Int) : P (inetUnitStop units id).2 := by
    unfold inetUnitStop
    split
    · exact hu
    · exact hst _ _ hu
  cases op with
  | start id => exact hsta _ h id
  | stop id => exact hs' _ h id
  | restart id startIfStopped =>
    simp only [step, inetUnitRestart]
    split
    · exact h
    split
    · have hs := hs' _ h id
      split
      · exact hs
      · split <;> exact hsta _ hs id
    · exact h
  | enable id enable =>
    simp only [step, inetUnitEnable]
    split
    · exact hsta _ h id
    · exact hs' _ h id
  | commit fn => exact absurd rfl (hop fn)

end OpenSync.Inet
