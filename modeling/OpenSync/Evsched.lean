import Mathlib.Algebra.Order.Field.Rat
import Mathlib.Tactic.Linarith

/-!
# The task scheduler

`evsched.c` keeps tasks in a list by their trigger time and runs those that are due from one timer. A task function may
call the scheduler again; what it schedules waits in a second list until the timer callback has come to its end, and
the list that the callback walks through counts removals, so that a removal by someone else makes the walk abort. Times
are rationals, and the clock stands still while functions run.
-/

namespace OpenSync.Evsched

structure Task where
  id : Nat
  resched : Bool
  remove : Bool
  ms : Nat
  schedTime : ℚ
  triggerTime : ℚ
  func : Nat
  arg : Nat
  deriving DecidableEq

structure Sched where
  initialized : Bool
  now : ℚ
  tasklist : List Task
  pending : List Task
  current : Option Task
  taskId : Nat
  ndel : Nat
  timer : Option ℚ
  aborted : Bool
  deriving DecidableEq

def start : Sched := ⟨false, 0, [], [], none, 1, 0, none, false⟩

def timeJumpThreshold : ℚ := 86400

def hasId (id : Nat) (t : Task) : Bool := decide (t.id = id)

/-! ## Private functions -/

def evschedGetTaskinfo (s : Sched) (id : Nat) : Option Task := s.tasklist.find? (hasId id)

def evschedTakeTaskinfo (s : Sched) (id : Nat) : Option (Task × Sched) :=
  (evschedGetTaskinfo s id).map fun tp =>
    (tp, { s with tasklist := s.tasklist.eraseP (hasId id), ndel := s.ndel + 1 })

def evschedResetTimer (s : Sched) (trigger : ℚ) : Sched := { s with timer := some (s.now + trigger) }

/-- Tasks at the head of the list that were scheduled more than a day before are made to run at once. -/
def fixTimeJump (schedTime : ℚ) : List Task → List Task
  | [] => []
  | tp :: l =>
    if schedTime - tp.schedTime > timeJumpThreshold then
      { tp with schedTime := schedTime, triggerTime := schedTime } :: fixTimeJump schedTime l
    else tp :: l

/-- The new task goes in front of the first one with a later trigger time. -/
def insertTask (ntp : Task) : List Task → List Task
  | [] => [ntp]
  | tp :: l => if ntp.triggerTime < tp.triggerTime then ntp :: tp :: l else tp :: insertTask ntp l

def insertsFirst (ntp : Task) : List Task → Bool
  | [] => true
  | tp :: _ => decide (ntp.triggerTime < tp.triggerTime)

def isTimeJump (schedTime : ℚ) : List Task → Bool
  | [] => false
  | tp :: _ => decide (schedTime - tp.schedTime > timeJumpThreshold)

def evschedTaskInsert (s : Sched) (tp : Task) (restart : Bool) : Sched :=
  let ntp := { tp with triggerTime := tp.schedTime + tp.ms / 1000, resched := false }
  let fixed := fixTimeJump ntp.schedTime s.tasklist
  let s := if isTimeJump ntp.schedTime s.tasklist && restart then evschedResetTimer s 0 else s
  let s := { s with tasklist := insertTask ntp fixed }
  if restart && insertsFirst ntp fixed then evschedResetTimer s (ntp.triggerTime - ntp.schedTime) else s

/-! ## Operations -/

inductive Op
  | task (func arg ms : Nat)
  | update (id ms : Nat)
  | cancel (id : Nat)
  | cancelByFind (func arg : Nat) (byFunc byArg : Bool)
  | reschedule
  | rescheduleMs (ms : Nat)
  deriving DecidableEq

/-- The identifier is zero if the scheduler is not initialized. -/
def evschedTask (s : Sched) (func arg ms : Nat) : Nat × Sched :=
  if !s.initialized then (0, s)
  else
    let ntp : Task := ⟨s.taskId, false, false, ms, s.now, 0, func, arg⟩
    let s := { s with taskId := (s.taskId + 1) % 2 ^ 32 }
    if s.current.isSome then (ntp.id, { s with pending := s.pending ++ [ntp] })
    else (ntp.id, evschedTaskInsert s ntp true)

def evschedTaskFind (s : Sched) (func arg : Nat) (byFunc byArg : Bool) : Nat :=
  if !s.initialized then 0
  else if !byFunc && !byArg then 0
  else
    match s.tasklist.find? fun tp => (!byFunc || decide (tp.func = func)) && (!byArg || decide (tp.arg = arg)) with
    | some tp => tp.id
    | none => 0

/-- From inside another task the new delay is not stored. -/
def evschedTaskUpdate (s : Sched) (id ms : Nat) : Bool × Sched :=
  if !s.initialized then (false, s)
  else if s.current.any (hasId id) then (false, s)
  else
    match evschedTakeTaskinfo s id with
    | none => (false, s)
    | some (tp, s) =>
      let tp := { tp with schedTime := s.now }
      if s.current.isSome then (true, { s with pending := s.pending ++ [tp] })
      else (true, evschedTaskInsert s { tp with ms := ms } true)

@[grind =] def markRemove (id : Nat) : List Task → List Task
  | [] => []
  | tp :: l => if hasId id tp then { tp with remove := true } :: l else tp :: markRemove id l

/-- From inside a task, the task itself is not to be queued again, and any other one is marked. -/
def evschedTaskCancel (s : Sched) (id : Nat) : Bool × Sched :=
  if !s.initialized then (false, s)
  else
    match s.current with
    | some tp =>
      if id = tp.id then (true, { s with current := some { tp with resched := false } })
      else if (evschedGetTaskinfo s id).isNone then (false, s)
      else (true, { s with tasklist := markRemove id s.tasklist })
    | none =>
      match evschedTakeTaskinfo s id with
      | none => (false, s)
      | some (_, s) => (true, s)

def evschedTaskCancelByFind (s : Sched) (func arg : Nat) (byFunc byArg : Bool) : Bool × Sched :=
  let id := evschedTaskFind s func arg byFunc byArg
  if id = 0 then (false, s) else evschedTaskCancel s id

def evschedTaskReschedule (s : Sched) : Bool × Sched :=
  match s.current with
  | none => (false, s)
  | some tp => (true, { s with current := some { tp with resched := true } })

def evschedTaskRescheduleMs (s : Sched) (ms : Nat) : Bool × Sched :=
  match s.current with
  | none => (false, s)
  | some tp => (true, { s with current := some { tp with resched := true, ms := ms } })

def apply (s : Sched) : Op → Sched
  | .task func arg ms => (evschedTask s func arg ms).2
  | .update id ms => (evschedTaskUpdate s id ms).2
  | .cancel id => (evschedTaskCancel s id).2
  | .cancelByFind func arg byFunc byArg => (evschedTaskCancelByFind s func arg byFunc byArg).2
  | .reschedule => (evschedTaskReschedule s).2
  | .rescheduleMs ms => (evschedTaskRescheduleMs s ms).2

/-! ## The timer callback -/

/-- What happens in a run: an operation is called in a state, the timer fires in a state, or the function of a task is
called. -/
inductive Entry
  | called (s : Sched) (o : Op)
  | fired (s : Sched)
  | ran (id : Nat) (time : ℚ)
  deriving DecidableEq

abbrev Trace := Sched × List Entry

def Trace.call (x : Trace) (o : Op) : Trace := (apply x.1 o, x.2 ++ [.called x.1 o])

def enter (x : Trace) (tp : Task) : Trace := ({ x.1 with current := some tp }, x.2 ++ [.ran tp.id x.1.now])

/-- The function has returned; if it asked for that, the task is queued again. -/
def leave (s : Sched) (tp : Task) : Sched :=
  { s with
    current := none
    pending := if tp.resched then s.pending ++ [{ tp with schedTime := s.now }] else s.pending }

def runTask (x : Trace) (tp : Task) (ops : List Op) : Trace :=
  let y := ops.foldl Trace.call (enter x tp)
  match y.1.current with
  | none => y
  | some tp => (leave y.1 tp, y.2)

def removeHead (x : Trace) (rest : List Task) : Trace := ({ x.1 with tasklist := rest, ndel := x.1.ndel + 1 }, x.2)

/-- The walk through the tasks that are due; `scripts` tells what each function does. The list shrinks with each task,
and a removal that the walk did not make itself is an assertion that fails. -/
def runDue : Nat → List (List Op) → Trace → Trace
  | 0, _, x => x
  | fuel + 1, scripts, x =>
    match x.1.tasklist with
    | [] => x
    | tp :: rest =>
      if tp.triggerTime > x.1.now then x
      else if tp.remove then runDue fuel scripts (removeHead x rest)
      else
        let y := runTask (removeHead x rest) tp (scripts.headD [])
        if y.1.ndel = (removeHead x rest).1.ndel then runDue fuel scripts.tail y
        else ({ y.1 with aborted := true }, y.2)

/-- After the walk, tasks marked meanwhile go, and those that wait are inserted. -/
def finish (s : Sched) : Sched :=
  let removed := s.tasklist.filter (·.remove)
  let s := { s with tasklist := s.tasklist.filter (!·.remove), ndel := s.ndel + removed.length }
  let s := s.pending.foldl (fun s tp => evschedTaskInsert s tp false) { s with pending := [] }
  match s.tasklist with
  | [] => s
  | tp :: _ => evschedResetTimer s (tp.triggerTime - s.now)

def evschedTimerCallback (x : Trace) (scripts : List (List Op)) : Trace :=
  let x := runDue x.1.tasklist.length scripts ({ x.1 with timer := none }, x.2 ++ [.fired x.1])
  if x.1.aborted then x else (finish x.1, x.2)

/-! ## Runs -/

/-- What happens in the loop: time goes by, the timer fires, or an operation is called. -/
inductive Step
  | init
  | cleanup
  | advance (d : ℚ)
  | fire (scripts : List (List Op))
  | call (o : Op)

def evschedInit (s : Sched) : Sched :=
  if s.initialized then s else { s with tasklist := [], pending := [], ndel := 0, current := none, initialized := true }

def evschedCleanup (s : Sched) : Sched :=
  if !s.initialized then s
  else { s with timer := none, tasklist := [], ndel := s.ndel + s.tasklist.length, initialized := false }

def step (x : Trace) : Step → Trace
  | .init => (evschedInit x.1, x.2)
  | .cleanup => (evschedCleanup x.1, x.2)
  | .advance d => if 0 ≤ d then ({ x.1 with now := x.1.now + d }, x.2) else x
  | .fire scripts => if x.1.timer.any (· ≤ x.1.now) then evschedTimerCallback x scripts else x
  | .call o => x.call o

/-- An aborted program does nothing any more. -/
@[grind =] def run (x : Trace) : List Step → Trace
  | [] => x
  | st :: steps => if x.1.aborted then x else run (step x st) steps

end OpenSync.Evsched
