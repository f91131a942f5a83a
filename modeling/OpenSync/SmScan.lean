import Mathlib.Data.List.Basic

/-!
# Scheduling of scans

The statistics manager asks for scans of radios; `sm_scan_schedule.c` keeps the requests in a list, has the driver scan for
the one at the head, and calls back when the driver reports the end. A timer watches over the scan. Requests that are lost
with the list are freed without a word.
-/

namespace OpenSync.SmScan

inductive ScanType
  | none
  | full
  | onchan
  | offchan
  deriving DecidableEq

/-- `sm_scan_request_t`; the radio and the function to call back are addresses. -/
structure Request where
  radioCfg : Nat
  chanList : List Nat
  scanType : ScanType
  dwellTime : Int
  scanCb : Option Nat
  deriving DecidableEq

/-- `sm_scan_ctx_t`; requests are numbered in the order they come. -/
structure Ctx where
  id : Nat
  request : Request
  deriving DecidableEq

/-- What happens: a request is accepted, the driver is asked to scan and does so or not, it reports the end, it is stopped,
and somebody is called back. -/
inductive Entry
  | accepted (ctx : Ctx)
  | started (ctx : Ctx)
  | startFailed (ctx : Ctx)
  | completed (ctx : Ctx) (status : Int)
  | stopped
  | called (ctx : Ctx) (status : Int)
  deriving DecidableEq

/-- `inProgress` is what the driver works at; `timer` is what the timer was armed for. -/
structure State where
  list : List Ctx
  nextId : Nat
  inProgress : Option Ctx
  timer : Option Ctx
  log : List Entry
  deriving DecidableEq

def start : State := ⟨[], 0, none, none, []⟩

def note (s : State) (e : Entry) : State := { s with log := s.log ++ [e] }

def smScanScheduleQueueFlush (s : State) : State := { s with list := [] }

def smScanScheduleProcess (s : State) (ctx : Ctx) (startOk : Bool) : Bool × State :=
  let s := { s with timer := some ctx }
  if startOk then (true, note { s with inProgress := some ctx } (.started ctx))
  else (false, note { s with timer := none } (.startFailed ctx))

def smScanIsRequestPending (s : State) (request : Request) : Bool :=
  s.list.any fun ctx =>
    ctx.request.radioCfg == request.radioCfg && decide (ctx.request.scanType = request.scanType) &&
      ctx.request.scanCb == request.scanCb

def smScanSchedule (s : State) (request : Request) (startOk : Bool) : Bool × State :=
  let ctx : Ctx := ⟨s.nextId, request⟩
  let scanInProgress := s.list.head?
  let s := { s with list := s.list ++ [ctx], nextId := s.nextId + 1 }
  if scanInProgress.isNone then
    match smScanScheduleProcess s ctx startOk with
    | (true, s) => (true, s)
    | (false, s) => (false, { s with list := s.list.tail })
  else (true, s)

/-- A request from anywhere; it is noted if it was accepted. -/
def schedule (s : State) (request : Request) (startOk : Bool) : State :=
  match smScanSchedule s request startOk with
  | (true, s') => note s' (.accepted ⟨s.nextId, request⟩)
  | (false, s') => s'

/-- The function that is called back may ask for further scans; each may be one that could be started or not. -/
def notify (s : State) (ctx : Ctx) (status : Int) (requests : List (Request × Bool)) : State :=
  if ctx.request.scanCb.isSome then
    requests.foldl (fun s r => schedule s r.1 r.2) (note s (.called ctx status))
  else s

/-- What is still open when the driver reports the end of a scan: what the callback asks for, whether the next scan can be
started, and what the callback of that one asks for if it cannot. -/
structure Outcome where
  requests : List (Request × Bool)
  startOk : Bool
  failedRequests : List (Request × Bool)
  deriving DecidableEq

/-- The next scan in line; a failed start goes the way of a failed scan. -/
def scheduleNext (s : State) (o : Outcome) : State :=
  match s.list.head? with
  | none => s
  | some ctx =>
    match smScanScheduleProcess s ctx o.startOk with
    | (true, s) => s
    | (false, s) => smScanScheduleQueueFlush (notify s ctx 0 o.failedRequests)

def smScanScheduleCb (s : State) (ctx : Option Ctx) (status : Int) (o : Outcome) : State :=
  let s := { s with timer := none }
  match ctx with
  | none => s
  | some ctx =>
    let s := notify s ctx status o.requests
    if status = 0 then smScanScheduleQueueFlush s
    else scheduleNext { s with list := s.list.tail } o

def smScanScheduleStop (s : State) : State :=
  let s := note { s with inProgress := none } .stopped
  smScanScheduleQueueFlush { s with timer := none }

inductive Event
  | schedule (request : Request) (startOk : Bool)
  | completion (status : Int) (o : Outcome)
  | timeout
  deriving DecidableEq

def step (s : State) : Event → State
  | .schedule request startOk => schedule s request startOk
  | .completion status o =>
    match s.inProgress with
    | none => s
    | some ctx => smScanScheduleCb (note { s with inProgress := none } (.completed ctx status)) (some ctx) status o
  | .timeout =>
    match s.timer with
    | none => s
    | some _ => smScanScheduleStop s

def run (s : State) (evs : List Event) : State := evs.foldl step s

end OpenSync.SmScan
