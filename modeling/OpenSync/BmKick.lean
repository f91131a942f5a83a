import Mathlib.Data.List.Basic

/-!
# The kick queue of the band steering manager

`bm_kick.c` keeps the clients to be disconnected in a queue and serves the entry at its head: a queue-run task asks the
driver to measure the client's signal, and a kick task disconnects the client and goes on to the next entry. Both tasks
wait in the scheduler. The requests that are answered by 802.11v and 802.11k frames never enter the queue.
-/

namespace OpenSync.BmKick

abbrev Mac := BitVec 48

inductive KickType
  | steering
  | sticky
  | force
  deriving DecidableEq

inductive ClientKick
  | none
  | disassoc
  | deauth
  | bssTmReq
  | rrmBrReq
  | btmDisassoc
  | btmDeauth
  | rrmDisassoc
  | rrmDeauth
  deriving DecidableEq

inductive ForceKick
  | none
  | speculative
  | directed
  | ghostDevice
  deriving DecidableEq

inductive ClientState
  | disconnected
  | connected
  | steering
  | backoff
  deriving DecidableEq

inductive PrefAllowed
  | never
  | hwm
  | always
  | nonDfs
  deriving DecidableEq

inductive DiscType
  | disassoc
  | deauth
  deriving DecidableEq

/-- `bm_group_t`; the `id` stands for its address. -/
structure Group where
  id : Nat
  gwOnly : Bool
  deriving DecidableEq

/-- A client, as far as its kicks read it. -/
structure Client where
  macaddr : Mac
  ifname : String
  group : Option Group
  connected : Bool
  state : ClientState
  kickType : ClientKick
  stickyKickType : ClientKick
  scKickType : ClientKick
  forceKickType : ForceKick
  kickReason : UInt8
  stickyKickReason : UInt8
  scKickReason : UInt8
  kickDebouncePeriod : Nat
  stickyKickDebouncePeriod : Nat
  scKickDebouncePeriod : Nat
  hwm : UInt8
  lwm : UInt8
  lastConnect : Int
  prefAllowed : PrefAllowed
  skipStickyKickTill : Int
  skipSteeringKickTill : Int
  isBTMSupported : Bool
  bcnRptActive : Bool
  deriving DecidableEq

/-- `bm_kick_t`; the `id` stands for the address of the entry, and the group is the address of one. -/
structure Kick where
  id : Nat
  macaddr : Mac
  ifname : String
  group : Nat
  type : KickType
  rssi : UInt8
  measuring : Bool
  deriving DecidableEq

/-- A task of this module in the scheduler. -/
inductive Task
  | kick (id : Nat)
  | queueRun
  deriving DecidableEq

/-- Tasks that are scheduled while the scheduler runs its tasks wait in `pending` until it has come to the end.
`disconnects` is what the driver was told. -/
structure State where
  queue : List Kick
  nextId : Nat
  tasklist : List Task
  pending : List Task
  running : Bool
  disconnects : List (Mac × DiscType × UInt8)
  deriving DecidableEq

def start : State := ⟨[], 0, [], [], false, []⟩

def State.tasks (s : State) : List Task := s.tasklist ++ s.pending

/-! ## The scheduler -/

def evschedTask (s : State) (t : Task) : State :=
  if s.running then { s with pending := s.pending ++ [t] } else { s with tasklist := s.tasklist ++ [t] }

/-- The tasks that wait are not looked at. A task that is only marked for removal is never run, so it goes at once. -/
def evschedTaskCancelByFind (s : State) (id : Nat) : State :=
  { s with tasklist := s.tasklist.erase (.kick id) }

/-- The task that runs is queued again when its function has returned. -/
def evschedTaskReschedule (s : State) (t : Task) : State := { s with pending := s.pending ++ [t] }

/-! ## Private functions -/

def bmKickGetKickType (client : Client) : KickType → ClientKick
  | .steering => client.kickType
  | .sticky => client.stickyKickType
  | .force => client.scKickType

def bmKickGetKickReason (client : Client) : KickType → UInt8
  | .steering => client.kickReason
  | .sticky => client.stickyKickReason
  | .force => client.scKickReason

def bmKickGetDebouncePeriod (client : Client) : KickType → Nat
  | .steering => client.kickDebouncePeriod
  | .sticky => client.stickyKickDebouncePeriod
  | .force => client.scKickDebouncePeriod

def mapBsalKickType : ClientKick → Option DiscType
  | .disassoc => some .disassoc
  | .deauth => some .deauth
  | .btmDisassoc => some .disassoc
  | .btmDeauth => some .deauth
  | .rrmDisassoc => some .disassoc
  | .rrmDeauth => some .deauth
  | _ => none

def bmClientFindByMacaddr (clients : List Client) (macaddr : Mac) : Option Client :=
  clients.find? fun client => client.macaddr == macaddr

def bmKickFindByMacaddr (s : State) (macaddr : Mac) : Option Kick :=
  s.queue.find? fun kick => kick.macaddr == macaddr

/-- The entry is cancelled in the scheduler; the queue has let go of it before. -/
def bmKickFree (s : State) (kick : Kick) : State := evschedTaskCancelByFind s kick.id

def bmKickQueueStart (s : State) : State := evschedTask s .queueRun

/-- The client of an entry, if it is still connected to the same interface of the same group. -/
def sameState (clients : List Client) (kick : Kick) : Option Client :=
  (bmClientFindByMacaddr clients kick.macaddr).filter fun client =>
    client.connected && decide (client.group.map (·.id) = some kick.group) && client.ifname == kick.ifname

/-- Does the signal of the client still ask for the kick? -/
def rssiAgrees (client : Client) (kick : Kick) : Bool :=
  match kick.type with
  | .sticky => kick.rssi ≤ client.lwm
  | .steering => client.hwm < kick.rssi
  | .force => true

/-- What the driver is told about an entry, if anything. -/
def disconnectOf (clients : List Client) (kick : Kick) : Option (Mac × DiscType × UInt8) := do
  let client ← sameState clients kick
  if kick.type ≠ .force ∧ kick.rssi = 0 then none
  let bsalKickType ← mapBsalKickType (bmKickGetKickType client kick.type)
  if rssiAgrees client kick then some (kick.macaddr, bsalKickType, bmKickGetKickReason client kick.type) else none

def bmKickTaskKick (s : State) (id : Nat) (clients : List Client) : State :=
  match s.queue with
  | [] => s
  | kick :: queue =>
    if kick.id = id then
      let s := { s with queue := queue, disconnects := s.disconnects ++ (disconnectOf clients kick).toList }
      let s := bmKickFree s kick
      if queue = [] then s else bmKickQueueStart s
    else s

inductive Measure
  | started
  | enosys
  | failed
  deriving DecidableEq

def bmKickTaskQueueRun (s : State) (clients : List Client) (ret : Measure) : State :=
  match s.queue with
  | [] => s
  | kick :: queue =>
    if (sameState clients kick).isNone then
      evschedTaskReschedule (bmKickFree { s with queue := queue } kick) .queueRun
    else if kick.type = .force then evschedTask s (.kick kick.id)
    else
      match ret with
      | .enosys => evschedTask s (.kick kick.id)
      | .failed => evschedTaskReschedule (bmKickFree { s with queue := queue } kick) .queueRun
      | .started => { s with queue := { kick with measuring := true } :: queue }

/-! ## Public functions -/

def removeKicks (s : State) (gone : Kick → Bool) : State :=
  (s.queue.filter gone).foldl bmKickFree { s with queue := s.queue.filter (!gone ·) }

def bmKickCleanup (s : State) : State := removeKicks s fun _ => true

def bmKickCleanupByGroup (s : State) (group : Nat) : State :=
  let checkRestart := s.queue.any fun kick => decide (kick.group = group) && kick.measuring
  let s := removeKicks s fun kick => decide (kick.group = group)
  if checkRestart && !s.queue.isEmpty then bmKickQueueStart s else s

def bmKickCleanupByClient (s : State) (macaddr : Mac) : State :=
  removeKicks s fun kick => kick.macaddr == macaddr && !kick.measuring

/-- What a kick reads of the world around the client: the clock, its neighbors, and how the frames for 802.11v and
802.11k went out. -/
structure Around where
  now : Int
  neighborNumber : Nat
  onlyDfsChannels : Bool
  ifnameAllowed : Bool
  selfBtmValues : Bool → Bool
  handleBssTmReq : Bool
  handleRrmBrReq : Bool

def bmKickCheckStickyKick (client : Client) (group : Group) (a : Around) : Bool :=
  if client.prefAllowed = .always ∧ a.neighborNumber = 0 then false
  else if client.prefAllowed = .nonDfs ∧ a.neighborNumber ≠ 0 ∧ a.onlyDfsChannels then false
  else if (group.gwOnly ∨ a.neighborNumber = 0) ∧ ¬ (a.ifnameAllowed ∧ a.selfBtmValues false) then false
  else decide (client.skipStickyKickTill ≤ a.now)

def bmKickCheckSteeringKick (client : Client) (a : Around) : Bool :=
  if a.ifnameAllowed then false
  else if !a.selfBtmValues true then false
  else decide (client.skipSteeringKickTill ≤ a.now)

/-- The answer of a kick that never comes to the queue; `none` if it does. -/
def answeredBefore (client : Client) (a : Around) (type : KickType) : Option Bool :=
  match bmKickGetKickType client type with
  | .none => some false
  | .bssTmReq => some a.handleBssTmReq
  | .rrmBrReq => some a.handleRrmBrReq
  | .btmDisassoc | .btmDeauth => if client.isBTMSupported then some a.handleBssTmReq else none
  | .rrmDisassoc | .rrmDeauth => if client.bcnRptActive then some a.handleRrmBrReq else none
  | .disassoc | .deauth => none

def bmKickMagicDebouncePeriod : Nat := 1

def debounced (client : Client) (a : Around) (type : KickType) : Bool :=
  let period := bmKickGetDebouncePeriod client type
  !(decide (type = .force) && decide (client.forceKickType = .ghostDevice)) &&
    (decide (a.now - client.lastConnect ≤ period) || decide (period = bmKickMagicDebouncePeriod))

/-- The group of a client whose kick comes as far as the queue, or the answer given before. -/
def admitted (client : Client) (type : KickType) (a : Around) : Except Bool Group :=
  if !client.connected then .error false
  else if client.state ≠ .connected then .error false
  else
    match client.group with
    | none => .error false
    | some group =>
      let result :=
        match type with
        | .sticky => bmKickCheckStickyKick client group a
        | .steering => bmKickCheckSteeringKick client a
        | .force => true
      if !result then .error false
      else
        match answeredBefore client a type with
        | some answer => .error answer
        | none => if debounced client a type then .error false else .ok group

def updateKick (client : Client) (group : Group) (type : KickType) (rssi : UInt8) (kick : Kick) : Kick :=
  { kick with type := type, rssi := rssi, group := group.id, ifname := client.ifname }

def replaceKick (s : State) (kick : Kick) : State :=
  { s with queue := s.queue.map fun k => if k.id = kick.id then kick else k }

def insertTail (s : State) (client : Client) (group : Group) (type : KickType) (rssi : UInt8) : State :=
  { s with
    queue := s.queue ++ [⟨s.nextId, client.macaddr, client.ifname, group.id, type, rssi, false⟩]
    nextId := s.nextId + 1 }

def bmKick (s : State) (client : Client) (type : KickType) (rssi : UInt8) (a : Around) : Bool × State :=
  match admitted client type a with
  | .error answer => (answer, s)
  | .ok group =>
    match bmKickFindByMacaddr s client.macaddr with
    | some kick => (true, replaceKick s (updateKick client group type rssi kick))
    | none =>
      let queued := insertTail s client group type rssi
      (true, if s.queue = [] then bmKickQueueStart queued else queued)

def bmKickMeasurement (s : State) (macaddr : Mac) (rssi : UInt8) : State :=
  match s.queue with
  | [] => s
  | kick :: queue =>
    if !kick.measuring || kick.macaddr != macaddr then s
    else evschedTask { s with queue := { kick with measuring := false, rssi := rssi } :: queue } (.kick kick.id)

/-! ## Runs -/

/-- What the scheduler does while it runs its tasks: one of the tasks of this module is run, or one of another module,
which may kick a client. Which task is due first is left open. -/
inductive Call
  | fire (i : Nat) (clients : List Client) (ret : Measure)
  | kick (client : Client) (type : KickType) (rssi : UInt8) (a : Around)

def runTask (s : State) (clients : List Client) (ret : Measure) : Task → State
  | .kick id => bmKickTaskKick s id clients
  | .queueRun => bmKickTaskQueueRun s clients ret

def Call.step (s : State) : Call → State
  | .fire i clients ret =>
    match s.tasklist[i]? with
    | none => s
    | some t => runTask { s with tasklist := s.tasklist.eraseIdx i } clients ret t
  | .kick client type rssi a => (bmKick s client type rssi a).2

inductive Event
  | kick (client : Client) (type : KickType) (rssi : UInt8) (a : Around)
  | measurement (macaddr : Mac) (rssi : UInt8)
  | timer (calls : List Call)
  | removeClient (macaddr : Mac)
  | removeGroup (group : Nat)
  | cleanup

/-- The scheduler is done: what waits is put into its list. -/
def endTimer (s : State) : State := { s with tasklist := s.tasklist ++ s.pending, pending := [], running := false }

def step (s : State) : Event → State
  | .kick client type rssi a => (bmKick s client type rssi a).2
  | .measurement macaddr rssi => bmKickMeasurement s macaddr rssi
  | .timer calls => endTimer (calls.foldl Call.step { s with running := true })
  | .removeClient macaddr => bmKickCleanupByClient s macaddr
  | .removeGroup group => bmKickCleanupByGroup s group
  | .cleanup => bmKickCleanup s

def run (s : State) (evs : List Event) : State := evs.foldl step s

end OpenSync.BmKick
