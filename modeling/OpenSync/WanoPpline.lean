import Mathlib.Algebra.Order.Field.Rat
import OpenSync.Stam

/-!
# The plug-in pipeline of a WAN interface

`wano_ppline.c` runs plug-ins on an interface: those that may run together according to their masks go from the wait
queue to the run queue. What the pipeline writes to tables has no effect on it and is left out.
-/

namespace OpenSync.Wano

/-- A plug-in that may be run, with the mask of what it must not be run together with. -/
structure Plugin where
  name : Nat
  mask : BitVec 64
  deriving DecidableEq

/-- A plug-in on one of the queues; `timer` tells whether its timeout is pending. -/
structure PplinePlugin where
  plugin : Plugin
  running : Bool
  detached : Bool
  timer : Bool
  deriving DecidableEq

def maskIpv4 : BitVec 64 := 2

def maskIpv6 : BitVec 64 := 4

/-- What does not change: all plug-ins, the mask of those left out, and for how long restarts are immediate. -/
structure Config where
  plugins : List Plugin
  emask : BitVec 64
  immediate : ℚ

/-- What the environment decides while an event is processed: the time, and which plug-ins can be initialised. -/
structure Env where
  now : ℚ
  inits : Nat → Bool

structure Ppline where
  rmask : BitVec 64
  imask : BitVec 64
  waitq : List PplinePlugin
  runq : List PplinePlugin
  carrierException : Bool
  retryTimer : Bool
  bridge : Bool
  uplinkBridge : Bool
  immediateTimeout : ℚ
  deriving DecidableEq

structure InetState where
  enabled : Bool
  network : Bool
  nat : Bool
  schemeNone : Bool
  ipaddrUnset : Bool
  portState : Bool
  deriving DecidableEq

/-! ## Queues -/

/-- Clears the mask of plug-ins that are taken from the run queue, unless they were detached. -/
def clearMask (rmask : BitVec 64) (wpp : PplinePlugin) : BitVec 64 :=
  if wpp.detached then rmask else rmask &&& ~~~wpp.plugin.mask

def wanoPplineRunqFlush (p : Ppline) (flushDetached : Bool) : Ppline :=
  { p with
    runq := p.runq.filter fun wpp => !flushDetached && wpp.detached
    rmask := (p.runq.filter fun wpp => flushDetached || !wpp.detached).foldl clearMask p.rmask }

def wanoPplineStopQueues (p : Ppline) : Ppline := { wanoPplineRunqFlush { p with waitq := [] } true with rmask := 0 }

def wanoPplineStartQueues (c : Config) (p : Ppline) : Ppline :=
  { wanoPplineStopQueues p with
    waitq := (c.plugins.filter fun wp => wp.mask &&& c.emask == 0).map fun wp => ⟨wp, false, false, false⟩ }

/-- One plug-in of the wait queue: blocked, unable to start, or put on the run queue. -/
def scheduleOne (env : Env) (p : Ppline) (wpp : PplinePlugin) : Ppline :=
  if p.rmask &&& wpp.plugin.mask != 0 then { p with waitq := p.waitq ++ [wpp] }
  else if env.inits wpp.plugin.name then
    { p with
      runq := { wpp with running := false } :: p.runq
      rmask := p.rmask ||| wpp.plugin.mask
      imask := p.imask ||| wpp.plugin.mask }
  else p

def wanoPplineSchedule (env : Env) (p : Ppline) : Ppline := p.waitq.foldl (scheduleOne env) { p with waitq := [] }

/-- Starts what has not been started; detached plug-ins do not count. -/
def wanoPplineRunqStart (p : Ppline) : Ppline × Bool :=
  ({ p with
      runq := p.runq.map fun wpp =>
        if wpp.detached || wpp.running then wpp else { wpp with running := true, timer := true } },
    p.runq.any fun wpp => !wpp.detached)

def isNamed (name : Nat) (wpp : PplinePlugin) : Bool := wpp.plugin.name == name

def wanoPplineRunqDel (p : Ppline) (wpp : PplinePlugin) : Ppline :=
  { p with runq := p.runq.eraseP (isNamed wpp.plugin.name), rmask := clearMask p.rmask wpp }

def updatePlugin (name : Nat) (f : PplinePlugin → PplinePlugin) : List PplinePlugin → List PplinePlugin
  | [] => []
  | wpp :: l => if isNamed name wpp then f wpp :: l else wpp :: updatePlugin name f l

def stopTimer (p : Ppline) (wpp : PplinePlugin) : Ppline :=
  { p with runq := updatePlugin wpp.plugin.name (fun wpp => { wpp with timer := false }) p.runq }

def wanoPplineRunqDetach (p : Ppline) (wpp : PplinePlugin) : Ppline :=
  { p with
    runq := updatePlugin wpp.plugin.name (fun wpp => { wpp with detached := true, timer := false }) p.runq
    rmask := p.rmask &&& ~~~wpp.plugin.mask }

/-! ## The state machine -/

inductive State
  | init
  | start
  | ifEnable
  | ifCarrier
  | pluginSched
  | ifIpv4Reset
  | ifIpv6Reset
  | pluginRun
  | idle
  | freeze
  | exception
  deriving DecidableEq

/-- The last three are exceptions. -/
inductive Action
  | stateInit
  | inetStateUpdate (is : InetState)
  | pluginUpdate
  | idleTimeout
  | pplineUnfreeze
  | pplineRestart
  | pplineAbort
  | pplineFreeze
  deriving DecidableEq

open Stam

variable (c : Config) (env : Env)

def wanoPplineStateInit (p : Ppline) : Ppline × Answer State :=
  ({ p with immediateTimeout := env.now + c.immediate }, .go .start)

def wanoPplineStateStart (p : Ppline) : Ppline × Answer State := (wanoPplineStartQueues c p, .go .ifEnable)

def wanoPplineStateIfEnable (action : Action) (p : Ppline) : Ppline × Answer State :=
  match action with
  | .inetStateUpdate is =>
    if is.enabled && is.network && is.nat && is.schemeNone then (p, .go .ifCarrier) else (p, .busy)
  | _ => (p, .busy)

def wanoPplineStateIfCarrier (action : Action) (p : Ppline) : Ppline × Answer State :=
  match action with
  | .inetStateUpdate is => if is.portState then ({ p with carrierException := true }, .go .pluginSched) else (p, .busy)
  | _ => (p, .busy)

def wanoPplineStatePluginSched (action : Action) (p : Ppline) : Ppline × Answer State :=
  match action with
  | .stateInit => (wanoPplineSchedule env p, .go .ifIpv4Reset)
  | _ => (p, .go .ifIpv4Reset)

def wanoPplineStateIfIpv4Reset (action : Action) (p : Ppline) : Ppline × Answer State :=
  match action with
  | .stateInit =>
    if p.imask &&& maskIpv4 == 0 then (p, .go .ifIpv6Reset) else ({ p with imask := p.imask &&& ~~~maskIpv4 }, .busy)
  | .inetStateUpdate is => if is.schemeNone && is.ipaddrUnset then (p, .go .ifIpv6Reset) else (p, .busy)
  | .pluginUpdate => (p, .go .pluginSched)
  | _ => (p, .busy)

def wanoPplineStateIfIpv6Reset (action : Action) (p : Ppline) : Ppline × Answer State :=
  match action with
  | .stateInit =>
    if p.imask &&& maskIpv6 == 0 then (p, .go .pluginRun)
    else ({ p with imask := p.imask &&& ~~~maskIpv6 }, .go .pluginRun)
  | .pluginUpdate => (p, .go .pluginSched)
  | _ => (p, .busy)

def wanoPplineStatePluginRun (action : Action) (p : Ppline) : Ppline × Answer State :=
  match action with
  | .stateInit =>
    let r := wanoPplineRunqStart p
    if r.2 then (r.1, .busy) else (r.1, .go .idle)
  | .pluginUpdate => (p, .go .pluginSched)
  | _ => (p, .busy)

def wanoPplineStateIdle (action : Action) (p : Ppline) : Ppline × Answer State :=
  match action with
  | .stateInit =>
    let p := wanoPplineRunqFlush p false
    if env.now < p.immediateTimeout then (p, .go .start) else ({ p with retryTimer := true }, .busy)
  | .idleTimeout => ({ p with retryTimer := false }, .go .start)
  | _ => (p, .busy)

def wanoPplineStateFreeze (action : Action) (p : Ppline) : Ppline × Answer State :=
  match action with
  | .stateInit => (wanoPplineStopQueues p, .busy)
  | .pplineUnfreeze => (p, .go .init)
  | _ => (p, .busy)

def wanoPplineStateException (action : Action) (p : Ppline) : Ppline × Answer State :=
  let p := { p with immediateTimeout := env.now + c.immediate, retryTimer := false }
  match action with
  | .pplineRestart => (p, .go .init)
  | .pplineAbort => (p, .go .idle)
  | .pplineFreeze => (p, .go .freeze)
  | _ => (p, .busy)

/-- The transitions of `wano_ppline.dot`, with the actions that lead to them. -/
def validTransition : State → State → Action → Bool
  | .init, .start, .stateInit => true
  | .start, .ifEnable, .stateInit => true
  | .ifEnable, .ifCarrier, .inetStateUpdate _ => true
  | .ifCarrier, .pluginSched, .inetStateUpdate _ => true
  | .pluginSched, .ifIpv4Reset, _ => true
  | .ifIpv4Reset, .pluginSched, .pluginUpdate => true
  | .ifIpv4Reset, .ifIpv6Reset, .stateInit => true
  | .ifIpv4Reset, .ifIpv6Reset, .inetStateUpdate _ => true
  | .ifIpv6Reset, .pluginSched, .pluginUpdate => true
  | .ifIpv6Reset, .pluginRun, .stateInit => true
  | .ifIpv6Reset, .pluginRun, .inetStateUpdate _ => true
  | .pluginRun, .pluginSched, .pluginUpdate => true
  | .pluginRun, .pluginRun, .inetStateUpdate _ => true
  | .pluginRun, .idle, .stateInit => true
  | .idle, .idle, .inetStateUpdate _ => true
  | .idle, .idle, .pluginUpdate => true
  | .idle, .start, .stateInit => true
  | .idle, .start, .idleTimeout => true
  | .freeze, .freeze, .inetStateUpdate _ => true
  | .freeze, .init, .pplineUnfreeze => true
  | .exception, .init, .pplineRestart => true
  | .exception, .idle, .pplineAbort => true
  | .exception, .freeze, .pplineFreeze => true
  | s, s', .stateInit => s == s'
  | _, _, _ => false

def states : List State :=
  [.init, .start, .ifEnable, .ifCarrier, .pluginSched, .ifIpv4Reset, .ifIpv6Reset, .pluginRun, .idle, .freeze, .exception]

/-- An action is valid if it leads anywhere; the initial one always is. -/
def validAction (s : State) (action : Action) : Bool :=
  action == .stateInit || states.any fun s' => validTransition s s' action

def machine : Machine State Action Ppline where
  first := .init
  exception := .exception
  stateInit := .stateInit
  isException
    | .pplineRestart => true
    | .pplineAbort => true
    | .pplineFreeze => true
    | _ => false
  handler
    | .init, _ => wanoPplineStateInit c env
    | .start, _ => wanoPplineStateStart c
    | .ifEnable, action => wanoPplineStateIfEnable action
    | .ifCarrier, action => wanoPplineStateIfCarrier action
    | .pluginSched, action => wanoPplineStatePluginSched env action
    | .ifIpv4Reset, action => wanoPplineStateIfIpv4Reset action
    | .ifIpv6Reset, action => wanoPplineStateIfIpv6Reset action
    | .pluginRun, action => wanoPplineStatePluginRun action
    | .idle, action => wanoPplineStateIdle env action
    | .freeze, action => wanoPplineStateFreeze action
    | .exception, action => wanoPplineStateException c env action
  validAction := validAction
  validTransition := validTransition

/-! ## Events -/

structure Pipe where
  state : Option State
  ppline : Ppline
  deriving DecidableEq

def pplineFuel : Nat := 8

def wanoPplineStateDo (w : Pipe) (action : Action) : Option Pipe :=
  ((machine c env).stateDo pplineFuel w.state w.ppline action).map fun r => ⟨some r.1, r.2.1⟩

inductive Status
  | ok
  | error
  | skip
  | busy
  | restart
  | abort
  | detach
  deriving DecidableEq

inductive Event
  | port (exists_ : Bool)
  | uplink (bridge : Bool)
  | inetState (is : InetState)
  | status (name : Nat) (type : Status)
  | timeout (name : Nat)
  | restartAll
  | idleTimeout
  deriving DecidableEq

def Ppline.isBridged (p : Ppline) : Bool := p.bridge || p.uplinkBridge

def wanoPplineCheckFreeze (w : Pipe) : Option Pipe :=
  if !w.ppline.isBridged && w.state == some .freeze then wanoPplineStateDo c env w .pplineUnfreeze
  else if w.ppline.isBridged && w.state != some .freeze then wanoPplineStateDo c env w .pplineFreeze
  else some w

def wanoPplineOvsPortEventFn (w : Pipe) (exists_ : Bool) : Option Pipe :=
  wanoPplineCheckFreeze c env { w with ppline := { w.ppline with bridge := exists_ } }

def wanoPplineCmuEventFn (w : Pipe) (bridge : Bool) : Option Pipe :=
  wanoPplineCheckFreeze c env { w with ppline := { w.ppline with uplinkBridge := bridge } }

/-- A lost carrier restarts the pipeline, once after each time it was found. -/
def wanoPplineInetStateEventFn (w : Pipe) (is : InetState) : Option Pipe :=
  if w.ppline.carrierException && !is.portState then
    wanoPplineStateDo c env { w with ppline := { w.ppline with carrierException := false } } .pplineRestart
  else wanoPplineStateDo c env w (.inetStateUpdate is)

def wanoPplineStatusAsyncFn (w : Pipe) (wpp : PplinePlugin) : Status → Option Pipe
  | .ok => some { w with ppline := stopTimer w.ppline wpp }
  | .skip => wanoPplineStateDo c env { w with ppline := wanoPplineRunqDel w.ppline wpp } .pluginUpdate
  | .busy => some { w with ppline := stopTimer w.ppline wpp }
  | .error => wanoPplineStateDo c env { w with ppline := wanoPplineRunqDel w.ppline wpp } .pluginUpdate
  | .detach => wanoPplineStateDo c env { w with ppline := wanoPplineRunqDetach w.ppline wpp } .pluginUpdate
  | .restart => wanoPplineStateDo c env w .pplineRestart
  | .abort => wanoPplineStateDo c env w .pplineAbort

def wanoPplinePluginTimeoutFn (w : Pipe) (wpp : PplinePlugin) : Option Pipe :=
  wanoPplineStateDo c env { w with ppline := wanoPplineRunqDel w.ppline wpp } .pluginUpdate

def wanoPplineRetryTimerFn (w : Pipe) : Option Pipe :=
  wanoPplineStateDo c env { w with ppline := { w.ppline with retryTimer := false } } .idleTimeout

/-- Only plug-ins that run report, and only timers that are pending fire. -/
def step (w : Pipe) : Event → Option Pipe
  | .port exists_ => wanoPplineOvsPortEventFn c env w exists_
  | .uplink bridge => wanoPplineCmuEventFn c env w bridge
  | .inetState is => wanoPplineInetStateEventFn c env w is
  | .status name type =>
    match w.ppline.runq.find? fun wpp => isNamed name wpp && wpp.running with
    | some wpp => wanoPplineStatusAsyncFn c env w wpp type
    | none => some w
  | .timeout name =>
    match w.ppline.runq.find? fun wpp => isNamed name wpp && wpp.timer with
    | some wpp => wanoPplinePluginTimeoutFn c env w wpp
    | none => some w
  | .restartAll => wanoPplineStateDo c env w .pplineRestart
  | .idleTimeout => if w.ppline.retryTimer then wanoPplineRetryTimerFn c env w else some w

def start : Pipe := ⟨none, ⟨0, 0, [], [], false, false, false, false, 0⟩⟩

def run (w : Pipe) (events : List (Env × Event)) : Option Pipe := events.foldlM (fun w e => step c e.1 w e.2) w

end OpenSync.Wano
