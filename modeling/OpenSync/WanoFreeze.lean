import OpenSync.WanoPpline

/-!
# Frozen pipelines

While the interface is bridged, the pipeline is frozen and runs no plug-in. An exception leaves every state, so this
holds as long as nothing restarts the pipeline of a bridged interface.
-/

namespace OpenSync.Wano
open List Option Bool

open Stam

variable {c : Config} {env : Env} {w w' : Pipe}

/-! ## Actions end -/

/-- How many states can follow one another from a state on. -/
def rank : State → Nat
  | .ifEnable => 0
  | .ifCarrier => 0
  | .freeze => 0
  | .start => 1
  | .init => 2
  | .idle => 2
  | .pluginRun => 3
  | .exception => 3
  | .ifIpv6Reset => 4
  | .ifIpv4Reset => 5
  | .pluginSched => 6

theorem machine_ranked (c : Config) (env : Env) : (machine c env).Ranked rank := by
  intro s p p' s' h
  cases s with
  | init | start | pluginSched =>
    cases h
    decide
  | ifEnable | ifCarrier | freeze | exception => cases h
  | ifIpv4Reset =>
    simp only [machine, wanoPplineStateIfIpv4Reset] at h
    split_ifs at h <;> cases h
    decide
  | ifIpv6Reset =>
    simp only [machine, wanoPplineStateIfIpv6Reset] at h
    split_ifs at h <;> cases h <;> decide
  | pluginRun =>
    simp only [machine, wanoPplineStatePluginRun] at h
    split_ifs at h <;> cases h
    decide
  | idle =>
    simp only [machine, wanoPplineStateIdle] at h
    split_ifs at h <;> cases h
    decide

theorem stateDo_some (c : Config) (env : Env) (w : Pipe) (action : Action) :
    ∃ w', wanoPplineStateDo c env w action = some w' := by
  have hb : ∀ s, rank s < 7 := by
    intro s
    cases s <;> decide
  obtain ⟨r, hr⟩ := (machine_ranked c env).stateDo hb w.state w.ppline action
  exact ⟨⟨some r.1, r.2.1⟩, map_eq_some_iff.mpr ⟨r, hr, rfl⟩⟩

/-! ## Bridges -/

/-- Whether and how the interface is bridged is not the machine's business. -/
def SameBridges (p₀ p : Ppline) : Prop := p.bridge = p₀.bridge ∧ p.uplinkBridge = p₀.uplinkBridge

theorem SameBridges.isBridged {p₀ p : Ppline} (h : SameBridges p₀ p) : p.isBridged = p₀.isBridged := by
  rw [Ppline.isBridged, h.1, h.2, Ppline.isBridged]

theorem schedule_sameBridges (p₀ : Ppline) (wpps : List PplinePlugin) {p : Ppline} (h : SameBridges p₀ p) :
    SameBridges p₀ (wpps.foldl (scheduleOne env) p) := by
  induction wpps generalizing p with
  | nil => exact h
  | cons wpp wpps ih =>
    refine ih ?_
    unfold scheduleOne
    split_ifs <;> exact h

theorem machine_sameBridges (c : Config) (env : Env) (p₀ : Ppline) : (machine c env).Keeps (SameBridges p₀) := by
  intro s action p h
  cases s with
  | init | start => exact h
  | ifEnable =>
    simp only [machine, wanoPplineStateIfEnable]
    split <;> (try split_ifs) <;> exact h
  | ifCarrier =>
    simp only [machine, wanoPplineStateIfCarrier]
    split <;> (try split_ifs) <;> exact h
  | pluginSched =>
    simp only [machine, wanoPplineStatePluginSched]
    split
    · exact schedule_sameBridges p₀ _ h
    · exact h
  | ifIpv4Reset =>
    simp only [machine, wanoPplineStateIfIpv4Reset]
    split <;> (try split_ifs) <;> exact h
  | ifIpv6Reset =>
    simp only [machine, wanoPplineStateIfIpv6Reset]
    split <;> (try split_ifs) <;> exact h
  | pluginRun =>
    simp only [machine, wanoPplineStatePluginRun]
    split <;> (try split_ifs) <;> exact h
  | idle =>
    simp only [machine, wanoPplineStateIdle]
    split <;> (try split_ifs) <;> exact h
  | freeze =>
    simp only [machine, wanoPplineStateFreeze]
    split <;> exact h
  | exception =>
    simp only [machine, wanoPplineStateException]
    split <;> exact h

variable {action : Action}

theorem stateDo_sameBridges (h : wanoPplineStateDo c env w action = some w') : SameBridges w.ppline w'.ppline := by
  obtain ⟨r, hr, rfl⟩ := map_eq_some_iff.mp h
  exact (machine_sameBridges c env w.ppline).stateDo ⟨rfl, rfl⟩ hr

/-! ## Freezing -/

theorem stopQueues_runq (p : Ppline) : (wanoPplineStopQueues p).runq = [] := by
  simp [wanoPplineStopQueues, wanoPplineRunqFlush]

/-- What is frozen runs no plug-in. -/
def Quiet (s : State) (p : Ppline) : Prop := s = .freeze → p.runq = []

theorem machine_quiet (c : Config) (env : Env) : (machine c env).Settles Quiet where
  enters s p hs := by
    subst hs
    exact stopQueues_runq p
  keeps s action p h hs := by
    have hr := h hs
    subst hs
    simp only [machine, wanoPplineStateFreeze]
    split
    · exact stopQueues_runq p
    · exact hr
    · exact hr
  valid s := rfl
  exception p hs := nomatch hs

/-- The pipeline relinquishes the interface. -/
structure Frozen (w : Pipe) : Prop where
  state : w.state = some .freeze
  runq : w.ppline.runq = []

theorem act_freeze (c : Config) (env : Env) (s : State) (p : Ppline) :
    ∃ p', (machine c env).act pplineFuel s p .pplineFreeze = some (.freeze, p', true) ∧ p'.runq = [] :=
  ⟨_, rfl, stopQueues_runq _⟩

theorem loop_init (c : Config) (env : Env) (p : Ppline) :
    ∃ p', (machine c env).loop pplineFuel .init p .stateInit = some (.ifEnable, p', true) := ⟨_, rfl⟩

theorem stateDo_freeze (h : wanoPplineStateDo c env w .pplineFreeze = some w') : Frozen w' := by
  obtain ⟨r, hr, rfl⟩ := map_eq_some_iff.mp h
  cases hs : w.state with
  | some s =>
    obtain ⟨p', ha, hru⟩ := act_freeze c env s w.ppline
    rw [hs, Machine.stateDo, ha] at hr
    cases hr
    exact ⟨rfl, hru⟩
  | none =>
    obtain ⟨p', hin⟩ := loop_init c env w.ppline
    obtain ⟨p'', ha, hru⟩ := act_freeze c env .ifEnable p'
    rw [hs] at hr
    have heq : (machine c env).stateDo pplineFuel none w.ppline .pplineFreeze =
        (machine c env).act pplineFuel .ifEnable p' .pplineFreeze := by
      simp [Machine.stateDo, show (machine c env).first = .init from rfl,
        show (machine c env).stateInit = .stateInit from rfl, hin]
    rw [heq, ha] at hr
    cases hr
    exact ⟨rfl, hru⟩

/-- What a frozen pipeline does not react to. -/
inductive Ignored : Action → Prop
  | inetStateUpdate (is : InetState) : Ignored (.inetStateUpdate is)
  | pluginUpdate : Ignored .pluginUpdate
  | idleTimeout : Ignored .idleTimeout

theorem Frozen.stateDo_eq (h : Frozen w) (hig : Ignored action) : wanoPplineStateDo c env w action = some w := by
  obtain ⟨state, p⟩ := w
  obtain rfl : state = some .freeze := h.state
  have ha : ∃ b, (machine c env).act pplineFuel .freeze p action = some (.freeze, p, b) := by
    cases hig <;> exact ⟨_, rfl⟩
  obtain ⟨b, ha⟩ := ha
  rw [wanoPplineStateDo, Machine.stateDo, ha]
  rfl

/-! ## Events -/

/-- A pipeline of a bridged interface is frozen, and a frozen one runs no plug-in. -/
structure Left (w : Pipe) : Prop where
  quiet : ∀ s, w.state = some s → Quiet s w.ppline
  frozen : w.ppline.isBridged = true → w.state = some .freeze

theorem Left.toFrozen (h : Left w) (hb : w.ppline.isBridged = true) : Frozen w :=
  ⟨h.frozen hb, h.quiet .freeze (h.frozen hb) rfl⟩

theorem stateDo_quiet (h : ∀ s, w.state = some s → Quiet s w.ppline)
    (hdo : wanoPplineStateDo c env w action = some w') : ∀ s, w'.state = some s → Quiet s w'.ppline := by
  obtain ⟨r, hr, rfl⟩ := map_eq_some_iff.mp hdo
  rintro s ⟨rfl⟩
  exact (machine_quiet c env).stateDo h hr

theorem Left.stateDo_open (hdo : wanoPplineStateDo c env w action = some w')
    (h : ∀ s, w.state = some s → Quiet s w.ppline) (ho : w.ppline.isBridged = false) : Left w' := by
  refine ⟨stateDo_quiet h hdo, fun hb => ?_⟩
  rw [(stateDo_sameBridges hdo).isBridged, ho] at hb
  cases hb

theorem checkFreeze_left (hdo : wanoPplineCheckFreeze c env w = some w') (h : ∀ s, w.state = some s → Quiet s w.ppline) :
    Left w' := by
  unfold wanoPplineCheckFreeze at hdo
  split_ifs at hdo with ht hf
  · exact .stateDo_open hdo h (by simp_all)
  · exact ⟨stateDo_quiet h hdo, fun _ => (stateDo_freeze hdo).state⟩
  · obtain rfl := some.inj hdo
    exact ⟨h, fun hb => by simpa [hb] using hf⟩

/-- Nothing restarts the pipeline of a bridged interface: no general restart, and no loss of a carrier that was found. -/
def EventSafe (w : Pipe) : Event → Prop
  | .restartAll => w.ppline.isBridged = false
  | .inetState is => w.ppline.carrierException = true → is.portState = false → w.ppline.isBridged = false
  | _ => True

instance (w : Pipe) : DecidablePred (EventSafe w)
  | .restartAll => inferInstanceAs (Decidable (w.ppline.isBridged = false))
  | .inetState is =>
    inferInstanceAs (Decidable (w.ppline.carrierException = true → is.portState = false → w.ppline.isBridged = false))
  | .port _ => isTrue trivial
  | .uplink _ => isTrue trivial
  | .status .. => isTrue trivial
  | .timeout _ => isTrue trivial
  | .idleTimeout => isTrue trivial

section

variable (h : Left w)
include h

theorem Left.ignored (hig : Ignored action) :
    ∃ w', wanoPplineStateDo c env w action = some w' ∧ Left w' := by
  by_cases hb : w.ppline.isBridged = true
  · exact ⟨w, (h.toFrozen hb).stateDo_eq hig, h⟩
  · obtain ⟨w', hdo⟩ := stateDo_some c env w action
    exact ⟨w', hdo, .stateDo_open hdo h.quiet (eq_false_of_not_eq_true hb)⟩

section

variable (hr : w.ppline.runq ≠ [])
include hr

theorem Left.not_freeze {s : State} (hs : w.state = some s) : s ≠ .freeze := fun hf => hr (h.quiet s hs hf)

theorem Left.isOpen : w.ppline.isBridged = false := eq_false_of_not_eq_true fun hb => hr (h.toFrozen hb).runq

theorem Left.changed {p : Ppline} (hsa : SameBridges w.ppline p) :
    Left { w with ppline := p } := by
  refine ⟨fun s hs hf => absurd hf (h.not_freeze hr hs), fun hb => ?_⟩
  rw [hsa.isBridged, h.isOpen hr] at hb
  cases hb

theorem Left.reported (p : Ppline) (action : Action)
    (hs : SameBridges w.ppline p) : ∃ w', wanoPplineStateDo c env { w with ppline := p } action = some w' ∧ Left w' := by
  obtain ⟨w', hdo⟩ := stateDo_some c env { w with ppline := p } action
  exact ⟨w', hdo, .stateDo_open hdo (h.changed hr hs).quiet (hs.isBridged.trans (h.isOpen hr))⟩

theorem Left.status {wpp : PplinePlugin} (type : Status) :
    ∃ w', wanoPplineStatusAsyncFn c env w wpp type = some w' ∧ Left w' := by
  cases type with
  | ok | busy => exact ⟨_, rfl, h.changed hr ⟨rfl, rfl⟩⟩
  | skip | error | detach => exact h.reported hr _ .pluginUpdate ⟨rfl, rfl⟩
  | restart => exact h.reported hr _ .pplineRestart ⟨rfl, rfl⟩
  | abort => exact h.reported hr _ .pplineAbort ⟨rfl, rfl⟩

end

omit h in
theorem checkFreeze_some (c : Config) (env : Env) (w : Pipe) : ∃ w', wanoPplineCheckFreeze c env w = some w' := by
  unfold wanoPplineCheckFreeze
  split_ifs
  · exact stateDo_some c env w _
  · exact stateDo_some c env w _
  · exact ⟨w, rfl⟩

theorem Left.stepped {e : Event} (hs : EventSafe w e) : ∃ w', step c env w e = some w' ∧ Left w' := by
  cases e with
  | port exists_ =>
    obtain ⟨w', hdo⟩ := checkFreeze_some c env { w with ppline := { w.ppline with bridge := exists_ } }
    exact ⟨w', hdo, checkFreeze_left hdo h.quiet⟩
  | uplink bridge =>
    obtain ⟨w', hdo⟩ := checkFreeze_some c env { w with ppline := { w.ppline with uplinkBridge := bridge } }
    exact ⟨w', hdo, checkFreeze_left hdo h.quiet⟩
  | inetState is =>
    simp only [step, wanoPplineInetStateEventFn]
    split_ifs with hl
    · rw [and_eq_true, not_eq_true'] at hl
      obtain ⟨w', hdo⟩ :=
        stateDo_some c env { w with ppline := { w.ppline with carrierException := false } } .pplineRestart
      exact ⟨w', hdo, .stateDo_open hdo h.quiet (hs hl.1 hl.2)⟩
    · exact h.ignored (.inetStateUpdate is)
  | status name type =>
    simp only [step]
    split
    · rename_i wpp hf
      exact h.status (ne_nil_of_mem (mem_of_find?_eq_some hf)) type
    · exact ⟨w, rfl, h⟩
  | timeout name =>
    simp only [step]
    split
    · rename_i wpp hf
      exact h.reported (ne_nil_of_mem (mem_of_find?_eq_some hf)) _ .pluginUpdate ⟨rfl, rfl⟩
    · exact ⟨w, rfl, h⟩
  | restartAll =>
    obtain ⟨w', hdo⟩ := stateDo_some c env w .pplineRestart
    exact ⟨w', hdo, .stateDo_open hdo h.quiet hs⟩
  | idleTimeout =>
    simp only [step]
    split_ifs
    · have hst : Left { w with ppline := { w.ppline with retryTimer := false } } := ⟨h.quiet, h.frozen⟩
      exact hst.ignored .idleTimeout
    · exact ⟨w, rfl, h⟩

end

/-! ## Runs -/

def RunSafe (c : Config) (w : Pipe) : List (Env × Event) → Prop
  | [] => True
  | (env, e) :: events => EventSafe w e ∧ ∀ w' ∈ step c env w e, RunSafe c w' events

theorem Left.ran {events : List (Env × Event)} (h : Left w) (hs : RunSafe c w events) :
    ∃ w', run c w events = some w' ∧ Left w' := by
  induction events generalizing w with
  | nil => exact ⟨w, rfl, h⟩
  | cons e events ih =>
    obtain ⟨w₁, hst, h₁⟩ := Left.stepped h hs.1
    obtain ⟨w₂, hr, h₂⟩ := ih h₁ (hs.2 w₁ hst)
    refine ⟨w₂, ?_, h₂⟩
    rw [run, foldlM_cons, hst]
    exact hr

instance decidableRunSafe (c : Config) : (w : Pipe) → (events : List (Env × Event)) → Decidable (RunSafe c w events)
  | _, [] => isTrue trivial
  | w, (env, e) :: events =>
    have : DecidablePred fun w' => RunSafe c w' events := fun w' => decidableRunSafe c w' events
    inferInstanceAs (Decidable (EventSafe w e ∧ ∀ w' ∈ step c env w e, RunSafe c w' events))

theorem left_start : Left start := ⟨(fun _ hs => nomatch hs), (fun hb => nomatch hb)⟩

/-- Every event is processed to its end, and if the interface is bridged then, the pipeline is frozen with nothing on its
run queue. -/
theorem bridged_left_alone (c : Config) (events : List (Env × Event)) (hsafe : RunSafe c start events) :
    ∃ w, run c start events = some w ∧ (w.ppline.isBridged = true → w.state = some .freeze ∧ w.ppline.runq = []) := by
  obtain ⟨w, hr, hl⟩ := left_start.ran hsafe
  exact ⟨w, hr, fun hb => ⟨(hl.toFrozen hb).state, (hl.toFrozen hb).runq⟩⟩

def plainConfig : Config := ⟨[⟨1, maskIpv4⟩], 0, 60⟩

def plainEnv : Env := ⟨0, fun _ => true⟩

def ready : InetState := ⟨true, true, true, true, true, true⟩

/-- The plug-in is started, then the interface is put into a bridge. -/
def provisioned : List (Env × Event) :=
  [(plainEnv, .inetState ready), (plainEnv, .inetState ready), (plainEnv, .inetState ready), (plainEnv, .port true),
    (plainEnv, .inetState ready), (plainEnv, .status 1 .restart)]

theorem provisioned_left_alone : ∃ w, run plainConfig start provisioned = some w ∧
      (w.ppline.isBridged = true → w.state = some .freeze ∧ w.ppline.runq = []) :=
  bridged_left_alone plainConfig provisioned (by decide +kernel)

def thawed : List (Env × Event) :=
  [(plainEnv, .port true), (plainEnv, .restartAll), (plainEnv, .inetState ready), (plainEnv, .inetState ready),
    (plainEnv, .inetState ready)]

/-- The plug-in runs on the bridged interface. -/
theorem thawed_runs_plugin :
    ∃ w, run plainConfig start thawed = some w ∧ w.ppline.isBridged = true ∧ w.state = some .pluginRun ∧
      w.ppline.runq = [⟨⟨1, maskIpv4⟩, true, false, true⟩] := by
  refine ⟨(run plainConfig start thawed).getD start, ?_, ?_, ?_, ?_⟩ <;> decide +kernel

end OpenSync.Wano
