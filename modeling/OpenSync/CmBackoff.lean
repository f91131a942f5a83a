import Mathlib.Tactic

/-!
# The back-off of the connection manager

`cm2_compute_backoff` draws the time-out of the state `QUIESCE_OVS` from a random word and the two limits that
`AWLAN_Node` holds. One update reads the clock once.
-/

namespace OpenSync.Cm
open Option

inductive Mode
  | init | linkSel | wanIp | ntpCheck | ovsInit | tryResolve | reConnect | tryConnect | fastReconnect | connected
  | quiesceOvs | internet
  deriving DecidableEq

/-- `backoff` is the time-out of `QUIESCE_OVS` in `cm2_state_info`; `fatal` says that a counter has reached
`CONFIG_CM2_CLOUD_FATAL_THRESHOLD`. -/
structure State where
  mode : Mode
  stateChanged : Bool
  timestamp : ℤ
  connected : Bool
  disconnects : ℕ
  backoff : ℤ
  minBackoff : ℤ
  maxBackoff : ℤ
  fastBackoff : Bool
  extender : Bool
  fatal : Bool
  restarting : Bool

def cm2NoTimeout : ℤ := -1
def cm2MaxDisconnects : ℕ := 10
def shortBackoff : ℤ := 8

def getTimeout (s : State) : ℤ :=
  match s.mode with
  | .init | .ovsInit | .connected => cm2NoTimeout
  | .linkSel => 120
  | .wanIp | .ntpCheck | .internet => 60
  | .tryResolve => 180
  | .reConnect | .tryConnect => 30
  | .fastReconnect => 20
  | .quiesceOvs => s.backoff

def timeout (now : ℤ) (s : State) : Bool := getTimeout s ≠ cm2NoTimeout ∧ getTimeout s ≤ now - s.timestamp

def setState (now : ℤ) (mode : Mode) (s : State) : State :=
  if s.mode = mode then s else { s with mode, timestamp := now, stateChanged := true }

/-- The word is what `/dev/urandom` gave, if anything. There is no result where the difference of the limits is zero,
which is the modulus, or no `int`. -/
def computeBackoff (random : Option ℕ) (s : State) : Option ℤ :=
  if s.fastBackoff then some shortBackoff
  else
    match random with
    | none => some s.maxBackoff
    | some r =>
      let range := s.maxBackoff - s.minBackoff
      if range = 0 ∨ range.bmod (2 ^ 32) ≠ range then none
      else some ((r % (range % 2 ^ 32) + s.minBackoff).bmod (2 ^ 32))

def restartOvsConnection (now : ℤ) (s : State) : State :=
  if s.extender then
    if s.fatal then { s with restarting := true } else setState now .linkSel s
  else setState now .ovsInit s

/-- The check after the cases of `cm2_update_state`. -/
def unhandledTimeout (now : ℤ) (s : State) : State :=
  if timeout now s then setState now .init s else s

def firstQuiesce (random : Option ℕ) (s : State) : Option State :=
  if s.stateChanged then
    (computeBackoff random s).map fun backoff =>
      { s with stateChanged := false, disconnects := s.disconnects + 1, backoff }
  else some s

def afterQuiesce (now : ℤ) (s : State) : State :=
  let s := if s.connected then setState now .connected s else s
  if timeout now s then
    let s := { s with disconnects := s.disconnects + 1 }
    if s.disconnects > cm2MaxDisconnects then restartOvsConnection now { s with fastBackoff := false }
    else unhandledTimeout now (setState now .fastReconnect s)
  else unhandledTimeout now s

def quiesceOvs (now : ℤ) (random : Option ℕ) (s : State) : Option State :=
  (firstQuiesce random s).map (afterQuiesce now)

def Quiescing (s : State) : Prop := s.mode = .quiesceOvs ∧ s.restarting = false

instance (s : State) : Decidable (Quiescing s) := inferInstanceAs (Decidable (_ ∧ _))

/-- The update that finds the connection lost, or the fast re-connection out of time, and goes on in the new state. -/
def enterQuiesce (now : ℤ) (random : Option ℕ) (s : State) : Option State :=
  let s := unhandledTimeout now (setState now .quiesceOvs s)
  if s.mode = .quiesceOvs then quiesceOvs now random s else some s

def update (s : State) (now : ℤ) : Option State :=
  if Quiescing s then quiesceOvs now none s else some s

/-- The state was left for `FAST_RECONNECT` or towards the redirector. -/
def Left (s : State) : Prop :=
  s.mode = .fastReconnect ∨ s.mode = .linkSel ∨ s.mode = .ovsInit ∨ s.restarting = true

/-- From the update at `now` on, and whenever the later ones are made, the state lasts for the configured time. -/
def Lasts (now : ℤ) (random : Option ℕ) (s : State) : Prop :=
  ∀ times t, (now :: times).IsChain (· ≤ ·) → t = (now :: times).getLast (by simp) →
    ∃ s', (enterQuiesce now random s).bind (times.foldlM update) = some s' ∧
      (t - now < s.minBackoff → Quiescing s') ∧ (s.maxBackoff ≤ t - now → Left s')

/-- The state while the time-out runs. -/
def waiting (now backoff : ℤ) (s : State) : State :=
  { s with mode := .quiesceOvs, timestamp := now, stateChanged := false, disconnects := s.disconnects + 1, backoff }

section

variable {s q : State} {now t b : ℤ} {random : Option ℕ} {times : List ℤ}

theorem Left.not_quiescing (h : Left s) : ¬ Quiescing s := by
  rintro ⟨hm, hr⟩
  simp [Left, hm, hr] at h

/-- What holds of the state as long as it waits. -/
structure Waits (q : State) : Prop where
  quiescing : Quiescing q
  stateChanged : q.stateChanged = false
  connected : q.connected = false

theorem Waits.update_eq (h : Waits q) (t : ℤ) : update q t = some (afterQuiesce t q) := by
  simp [update, h.quiescing, quiesceOvs, firstQuiesce, h.stateChanged]

theorem Waits.stays (h : Waits q) (ht : timeout t q = false) : afterQuiesce t q = q := by
  simp [afterQuiesce, h.connected, ht, unhandledTimeout]

theorem Waits.leaves (h : Waits q) (ht : timeout t q = true) : Left (afterQuiesce t q) := by
  obtain ⟨⟨hm, -⟩, -, hc⟩ := h
  simp only [afterQuiesce, hc, Bool.false_eq_true, if_false, ht, if_true]
  split
  · unfold restartOvsConnection
    split
    · split <;> simp [Left, setState, hm]
    · simp [Left, setState, hm]
  · simp [Left, setState, hm, unhandledTimeout, timeout, getTimeout]

theorem Left.foldlM_update (h : Left s) : times.foldlM update s = some s := by
  induction times with
  | nil => rfl
  | cons t times ih =>
    rw [List.foldlM_cons, update, if_neg h.not_quiescing]
    exact ih

/-- A run of updates leaves the state with the first one that comes after the time-out. -/
theorem Waits.foldlM_update (h : Waits q) (times : List ℤ) : ∃ s', times.foldlM update q = some s' ∧
      ((s' = q ∧ ∀ t ∈ times, timeout t q = false) ∨ Left s' ∧ ∃ t ∈ times, timeout t q = true) := by
  induction times with
  | nil => exact ⟨q, rfl, .inl ⟨rfl, by simp⟩⟩
  | cons t times ih =>
    rw [List.foldlM_cons, h.update_eq]
    cases ht : timeout t q with
    | true => exact ⟨_, (h.leaves ht).foldlM_update, .inr ⟨h.leaves ht, t, by simp, ht⟩⟩
    | false =>
      rw [h.stays ht]
      obtain ⟨s', hs, ⟨rfl, hn⟩ | ⟨hl, t', ht', hx⟩⟩ := ih
      · exact ⟨s', hs, .inl ⟨rfl, by simpa [ht] using hn⟩⟩
      · exact ⟨s', hs, .inr ⟨hl, t', by simp [ht'], hx⟩⟩

/-- A machine whose connection was lost, with limits that are of type `int` and in order. -/
structure Lost (s : State) : Prop where
  mode : s.mode = .connected ∨ s.mode = .fastReconnect
  connected : s.connected = false
  restarting : s.restarting = false
  ordered : s.minBackoff ≤ s.maxBackoff
  lower : -2 ^ 31 ≤ s.minBackoff
  upper : s.maxBackoff < 2 ^ 31

theorem Lost.waits (h : Lost s) (now b : ℤ) : Waits (waiting now b s) := ⟨⟨rfl, h.restarting⟩, rfl, h.connected⟩

theorem timeout_waiting : timeout t (waiting now b s) = true ↔ b ≠ -1 ∧ b ≤ t - now := by
  exact decide_eq_true_iff

/-- The time-out of the last wait is compared once more before the new one is computed. -/
theorem Lost.unhandled (h : Lost s) : unhandledTimeout now (setState now .quiesceOvs s) =
      { s with mode := if s.backoff ≠ -1 ∧ s.backoff ≤ 0 then .init else .quiesceOvs, timestamp := now, stateChanged := true } := by
  have hm : s.mode ≠ .quiesceOvs := by rcases h.mode with hm | hm <;> simp [hm]
  by_cases hb : s.backoff ≠ -1 ∧ s.backoff ≤ 0 <;>
    simp [unhandledTimeout, setState, hm, timeout, getTimeout, cm2NoTimeout, hb]

theorem Lost.entered (h : Lost s) (hk : ¬ (s.backoff ≠ -1 ∧ s.backoff ≤ 0)) :
    enterQuiesce now random s = (computeBackoff random s).bind fun b => update (waiting now b s) now := by
  rw [enterQuiesce, h.unhandled, if_neg hk, if_pos rfl, quiesceOvs, firstQuiesce, if_pos rfl]
  have hc : computeBackoff random { s with mode := .quiesceOvs, timestamp := now, stateChanged := true } =
      computeBackoff random s := rfl
  rw [hc]
  cases computeBackoff random s with
  | none => rfl
  | some b => exact ((h.waits ..).update_eq now).symm

/-- The difference of the limits has to be an `int` that is not zero. -/
theorem Lost.computeBackoff_eq_some_iff (h : Lost s) (hf : s.fastBackoff = false) {r : ℕ} :
    computeBackoff (some r) s = some b ↔ s.minBackoff < s.maxBackoff ∧ s.maxBackoff - s.minBackoff < 2 ^ 31 ∧
      b = r % (s.maxBackoff - s.minBackoff) + s.minBackoff := by
  obtain ⟨-, -, -, hle, hlo, hup⟩ := h
  simp only [computeBackoff, hf, Bool.false_eq_true, if_false]
  generalize hd : s.maxBackoff - s.minBackoff = d
  by_cases hlt : 0 < d ∧ d < 2 ^ 31
  · have hr : d.bmod (2 ^ 32) = d := Int.bmod_eq_of_le (by omega) (by omega)
    have hm : d % 2 ^ 32 = d := Int.emod_eq_of_lt (by omega) (by omega)
    have h₀ := Int.emod_nonneg (r : ℤ) hlt.1.ne'
    have h₁ := Int.emod_lt_of_pos (r : ℤ) hlt.1
    have hb : (r % d + s.minBackoff).bmod (2 ^ 32) = _ := Int.bmod_eq_of_le (by omega) (by omega)
    rw [if_neg (by omega), hm, hb, some_inj]
    omega
  · have hn : d = 0 ∨ d.bmod (2 ^ 32) ≠ d := by
      have := Int.bmod_lt (x := d) (m := 2 ^ 32) (by decide)
      omega
    rw [if_pos hn]
    exact iff_of_false (by simp) (by omega)

theorem Lost.lasts_iff (h : Lost s) (hk : ¬ (s.backoff ≠ -1 ∧ s.backoff ≤ 0))
    (hb : computeBackoff random s = some b) (hmi : s.minBackoff ≤ b) (hm : b ≤ s.maxBackoff) :
    Lasts now random s ↔ b ≠ -1 := by
  have hr : ∀ times, (enterQuiesce now random s).bind (times.foldlM update) =
      (now :: times).foldlM update (waiting now b s) := by
    intro times
    rw [h.entered hk, hb]
    rfl
  simp only [Lasts, hr]
  constructor
  · rintro hl rfl
    obtain ⟨s', hs, -, hx⟩ := hl [now + |s.maxBackoff|] _ (by simp) rfl
    obtain ⟨s'', hs', ⟨rfl, -⟩ | ⟨-, t, -, ht⟩⟩ := (h.waits now (-1)).foldlM_update _
    · cases hs.symm.trans hs'
      exact (hx (by simpa using le_abs_self _)).not_quiescing (h.waits ..).quiescing
    · exact (timeout_waiting.mp ht).1 rfl
  · intro hb times t hc ht
    obtain ⟨s', hs, hs'⟩ := (h.waits now b).foldlM_update (now :: times)
    refine ⟨s', hs, fun hlt => ?_, fun hle => ?_⟩
    · obtain ⟨rfl, -⟩ | ⟨-, t', ht', hx⟩ := hs'
      · exact (h.waits ..).quiescing
      · have hle : t' ≤ t := ht ▸ hc.pairwise.rel_getLast ht'
        have hx := (timeout_waiting.mp hx).2
        omega
    · obtain ⟨rfl, hn⟩ | ⟨hl, -⟩ := hs'
      · have hx := hn t (ht ▸ List.getLast_mem _)
        exact absurd (hx.symm.trans (timeout_waiting.mpr ⟨hb, hm.trans hle⟩)) (by simp)
      · exact hl

theorem Lost.stale_of_lasts (h : Lost s) (hl : Lasts now random s) : ¬ (s.backoff ≠ -1 ∧ s.backoff ≤ 0) := by
  intro hk
  obtain ⟨s', hs, -, hx⟩ := hl [now + |s.maxBackoff|] _ (by simp) rfl
  rw [enterQuiesce, h.unhandled, if_pos hk, if_neg (by simp)] at hs
  cases hs
  simpa [Left, h.restarting] using hx (by simpa using le_abs_self _)

theorem backoff_honoured_iff (h : Lost s) :
    (∀ r < 2 ^ 32, (∃ b, computeBackoff (some r) s = some b) ∧ (s.fastBackoff = false → Lasts now (some r) s)) ↔
      s.fastBackoff = true ∨ s.minBackoff < s.maxBackoff ∧ (0 ≤ s.minBackoff ∨ s.maxBackoff < 0) ∧
        (s.backoff = -1 ∨ 0 < s.backoff) := by
  obtain ⟨-, -, -, hle, hlo, hup⟩ := id h
  cases hf : s.fastBackoff with
  | true => simp [computeBackoff, hf]
  | false =>
  simp only [Bool.false_eq_true, false_or, forall_const]
  constructor
  · intro ha
    obtain ⟨⟨b, hb⟩, hl⟩ := ha 0 (by decide)
    obtain ⟨hlt, hd, -⟩ := (h.computeBackoff_eq_some_iff hf).mp hb
    have hk := h.stale_of_lasts hl
    refine ⟨hlt, ?_, by omega⟩
    by_contra hn
    -- some word gives the time-out that stands for none
    have hb : computeBackoff (some (-1 - s.minBackoff).toNat) s = some (-1) := by
      rw [h.computeBackoff_eq_some_iff hf, Int.toNat_of_nonneg (by omega), Int.emod_eq_of_lt (by omega) (by omega)]
      omega
    exact (h.lasts_iff hk hb (by omega) (by omega)).mp (ha _ (by omega)).2 rfl
  · rintro ⟨hlt, hs, hk⟩ r -
    have h₀ := Int.emod_nonneg (r : ℤ) (b := s.maxBackoff - s.minBackoff) (by omega)
    have h₁ := Int.emod_lt_of_pos (r : ℤ) (b := s.maxBackoff - s.minBackoff) (by omega)
    have hb := (h.computeBackoff_eq_some_iff hf (r := r)).mpr ⟨hlt, by omega, rfl⟩
    exact ⟨⟨_, hb⟩, (h.lasts_iff (by omega) hb (by omega) (by omega)).mpr (by omega)⟩

end

def lostWith (minBackoff maxBackoff : ℤ) : State :=
  ⟨.connected, false, 0, false, 0, 60, minBackoff, maxBackoff, false, false, false, false⟩

theorem lostWith_honoured : Lost (lostWith 10 60) ∧
    ∀ r < 2 ^ 32, (∃ b, computeBackoff (some r) (lostWith 10 60) = some b) ∧
      ((lostWith 10 60).fastBackoff = false → Lasts 7 (some r) (lostWith 10 60)) := by
  have h : Lost (lostWith 10 60) := ⟨.inl rfl, rfl, rfl, by decide, by decide, by decide⟩
  exact ⟨h, (backoff_honoured_iff h).mpr (.inr (by decide))⟩

/-- With equal limits the modulus is zero. -/
theorem equal_limits_fail : Lost (lostWith 60 60) ∧ computeBackoff (some 5) (lostWith 60 60) = none :=
  ⟨⟨.inl rfl, rfl, rfl, by decide, by decide, by decide⟩, by decide⟩

end OpenSync.Cm
