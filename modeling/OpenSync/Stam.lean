import Mathlib.Order.Basic

/-!
# Table-checked state machines

An action is given to the handler of the current state. If the handler names a next state, that state is entered with the
initial action, and so on until a handler names none. Exceptions go to a state of their own from every other one. Both
actions and transitions are checked against a table. An action comes to an end if, with the initial action, handlers only
name states of a smaller rank.
-/

namespace OpenSync.Stam
open Option

/-- What a handler answers. -/
inductive Answer (State : Type*)
  | busy
  | error
  | go (s : State)
  deriving DecidableEq

structure Machine (State Action D : Type*) where
  first : State
  exception : State
  stateInit : Action
  isException : Action → Bool
  handler : State → Action → D → D × Answer State
  validAction : State → Action → Bool
  validTransition : State → State → Action → Bool

variable {State Action D : Type*} (M : Machine State Action D)

/-- The state that an action ends in, the data, and whether all went well. Without fuel there is no result. -/
@[grind =] def Machine.loop : Nat → State → D → Action → Option (State × D × Bool)
  | 0, _, _, _ => none
  | fuel + 1, s, d, action =>
    if !M.isException action && !M.validAction s action then some (s, d, false)
    else
      match M.handler s action d with
      | (d, .busy) => some (s, d, true)
      | (d, .error) => some (s, d, false)
      | (d, .go s') =>
        if M.validTransition s s' action then Machine.loop fuel s' d M.stateInit
        else some (s, d, false)

def Machine.act (fuel : Nat) (s : State) (d : D) (action : Action) : Option (State × D × Bool) :=
  M.loop fuel (if M.isException action then M.exception else s) d action

/-- The first action of all enters the first state before. -/
def Machine.stateDo (fuel : Nat) (s : Option State) (d : D) (action : Action) : Option (State × D × Bool) :=
  match s with
  | some s => M.act fuel s d action
  | none => do
    let r ← M.loop fuel M.first d M.stateInit
    if r.2.2 then M.act fuel r.1 r.2.1 action else some r

/-- With the initial action, handlers name states of smaller rank only. -/
def Machine.Ranked (rank : State → Nat) : Prop :=
  ∀ s d d' s', M.handler s M.stateInit d = (d', .go s') → rank s' < rank s

variable {M} {rank : State → Nat} {fuel : Nat} {s : State}

open Machine

theorem Machine.Ranked.loop_init (h : M.Ranked rank) (d : D) (hf : rank s < fuel) :
    ∃ r, M.loop fuel s d M.stateInit = some r := by
  induction fuel generalizing s d with
  | zero => exact absurd hf (Nat.not_lt_zero _)
  | succ fuel ih =>
    rw [loop]
    split_ifs
    · exact ⟨_, rfl⟩
    split
    · exact ⟨_, rfl⟩
    · exact ⟨_, rfl⟩
    · rename_i d' s' hgo
      have hlt := h _ _ _ _ hgo
      split_ifs
      · exact ih d' (by omega)
      · exact ⟨_, rfl⟩

theorem Machine.Ranked.loop_action (h : M.Ranked rank) (hf : ∀ s, rank s < fuel) (s : State) (d : D)
    (action : Action) : ∃ r, M.loop (fuel + 1) s d action = some r := by
  rw [loop]
  split_ifs
  · exact ⟨_, rfl⟩
  split
  · exact ⟨_, rfl⟩
  · exact ⟨_, rfl⟩
  · split_ifs
    · exact h.loop_init _ (hf _)
    · exact ⟨_, rfl⟩

theorem Machine.Ranked.stateDo (h : M.Ranked rank) (hf : ∀ s, rank s < fuel) (s : Option State) (d : D)
    (action : Action) : ∃ r, M.stateDo (fuel + 1) s d action = some r := by
  cases s with
  | some s => exact h.loop_action hf _ d action
  | none =>
    obtain ⟨r, hr⟩ := h.loop_init d (Nat.lt_succ_of_lt (hf M.first))
    simp only [Machine.stateDo, hr, bind_eq_bind, bind_some]
    split_ifs
    · exact h.loop_action hf _ r.2.1 action
    · exact ⟨r, rfl⟩

/-! ## What handlers keep -/

def Machine.Keeps (M : Machine State Action D) (P : D → Prop) : Prop :=
  ∀ s action d, P d → P (M.handler s action d).1

variable {r : State × D × Bool} {action : Action} {d : D}

theorem Machine.Keeps.loop {P : D → Prop} (h : M.Keeps P)
    (hd : P d) (hr : M.loop fuel s d action = some r) : P r.2.1 := by
  induction fuel generalizing s d action with
  | zero => cases hr
  | succ fuel ih =>
    have hs := h s action d hd
    rw [loop] at hr
    split_ifs at hr
    · cases hr
      exact hd
    split at hr <;> rename_i hh <;> rw [hh] at hs
    · cases hr
      exact hs
    · cases hr
      exact hs
    · split_ifs at hr
      · exact ih hs hr
      · cases hr
        exact hs

theorem Machine.Keeps.stateDo {P : D → Prop} (h : M.Keeps P) {s : Option State}
    (hd : P d) (hr : M.stateDo fuel s d action = some r) : P r.2.1 := by
  cases s with
  | some s => exact h.loop hd hr
  | none =>
    obtain ⟨r', hr', hre⟩ := bind_eq_some_iff.mp hr
    have hd' := h.loop hd hr'
    split_ifs at hre
    · exact h.loop hd' hre
    · cases hre
      exact hd'

/-! ## What holds in states -/

/-- A property of each state that its handler brings about when the state is entered, and keeps. -/
structure Machine.Settles (M : Machine State Action D) (Q : State → D → Prop) : Prop where
  enters : ∀ s d, Q s (M.handler s M.stateInit d).1
  keeps : ∀ s action d, Q s d → Q s (M.handler s action d).1
  valid : ∀ s, M.validAction s M.stateInit = true
  exception : ∀ d, Q M.exception d

variable {Q : State → D → Prop}

theorem Machine.Settles.loop (h : M.Settles Q)
    (hd : Q s d ∨ action = M.stateInit) (hr : M.loop fuel s d action = some r) : Q r.1 r.2.1 := by
  induction fuel generalizing s d action with
  | zero => cases hr
  | succ fuel ih =>
    have hs : Q s (M.handler s action d).1 := by
      rcases hd with hd | rfl
      · exact h.keeps s action d hd
      · exact h.enters s d
    rw [loop] at hr
    split_ifs at hr with hin
    · cases hr
      rcases hd with hd | rfl
      · exact hd
      · simp [h.valid] at hin
    · split at hr <;> rename_i hh <;> rw [hh] at hs
      · cases hr
        exact hs
      · cases hr
        exact hs
      · split_ifs at hr
        · exact ih (.inr rfl) hr
        · cases hr
          exact hs

theorem Machine.Settles.act (h : M.Settles Q) (hd : Q s d) (hr : M.act fuel s d action = some r) : Q r.1 r.2.1 := by
  unfold Machine.act at hr
  split_ifs at hr
  · exact h.loop (.inl (h.exception d)) hr
  · exact h.loop (.inl hd) hr

theorem Machine.Settles.stateDo (h : M.Settles Q) {s : Option State} (hd : ∀ s', s = some s' → Q s' d)
    (hr : M.stateDo fuel s d action = some r) : Q r.1 r.2.1 := by
  cases s with
  | some s => exact h.act (hd s rfl) hr
  | none =>
    obtain ⟨r', hr', hre⟩ := bind_eq_some_iff.mp hr
    have hd' := h.loop (.inr rfl) hr'
    split_ifs at hre
    · exact h.act hd' hre
    · cases hre
      exact hd'

end OpenSync.Stam
