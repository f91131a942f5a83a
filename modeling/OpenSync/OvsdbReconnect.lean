import OpenSync.Ovsdb

/-!
# Connecting again

On an error `cb_ovsdb_read` closes the socket and calls `ovsdb_init_loop` three times, a second apart. There is one
global watcher, which is initialised anew by every attempt that succeeds.
-/

namespace OpenSync.Ovsdb
open List Option

/-- The sockets to the server, the descriptors under which the event loop knows the watcher, and what the attempts to
connect returned. `watcher` is the descriptor in the watcher itself. -/
structure Client where
  sockets : List Nat
  jsonRpcFd : Int
  watcher : Nat
  watching : List Nat
  attempts : List (Option Nat)
  buffer : Option Text
  bufferSize : Nat
  restarted : Bool

/-- A client with one connection. -/
def connected (fd : Nat) (buffer : Option Text) (bufferSize : Nat) : Client :=
  ⟨[fd], fd, fd, [fd], [], buffer, bufferSize, false⟩

/-- The watcher is not stopped first, so the event loop keeps it under the descriptor that it had. -/
def ovsdbInitLoop (s : Client) (conn : Option Nat) : Bool × Client :=
  let s := { s with attempts := s.attempts ++ [conn] }
  match conn with
  | none => (false, { s with jsonRpcFd := -1 })
  | some fd =>
    let s := { s with sockets := s.sockets ++ [fd], jsonRpcFd := fd }
    if 0 < fd then (true, { s with watcher := fd, watching := s.watching ++ [fd] }) else (false, s)

/-- One round of the loop. There is no result if the name is compared and none was given. -/
def retryOnce (ovsdbComment : Option String) (nr : Int) (conn : Nat → Option Nat) (s : Client) (retry : Nat) : Option Client :=
  let r := ovsdbInitLoop s (conn retry)
  if r.1 = false ∧ 2 ≤ retry ∧ nr = 0 then
    ovsdbComment.map fun name => { r.2 with restarted := s.restarted || name == "DM" }
  else some r.2

/-- What follows the label `error`. `nr` is negative after an error, zero at the end of the file or if the buffer is
full, and positive after malformed text; `conn` is what `ovsdb_conn` returns for each attempt. -/
def cbOvsdbReadError (ovsdbComment : Option String) (nr : Int) (conn : Nat → Option Nat) (s : Client) : Option Client :=
  [0, 1, 2].foldlM (retryOnce ovsdbComment nr conn) { s with
    buffer := none
    bufferSize := 0
    sockets := s.sockets.erase s.watcher
    watching := s.watching.erase s.watcher }

structure OneConnection (s : Client) : Prop where
  sockets : s.sockets.length ≤ 1
  used : ∀ fd, some fd ∈ s.attempts → s.jsonRpcFd = fd ∧ s.sockets = [fd] ∧ s.watching = [fd]
  last : ∀ before fd rest, s.attempts = before ++ some fd :: rest → rest = []
  buffer : s.buffer = none ∧ s.bufferSize = 0

variable {ovsdbComment : Option String} {nr : Int} {conn : Nat → Option Nat} {s s' : Client}

theorem attempts_ovsdbInitLoop (conn : Option Nat) : (ovsdbInitLoop s conn).2.attempts = s.attempts ++ [conn] := by
  unfold ovsdbInitLoop
  split
  · rfl
  · split_ifs <;> rfl

theorem attempts_retryOnce {retry : Nat} (h : retryOnce ovsdbComment nr conn s retry = some s') :
    s'.attempts = s.attempts ++ [conn retry] := by
  simp only [retryOnce] at h
  split_ifs at h
  · obtain ⟨name, -, rfl⟩ := map_eq_some_iff.mp h
    exact attempts_ovsdbInitLoop _
  · obtain rfl := some.inj h
    exact attempts_ovsdbInitLoop _

/-- Three attempts are made, whatever becomes of them. -/
theorem attempts_cbOvsdbReadError (h : cbOvsdbReadError ovsdbComment nr conn s = some s') :
    s'.attempts = s.attempts ++ [conn 0, conn 1, conn 2] := by
  simp only [cbOvsdbReadError, foldlM_cons, foldlM_nil, bind_eq_bind, bind_eq_some_iff] at h
  obtain ⟨s₀, h₀, s₁, h₁, s₂, h₂, heq⟩ := h
  obtain rfl := some.inj heq
  simp [attempts_retryOnce h₀, attempts_retryOnce h₁, attempts_retryOnce h₂]

/-- Only the last attempt may succeed, with a descriptor that is not zero; and if it fails after the end of the file or
with a full buffer, a name must have been given. -/
theorem oneConnection_iff (ovsdbComment : Option String) (nr : Int) (conn : Nat → Option Nat) (fd : Nat) (buffer : Option Text)
    (bufferSize : Nat) :
    (∃ s, cbOvsdbReadError ovsdbComment nr conn (connected fd buffer bufferSize) = some s ∧ OneConnection s) ↔
      conn 0 = none ∧ conn 1 = none ∧ conn 2 ≠ some 0 ∧ (conn 2 = none → nr = 0 → ovsdbComment ≠ none) := by
  constructor
  · rintro ⟨s, hs, ho⟩
    have ha := attempts_cbOvsdbReadError hs
    have h₀ : conn 0 = none := by
      by_contra hne
      obtain ⟨fd, hfd⟩ := ne_none_iff_exists'.mp hne
      exact cons_ne_nil _ _ (ho.last [] fd [conn 1, conn 2] (by rw [ha, hfd]; rfl))
    have h₁ : conn 1 = none := by
      by_contra hne
      obtain ⟨fd, hfd⟩ := ne_none_iff_exists'.mp hne
      exact cons_ne_nil _ _ (ho.last [conn 0] fd [conn 2] (by rw [ha, hfd]; rfl))
    simp only [cbOvsdbReadError, retryOnce, ovsdbInitLoop, connected, foldlM_cons, foldlM_nil, h₀, h₁] at hs
    refine ⟨h₀, h₁, fun h₂ => ?_, fun h₂ hnr hn => ?_⟩
    · -- a socket zero is taken for a failure, and not watched
      have hw := (ho.used 0 (by simp [ha, h₂])).2.2
      by_cases hnr : nr = 0 <;> cases ovsdbComment <;> simp [h₂, hnr] at hs <;> simp [← hs] at hw
    · simp [h₂, hnr, hn] at hs
  · rintro ⟨h₀, h₁, h₂, hn⟩
    have hl : ∀ (conn₂ : Option Nat) (before : List (Option Nat)) (fd : Nat) (rest : List (Option Nat)),
        [none, none, conn₂] = before ++ some fd :: rest → rest = [] := by
      intro conn₂ before fd rest h
      rcases before with _ | ⟨_, _ | ⟨_, _ | ⟨_, before⟩⟩⟩ <;> simp at h
      exact h.2.2.2
    simp only [cbOvsdbReadError, retryOnce, ovsdbInitLoop, connected, foldlM_cons, foldlM_nil, h₀, h₁]
    cases hc : conn 2 with
    | none =>
      by_cases hnr : nr = 0
      · obtain ⟨name, rfl⟩ := ne_none_iff_exists'.mp (hn hc hnr)
        exact ⟨_, by simp [hnr]; rfl, by simp, by simp, hl none, rfl, rfl⟩
      · exact ⟨_, by simp [hnr]; rfl, by simp, by simp, hl none, rfl, rfl⟩
    | some new =>
      have hp : 0 < new := Nat.pos_of_ne_zero fun h => h₂ (hc.trans (congrArg some h))
      exact ⟨_, by simp [hp]; rfl, by simp, by simp, hl (some new), rfl, rfl⟩

/-- All three attempts succeed: the first two sockets are never closed. -/
theorem three_sockets : ¬ ∃ s, cbOvsdbReadError none (-1) (fun retry => some (retry + 4)) (connected 4 none 0) = some s ∧
    OneConnection s := by
  rintro ⟨s, hs, ho⟩
  have hso := ho.sockets
  rw [← some.inj hs] at hso
  exact absurd hso (by decide)

end OpenSync.Ovsdb
