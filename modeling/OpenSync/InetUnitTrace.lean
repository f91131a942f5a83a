import OpenSync.InetUnitCommit

/-!
# The order of the callbacks

Along a run, a unit is started while the unit above it was last started, and successfully; it is stopped only
while it runs, and after everything below it. The status flag of a unit follows the trace: it tells whether the
last callback was a start. A failed start leaves the flag set, so a later commit takes the unit for running.
-/

namespace OpenSync.Inet

open Forest

def lastCall (trace : List Call) (p : Position) : Option Call := trace.find? fun c => decide (c.unit = p)

/-- The unit was started and not stopped since; before its first callback, as it was built. -/
def running (built : Units) (trace : List Call) (p : Position) : Bool :=
  match lastCall trace p with
  | some c => c.enable
  | none => built.nodes.any fun x => decide (x.1 = p) && x.2.unStatus

/-- The callback may come next after the trace, where the units have the given positions. -/
structure Legal (built : Units) (ps : List Position) (trace : List Call) (c : Call) : Prop where
  alternates : running built trace c.unit = !c.enable
  parent : c.enable = true → c.unit.tail ≠ [] → ∃ k, lastCall trace c.unit.tail = some k ∧ k.enable = true ∧ k.ok = true
  below : c.enable = false → ∀ q ∈ ps, c.unit <:+ q → q ≠ c.unit → running built trace q = false

def Disciplined (built : Units) : List Call → Prop
  | [] => True
  | c :: trace => Legal built (built.positions [] 0) trace c ∧ Disciplined built trace

/-! ## Traces that grow by legal callbacks -/

/-- The second trace continues the first by legal callbacks on the units of the given positions. -/
inductive Issues (built : Units) (ps : List Position) (trace : List Call) : List Call → Prop
  | refl : Issues built ps trace trace
  | call {trace' c} (h : Issues built ps trace trace') (hmem : c.unit ∈ ps) (hlegal : Legal built ps trace' c) :
      Issues built ps trace (c :: trace')

section Traces

variable {built : Units} {ps ps' : List Position} {trace trace' trace'' : List Call}

theorem lastCall_cons_self (c : Call) (trace : List Call) : lastCall (c :: trace) c.unit = some c := by
  simp [lastCall]

theorem lastCall_cons_ne {c : Call} {p : Position} (h : c.unit ≠ p) (trace : List Call) :
    lastCall (c :: trace) p = lastCall trace p := by
  simp [lastCall, h]

section

variable (h : Issues built ps trace trace')
include h

theorem Issues.trans (h' : Issues built ps trace' trace'') :
    Issues built ps trace trace'' := by
  induction h' with
  | refl => exact h
  | call _ hm hl ih => exact ih.call hm hl

theorem Issues.frame {p : Position} (hp : p ∉ ps) :
    lastCall trace' p = lastCall trace p := by
  induction h with
  | refl => rfl
  | call _ hm _ ih =>
    rw [lastCall_cons_ne (ne_of_mem_of_not_mem hm hp), ih]

theorem Issues.mono (hsu : ps ⊆ ps')
    (hc : ∀ p ∈ ps, ∀ q ∈ ps', p <:+ q → q ∈ ps) : Issues built ps' trace trace' := by
  induction h with
  | refl => exact Issues.refl
  | call _ hm hl ih =>
    exact ih.call (hsu hm) ⟨hl.alternates, hl.parent, fun hen q hq hs => hl.below hen q (hc _ hm q hq hs) hs⟩

end

theorem Issues.disciplined (h : Issues built (built.positions [] 0) trace trace')
    (hd : Disciplined built trace) : Disciplined built trace' := by
  induction h with
  | refl => exact hd
  | call _ _ hl ih => exact ⟨hl, ih⟩

end Traces

section Parts

variable {built : Units} {up : Position} {i : Nat} {unit : InetUnit} {deps rest : Units} {trace trace' : List Call}

theorem Issues.of_deps (h : Issues built (deps.positions (i :: up) 0) trace trace') :
    Issues built ((Forest.cons unit deps rest).positions up i) trace trace' := by
  apply h.mono
  · exact fun p hp => mem_positions_cons.mpr (.inr (.inl hp))
  · intro p hp q hq hs
    obtain ⟨hu, hne⟩ := deps_under hp
    rcases mem_positions_cons.mp hq with rfl | hq | hq
    · exact absurd (hs.eq_of_length (le_antisymm hs.length_le hu.length_le)) hne
    · exact hq
    · exact absurd (hu.trans hs) (rest_not_under hq)

theorem Issues.of_rest (h : Issues built (rest.positions up (i + 1)) trace trace') :
    Issues built ((Forest.cons unit deps rest).positions up i) trace trace' := by
  apply h.mono
  · exact fun p hp => mem_positions_cons.mpr (.inr (.inr hp))
  · intro p hp q hq hs
    obtain ⟨j, hij, hj⟩ := positions_under hp
    have hne {r : Position} (hr : (i :: up) <:+ r) (hpr : p <:+ r) : False := by
      have := index_unique (hj.trans hpr) hr
      omega
    rcases mem_positions_cons.mp hq with rfl | hq | hq
    · exact (hne List.suffix_rfl hs).elim
    · exact (hne (deps_under hq).1 hs).elim
    · exact hq

theorem head_not_mem_deps : i :: up ∉ deps.positions (i :: up) 0 := fun h => (deps_under h).2 rfl

theorem head_not_mem_rest : i :: up ∉ rest.positions up (i + 1) := fun h => rest_not_under h List.suffix_rfl

theorem deps_not_mem_rest {p : Position} (h : p ∈ deps.positions (i :: up) 0) :
    p ∉ rest.positions up (i + 1) := fun hr => rest_not_under hr (deps_under h).1

end Parts

/-! ## What the flags record -/

structure Recorded (built : Units) (trace : List Call) (p : Position) (unit : InetUnit) : Prop where
  status : unit.unStatus = running built trace p
  error : ∀ k, lastCall trace p = some k → k.enable = true → unit.unError = !k.ok
  called : unit.unStatus = true → unit.unPending = false → (lastCall trace p).isSome = true

def Tracked (built : Units) (trace : List Call) (up : Position) (i : Nat) (units : Units) : Prop :=
  ∀ x ∈ units.located up i, Recorded built trace x.1 x.2

section Records

variable {built : Units} {trace trace' : List Call} {p : Position} {unit : InetUnit}

theorem running_congr (h : lastCall trace' p = lastCall trace p) : running built trace' p = running built trace p := by
  rw [running, running, h]

theorem Recorded.congr (h : Recorded built trace p unit) (hl : lastCall trace' p = lastCall trace p) :
    Recorded built trace' p unit :=
  ⟨by rw [h.status, running_congr hl], by rw [hl]; exact h.error, by rw [hl]; exact h.called⟩

theorem Tracked.congr {up : Position} {i : Nat} {units : Units} (h : Tracked built trace up i units)
    (hl : ∀ q ∈ units.positions up i, lastCall trace' q = lastCall trace q) : Tracked built trace' up i units :=
  fun x hx => (h x hx).congr (hl x.1 (List.mem_map_of_mem hx))

theorem tracked_cons {up : Position} {i : Nat} {deps rest : Units} : Tracked built trace up i (.cons unit deps rest) ↔
      Recorded built trace (i :: up) unit ∧ Tracked built trace (i :: up) 0 deps ∧
        Tracked built trace up (i + 1) rest := by
  simp only [Tracked, mem_located_cons]
  constructor
  · exact fun h => ⟨h _ (.inl rfl), fun x hx => h x (.inr (.inl hx)), fun x hx => h x (.inr (.inr hx))⟩
  · rintro ⟨hu, hd, hr⟩ x (rfl | hx | hx)
    · exact hu
    · exact hd x hx
    · exact hr x hx

theorem Recorded.started (h : Recorded built trace p unit) (hs : unit.unStatus = true) (hp : unit.unPending = false) :
    ∃ k, lastCall trace p = some k ∧ k.enable = true ∧ unit.unError = !k.ok := by
  obtain ⟨k, hk⟩ := Option.isSome_iff_exists.mp (h.called hs hp)
  have hen : k.enable = true := by
    have hr := h.status
    rw [running, hk, hs] at hr
    exact hr.symm
  exact ⟨k, hk, hen, h.error k hk hen⟩

theorem recorded_cons (p : Position) (id : Int) (enable ok : Bool) (trace : List Call)
    (hs : unit.unStatus = enable) (he : unit.unError = !ok) : Recorded built (⟨p, id, enable, ok⟩ :: trace) p unit := by
  have hl : lastCall (⟨p, id, enable, ok⟩ :: trace) p = some ⟨p, id, enable, ok⟩ :=
    lastCall_cons_self ⟨p, id, enable, ok⟩ trace
  refine ⟨by rw [running, hl, hs], ?_, fun _ _ => by rw [hl]; rfl⟩
  rw [hl]
  rintro k hk -
  obtain rfl := Option.some.inj hk
  exact he

end Records

end OpenSync.Inet
