import OpenSync.InetUnitTrace

/-!
# The passes of a commit, and runs

What the stop pass and the start pass call is legal call by call, and the flags they leave agree with the trace.
For the start pass this takes that no unit whose start failed has a dependent to be started; from there every run
is followed step by step.
-/

namespace OpenSync.Inet

open Forest Issues

variable {units : Units} {up : Position}

theorem Halted.idle (h : Halted false units) {i : Nat}
    {x : Position × InetUnit} (hx : x ∈ units.located up i) : x.2.unStatus = false := by
  induction units generalizing up i with
  | nil => simp [located] at hx
  | cons unit deps rest ihd ihr =>
    obtain ⟨⟨-, hs⟩, hd, hr⟩ := h
    rcases mem_located_cons.mp hx with rfl | hm | hm
    · rw [← Bool.not_eq_true]
      exact fun h => absurd (hs h).1 (by simp)
    · exact ihd hd hm
    · exact ihr hr hm

/-! ## Visits and passes -/

variable {built : Units} (fn : CommitFn) {trace : List Call} {i : Nat} {unit : InetUnit} {deps rest : Units}

/-- What a visit of a unit called is legal, and of this unit, whose flags agree with it. -/
structure Visits (built : Units) (ps : List Position) (trace : List Call) (p : Position)
    (visit : Bool × InetUnit × List Call) : Prop where
  issues : Issues built ps trace visit.2.2
  recorded : Recorded built visit.2.2 p visit.2.1
  frame : ∀ q, q ≠ p → lastCall visit.2.2 q = lastCall trace q

theorem Recorded.visits {p : Position} (h : Recorded built trace p unit) {ps : List Position} (ok : Bool) :
    Visits built ps trace p (ok, unit, trace) := ⟨refl, h, fun _ _ => rfl⟩

structure Passes (built : Units) (up : Position) (i : Nat) (units : Units) (trace : List Call)
    (pass : Walked (List Call)) : Prop where
  issues : Issues built (units.positions up i) trace pass.ctx
  tracked : Tracked built pass.ctx up i pass.units
  positions_eq : pass.units.positions up i = units.positions up i

/-- The unit is entered, its dependents are gone over, it is left, and its siblings follow. -/
theorem Passes.cons {trace' : List Call} {below siblings : Walked (List Call)} {leave : Bool × InetUnit × List Call}
    (hen : Issues built ((Forest.cons unit deps rest).positions up i) trace trace')
    (hb : Passes built (i :: up) 0 deps trace' below)
    (hl : Visits built ((Forest.cons unit deps rest).positions up i) below.ctx (i :: up) leave)
    (hs : Passes built up (i + 1) rest leave.2.2 siblings) (ok : Bool) :
    Passes built up i (.cons unit deps rest) trace ⟨ok, .cons leave.2.1 below.units siblings.units, siblings.ctx⟩ := by
  refine ⟨hen.trans (hb.issues.of_deps.trans (hl.issues.trans hs.issues.of_rest)),
    tracked_cons.mpr ⟨hl.recorded.congr (hs.issues.frame head_not_mem_rest), ?_, hs.tracked⟩, ?_⟩
  · apply hb.tracked.congr
    intro q hq
    rw [hs.issues.frame (deps_not_mem_rest hq), hl.frame q (deps_under hq).2]
  · rw [positions_cons, positions_cons, hb.positions_eq, hs.positions_eq]

/-! ## The stop pass -/

theorem leave_visits (parent : Option InetUnit) (rest : Units) (hr : Recorded built trace (i :: up) unit)
    (hid : unit.steady = false → ∀ q ∈ deps.positions (i :: up) 0, running built trace q = false) :
    Visits built ((Forest.cons unit deps rest).positions up i) trace (i :: up)
      (commitStop fn parent (i :: up) unit trace false) := by
  unfold commitStop
  simp only [Bool.false_eq_true, if_false]
  split
  · exact hr.visits _
  rename_i hgo
  have hste : unit.steady = false := by
    cases hst : unit.steady with
    | false => rfl
    | true => simp_all [InetUnit.steady]
  split
  · rename_i hs
    refine ⟨refl.call (mem_positions_cons.mpr (.inl rfl)) ⟨?_, by simp, ?_⟩,
      recorded_cons _ _ _ _ _ rfl rfl, fun q hq => lastCall_cons_ne (Ne.symm hq) _⟩
    · rw [← hr.status, hs]
      rfl
    · intro _ q hq hsu hne
      rcases mem_positions_cons.mp hq with rfl | hq | hq
      · exact absurd rfl hne
      · exact hid hste q hq
      · exact absurd hsu (rest_not_under hq)
  · rename_i hs
    have hs : unit.unStatus = false := by simpa using hs
    exact ⟨refl, ⟨by rw [← hr.status, hs], hr.error, by simp⟩, fun _ _ => rfl⟩

theorem stopPass_passes {above : Bool}
    (hs : Settled above units) (parent : Option InetUnit) (up : Position) (i : Nat) (trace : List Call)
    (htr : Tracked built trace up i units) :
    Passes built up i units trace (inetUnitWalk (commitStop fn) parent up i units trace) := by
  induction units generalizing above parent up i trace with
  | nil => exact ⟨refl, htr, rfl⟩
  | cons unit deps rest ihd ihr =>
    obtain ⟨⟨hun, hde⟩, hr⟩ := hs
    obtain ⟨hu, hdrec, hrr⟩ := tracked_cons.mp htr
    have hb := ihd hde (some unit) (i :: up) 0 trace hdrec
    obtain ⟨hdret, hdre⟩ := walk_commitStop fn (some unit) (i :: up) 0 deps trace
    have hen : commitStop fn parent (i :: up) unit trace true = (true, unit, trace) := rfl
    simp only [inetUnitWalk, hen, if_true, hdret]
    generalize inetUnitWalk (commitStop fn) (some unit) (i :: up) 0 deps trace = below at hb hdre ⊢
    -- the dependents are stopped before the unit
    have hid (hst : unit.steady = false) : ∀ q ∈ deps.positions (i :: up) 0, running built below.ctx q = false := by
      rw [hst, Bool.and_false] at hde
      intro q hq
      rw [← hb.positions_eq] at hq
      obtain ⟨v, hv⟩ := mem_positions.mp hq
      rw [← (hb.tracked _ hv).status]
      exact (hde.halted hdre).idle hv
    have hl := leave_visits fn parent rest (hu.congr (hb.issues.frame head_not_mem_deps)) hid
    generalize commitStop fn parent (i :: up) unit below.ctx false = leave at hl ⊢
    refine Passes.cons refl hb hl (ihr hr parent up (i + 1) leave.2.2 (hrr.congr fun q hq => ?_)) _
    rw [hl.frame q (fun heq => head_not_mem_rest (heq ▸ hq)), hb.issues.frame fun hd => deps_not_mem_rest hd hq]

/-! ## The start pass -/

def StartedOk (trace : List Call) (p : Position) : Prop :=
  ∃ k, lastCall trace p = some k ∧ k.enable = true ∧ k.ok = true

def NoneEnabled (p : Position) (nodes : List (Position × InetUnit)) : Prop :=
  ∀ y ∈ nodes, y.1.tail = p → y.2.unEnabled = false

/-- No unit whose start failed has a dependent that could be started. -/
def FailedIdle (nodes : List (Position × InetUnit)) : Prop :=
  ∀ x ∈ nodes, x.2.unStatus = true → x.2.unError = true → NoneEnabled x.1 nodes

/-- What the start pass knows of the parent of the units it goes over. -/
def ParentReady (trace : List Call) (parent : Option InetUnit) (up : Position)
    (nodes : List (Position × InetUnit)) : Prop :=
  up = [] ∨ parentUp parent = false ∨ StartedOk trace up ∨ NoneEnabled up nodes

variable {l l' : List (Position × InetUnit)}

theorem NoneEnabled.subset {p : Position} (h : NoneEnabled p l')
    (hs : l ⊆ l') : NoneEnabled p l := fun y hy => h y (hs hy)

theorem FailedIdle.subset (h : FailedIdle l') (hsu : l ⊆ l') :
    FailedIdle l := fun x hx hs he => (h x (hsu hx) hs he).subset hsu

variable {parent : Option InetUnit}

theorem enter_visits (hp : unit.unPending = false) (hre : Recorded built trace (i :: up) unit)
    (hpa : ParentReady trace parent up ((Forest.cons unit deps rest).located up i))
    (hf : unit.unStatus = true → unit.unError = true → NoneEnabled (i :: up) (deps.located (i :: up) 0))
    {entry : Bool × InetUnit × List Call} (hent : commitStart fn parent (i :: up) unit trace true = entry) :
    Visits built ((Forest.cons unit deps rest).positions up i) trace (i :: up) entry ∧
      (entry.1 = true → ParentReady entry.2.2 (some entry.2.1) (i :: up) (deps.located (i :: up) 0)) := by
  have ha : (parent.any fun q => !q.unStatus) = !parentUp parent := by
    cases parent <;> simp [parentUp]
  -- a unit the pass leaves as it is
  have hke : ParentReady trace (some unit) (i :: up) (deps.located (i :: up) 0) := by
    cases hs : unit.unStatus with
    | false => exact .inr (.inl hs)
    | true =>
      obtain ⟨k, hk, hen, her⟩ := hre.started hs hp
      cases hok : k.ok with
      | true => exact .inr (.inr (.inl ⟨k, hk, hen, hok⟩))
      | false => exact .inr (.inr (.inr (hf hs (by rw [her, hok]; rfl))))
  subst hent
  unfold commitStart
  rw [ha]
  simp only [Bool.not_true, Bool.false_eq_true, if_false]
  split
  · exact ⟨hre.visits _, fun _ => hke⟩
  rename_i hup
  split
  · exact ⟨hre.visits _, fun _ => hke⟩
  rename_i hgo
  obtain ⟨hen, hs⟩ : unit.unEnabled = true ∧ unit.unStatus = false := by simpa using hgo
  refine ⟨⟨refl.call (mem_positions_cons.mpr (.inl rfl)) ⟨?_, ?_, by simp⟩,
    recorded_cons _ _ _ _ _ rfl rfl, fun q hq => lastCall_cons_ne (Ne.symm hq) _⟩, fun hok => ?_⟩
  · rw [← hre.status, hs]
    rfl
  · intro _ hr
    rcases hpa with hni | hd | hst | hn
    · exact absurd hni hr
    · exact absurd hd (by simpa using hup)
    · exact hst
    · have ho := hn (i :: up, unit) (mem_located_cons.mpr (.inl rfl)) rfl
      rw [hen] at ho
      simp at ho
  · exact .inr (.inr (.inl ⟨_, lastCall_cons_self _ _, rfl, hok⟩))

theorem ParentReady.congr {trace trace' : List Call} (h : ParentReady trace parent up l')
    (hl : lastCall trace' up = lastCall trace up) (hs : l ⊆ l') : ParentReady trace' parent up l := by
  rcases h with hni | hd | ⟨k, hk⟩ | hn
  · exact .inl hni
  · exact .inr (.inl hd)
  · exact .inr (.inr (.inl ⟨k, by rw [hl]; exact hk⟩))
  · exact .inr (.inr (.inr (hn.subset hs)))

theorem startPass_passes {above : Bool}
    (hh : Halted above units) (parent : Option InetUnit) (up : Position) (i : Nat) (trace : List Call)
    (htr : Tracked built trace up i units) (hid : FailedIdle (units.located up i))
    (hpa : ParentReady trace parent up (units.located up i)) :
    Passes built up i units trace (inetUnitWalk (commitStart fn) parent up i units trace) := by
  induction units generalizing above parent up i trace with
  | nil => exact ⟨refl, htr, rfl⟩
  | cons unit deps rest ihd ihr =>
    obtain ⟨⟨hp, -⟩, hde, hre⟩ := hh
    obtain ⟨hu, hdre, hrr⟩ := tracked_cons.mp htr
    have hds : deps.located (i :: up) 0 ⊆ (Forest.cons unit deps rest).located up i :=
      fun x hx => mem_located_cons.mpr (.inr (.inl hx))
    have hr : rest.located up (i + 1) ⊆ (Forest.cons unit deps rest).located up i :=
      fun x hx => mem_located_cons.mpr (.inr (.inr hx))
    rw [inetUnitWalk]
    generalize hen : commitStart fn parent (i :: up) unit trace true = entry
    obtain ⟨hv, hrea⟩ := enter_visits fn hp hu hpa
      (fun hs he => (hid (i :: up, unit) (mem_located_cons.mpr (.inl rfl)) hs he).subset hds) hen
    have hd' : Tracked built entry.2.2 (i :: up) 0 deps := hdre.congr fun q hq => hv.frame q (deps_under hq).2
    have hup : up ∉ deps.positions (i :: up) 0 := by
      intro h
      have := (deps_under h).1.length_le
      simp only [List.length_cons] at this
      omega
    -- the siblings, after whatever was called below the unit
    have ha {below} (hb : Passes built (i :: up) 0 deps entry.2.2 below) :=
      Passes.cons hv.issues hb ((hv.recorded.congr (hb.issues.frame head_not_mem_deps)).visits true)
        (ihr hre parent up (i + 1) below.ctx
          (hrr.congr fun q hq => (hb.issues.frame fun hd => deps_not_mem_rest hd hq).trans
            (hv.frame q fun heq => head_not_mem_rest (heq ▸ hq)))
          (hid.subset hr) (hpa.congr ((hb.issues.frame hup).trans (hv.frame up (by simp))) hr))
    cases hok : entry.1 with
    | false =>
      have hn : Passes built (i :: up) 0 deps entry.2.2 ⟨false, deps, entry.2.2⟩ := ⟨refl, hd', rfl⟩
      exact ha hn _
    | true =>
      have hb := ihd hde (some entry.2.1) (i :: up) 0 entry.2.2 hd' (hid.subset hds) (hrea hok)
      simp only [if_true, commitStart_leave]
      split <;> exact ha hb _

/-! ## Requests -/

/-- What a request may do to a unit. -/
structure Asks (unit unit' : InetUnit) : Prop where
  status : unit'.unStatus = unit.unStatus
  error : unit'.unError = unit.unError
  pending : unit'.unPending = false → unit.unPending = false

theorem Asks.refl (unit : InetUnit) : Asks unit unit := ⟨rfl, rfl, id⟩

theorem enableAt_asks (p : Position) (units : Units) : Forest.Rel Asks units (enableAt p units) :=
  Rel.modifyAt Asks.refl (fun _ _ => ⟨rfl, rfl, id⟩) (fun _ deps => Rel.refl Asks.refl deps) p [] 0 units

theorem stopAt_asks (p : Position) (units : Units) : Forest.Rel Asks units (stopAt p units) := by
  apply Rel.modifyAt Asks.refl
  · intro unit deps
    rw [stopTree_eq]
    exact ⟨rfl, rfl, by simp⟩
  · intro unit deps
    rw [stopTree_eq]
    exact Rel.map (fun _ => ⟨rfl, rfl, by simp [mark]⟩) deps

theorem Tracked.asks {built units units' : Units} (h : Tracked built trace [] 0 units)
    (hre : Forest.Rel Asks units units') : Tracked built trace [] 0 units' := by
  intro x hx
  obtain ⟨unit, hm, ha⟩ := hre.of_mem (p := x.1) (b := x.2) hx
  have hr := h _ hm
  refine ⟨by rw [ha.status]; exact hr.status, by rw [ha.error]; exact hr.error, fun hs hp => ?_⟩
  exact hr.called (by rw [← ha.status]; exact hs) (ha.pending hp)

/-! ## Runs -/

/-- No unit that keeps running after a failed start has an enabled dependent. -/
def CommitSafe (units : Units) : Prop :=
  ∀ x ∈ units.nodes, x.2.steady = true → x.2.unError = true → NoneEnabled x.1 units.nodes

def OpSafe (units : Units) : Op → Prop
  | .commit _ => CommitSafe units
  | _ => True

def RunSafe (s : State) : List Op → Prop
  | [] => True
  | op :: ops => OpSafe s.units op ∧ RunSafe (step s op) ops

structure Inv (built : Units) (s : State) : Prop where
  shape : built.positions [] 0 = s.units.positions [] 0
  settled : Settled true s.units
  tracked : Tracked built s.trace [] 0 s.units
  disciplined : Disciplined built s.trace

theorem CommitSafe.failedIdle {units units' : Units} (h : CommitSafe units)
    (hr : Forest.Rel Stops units units') : FailedIdle units'.nodes := by
  intro x hx hs he y hy hc
  obtain ⟨unit, hm, hst⟩ := hr.of_mem (p := x.1) (b := x.2) hx
  obtain ⟨unit', hm', hs'⟩ := hr.of_mem (p := y.1) (b := y.2) hy
  have hste : unit.steady = true := by rw [← hst.status, hs]
  rw [hst.keeps hste] at he
  rw [hs'.enabled]
  exact h _ hm hste he _ hm' hc

variable {s : State}

theorem Inv.commit (h : Inv built s) (fn : CommitFn) (hsa : CommitSafe s.units) : Inv built (step s (.commit fn)) := by
  have hs := stopPass_passes fn h.settled none [] 0 s.trace h.tracked
  obtain ⟨-, hr⟩ := walk_commitStop fn none [] 0 s.units s.trace
  have hst := startPass_passes fn (h.settled.halted hr) none [] 0 _ hs.tracked (hsa.failedIdle hr) (.inl rfl)
  have his := hst.issues
  rw [hs.positions_eq] at his
  refine ⟨h.shape.trans (hst.positions_eq.trans hs.positions_eq).symm, h.settled.step (.commit fn), hst.tracked, ?_⟩
  apply Issues.disciplined _ h.disciplined
  rw [h.shape]
  exact hs.issues.trans his

theorem Inv.request (h : Inv built s) (op : Op) (hop : ∀ fn, op ≠ .commit fn) : Inv built (step s op) := by
  have ht : (step s op).trace = s.trace := by
    cases op with
    | commit fn => exact absurd rfl (hop fn)
    | _ => rfl
  have hun : built.positions [] 0 = (step s op).units.positions [] 0 ∧
      Tracked built s.trace [] 0 (step s op).units := by
    refine Op.keeps (P := fun units => built.positions [] 0 = units.positions [] 0 ∧ Tracked built s.trace [] 0 units)
      (fun p units hu => ?_) (fun p units hu => ?_) ⟨h.shape, h.tracked⟩ op hop
    · exact ⟨hu.1.trans ((enableAt_asks p units).positions_eq [] 0), hu.2.asks (enableAt_asks p units)⟩
    · exact ⟨hu.1.trans ((stopAt_asks p units).positions_eq [] 0), hu.2.asks (stopAt_asks p units)⟩
  exact ⟨hun.1, h.settled.step op, by rw [ht]; exact hun.2, by rw [ht]; exact h.disciplined⟩

theorem Inv.step (h : Inv built s) (op : Op) (hs : OpSafe s.units op) : Inv built (step s op) := by
  cases op with
  | commit fn => exact h.commit fn hs
  | _ => exact h.request _ (by simp)

theorem Inv.run (h : Inv built s) (ops : List Op) (hs : RunSafe s ops) : Inv built (run s ops) := by
  induction ops generalizing s with
  | nil => exact h
  | cons op ops ih => exact ih (h.step op hs.1) hs.2

theorem Built.inv (h : Built units) : Inv units ⟨units, []⟩ := by
  refine ⟨rfl, h.settled, fun x hx => ⟨?_, by simp [lastCall], fun hs hp => ?_⟩, trivial⟩
  · rw [running, lastCall, List.find?_nil, Bool.eq_iff_iff, List.any_eq_true]
    constructor
    · exact fun hs => ⟨x, hx, by simpa using hs⟩
    · rintro ⟨y, hy, hyx⟩
      obtain ⟨hpo, hs⟩ : y.1 = x.1 ∧ y.2.unStatus = true := by simpa using hyx
      have hme : (x.1, y.2) ∈ units.located [] 0 := by
        rw [← hpo]
        exact hy
      rw [located_unique (b := x.2) hx hme]
      exact hs
  · have hm : x.2.unPending = x.2.unStatus := congrArg InetUnit.unPending (h x hx)
    rw [hm, hs] at hp
    simp at hp

/-- Along every run, whatever the callbacks answer, the callbacks come in order, as long as no commit finds a unit
that is to keep running after its start failed and has an enabled dependent. -/
theorem trace_disciplined (units : Units) (hbuilt : Built units) (ops : List Op)
    (hsafe : RunSafe ⟨units, []⟩ ops) : Disciplined units (run ⟨units, []⟩ ops).trace :=
  (hbuilt.inv.run ops hsafe).disciplined

theorem restartedPair_disciplined :
    Disciplined pairTree (run ⟨pairTree, []⟩ [.start 1, .start 2, .commit fun _ _ _ => true, .restart 1 true,
      .commit fun _ id _ => decide (id = 2)]).trace := by
  refine trace_disciplined pairTree built_pairTree _ ⟨trivial, trivial, ?_, trivial, ?_, trivial⟩
  · unfold OpSafe CommitSafe NoneEnabled
    decide +kernel
  · unfold OpSafe CommitSafe NoneEnabled
    decide +kernel

/-- The start of the first unit fails; the next commit starts the second one all the same. -/
theorem failed_parent_starts_child : (run ⟨pairTree, []⟩ [.start 1, .start 2, .commit fun _ id _ => decide (id = 2),
      .commit fun _ _ _ => true]).trace = [⟨[0, 0], 2, true, true⟩, ⟨[0], 1, true, false⟩] ∧
    ¬ Disciplined pairTree [⟨[0, 0], 2, true, true⟩, ⟨[0], 1, true, false⟩] := by
  refine ⟨by decide +kernel, fun h => ?_⟩
  obtain ⟨k, hk, -, hok⟩ := h.1.parent rfl (by decide)
  obtain rfl : (⟨[0], 1, true, false⟩ : Call) = k := by simpa [lastCall] using hk
  simp at hok

end OpenSync.Inet
