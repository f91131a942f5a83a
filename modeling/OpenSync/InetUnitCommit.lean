import OpenSync.InetUnit

/-!
# Convergence of a commit

Between requests the tree is `Settled`: a unit that runs and is not marked has only steady units above it. The
stop pass turns this into `Halted`, where nothing is marked any more; the start pass keeps that whatever the
callbacks answer. Where they all succeed, a unit runs after the commit exactly if it and all units above it
are enabled.
-/

namespace OpenSync.Inet
open List InetUnit

open Forest

/-- The unit runs, and the stop pass will leave it alone. -/
def InetUnit.steady (unit : InetUnit) : Bool := unit.unStatus && unit.unEnabled && !unit.unPending

/-- What holds of a unit and the forest of its dependents, where `above` tells whether all units above are steady. -/
def Settled (above : Bool) : Units → Prop
  | .nil => True
  | .cons unit deps rest =>
    ((unit.unStatus = true → unit.unPending = false → above = true) ∧ Settled (above && unit.steady) deps) ∧
      Settled above rest

/-- No unit is marked, and a unit that runs is enabled below units that run. -/
def Halted (above : Bool) : Units → Prop
  | .nil => True
  | .cons unit deps rest =>
    (unit.unPending = false ∧ (unit.unStatus = true → above = true ∧ unit.unEnabled = true)) ∧
      Halted (above && unit.unStatus) deps ∧ Halted above rest

/-- A unit runs exactly if it and all units above it are enabled. -/
def Final (above : Bool) : Units → Prop
  | .nil => True
  | .cons unit deps rest =>
    (unit.unPending = false ∧ unit.unStatus = (above && unit.unEnabled)) ∧
      Final (above && unit.unEnabled) deps ∧ Final above rest

variable {units : Units}

theorem Settled.mono {above above' : Bool} (h : Settled above units)
    (hle : above = true → above' = true) : Settled above' units := by
  induction units generalizing above above' with
  | nil => trivial
  | cons unit deps rest ihd ihr =>
    obtain ⟨⟨hu, hd⟩, hr⟩ := h
    refine ⟨⟨fun hs hp => hle (hu hs hp), ihd hd ?_⟩, ihr hr hle⟩
    simp only [Bool.and_eq_true]
    exact And.imp_left hle

theorem Halted.mono {above above' : Bool} (h : Halted above units)
    (hle : above = true → above' = true) : Halted above' units := by
  induction units generalizing above above' with
  | nil => trivial
  | cons unit deps rest ihd ihr =>
    obtain ⟨⟨hp, hs⟩, hd, hr⟩ := h
    refine ⟨⟨hp, fun h => ⟨hle (hs h).1, (hs h).2⟩⟩, ihd hd ?_, ihr hr hle⟩
    simp only [Bool.and_eq_true]
    exact And.imp_left hle

variable {above : Bool}

theorem Halted.settled (h : Halted above units) : Settled above units := by
  induction units generalizing above with
  | nil => trivial
  | cons unit deps rest ihd ihr =>
    obtain ⟨⟨hp, hs⟩, hd, hr⟩ := h
    refine ⟨⟨fun h _ => (hs h).1, (ihd hd).mono ?_⟩, ihr hr⟩
    simp only [steady, Bool.and_eq_true, hp]
    rintro ⟨ha, hst⟩
    exact ⟨ha, ⟨hst, (hs hst).2⟩, rfl⟩

/-! ## Requests -/

theorem Settled.modifyAt {g : InetUnit → Units → InetUnit × Units}
    (hg : ∀ above unit deps, Settled above (.cons unit deps .nil) → Settled above (.cons (g unit deps).1 (g unit deps).2 .nil))
    (h : Settled above units) (p up : Position) (i : Nat) : Settled above (units.modifyAt p g up i) := by
  induction units generalizing above up i with
  | nil => trivial
  | cons unit deps rest ihd ihr =>
    obtain ⟨⟨hu, hd⟩, hr⟩ := h
    rw [Forest.modifyAt]
    split
    · exact ⟨(hg above unit deps ⟨⟨hu, hd⟩, trivial⟩).1, ihr hr _ _⟩
    · exact ⟨⟨hu, ihd hd _ _⟩, ihr hr _ _⟩

theorem settled_mark (units : Units) (above : Bool) : Settled above (units.map mark) := by
  induction units generalizing above with
  | nil => trivial
  | cons unit deps rest ihd ihr => exact ⟨⟨fun _ h => absurd h (by simp [mark]), ihd _⟩, ihr _⟩

theorem Settled.enableAt (p : Position) (h : Settled above units) : Settled above (enableAt p units) := by
  apply h.modifyAt
  rintro above unit deps ⟨⟨hu, hd⟩, -⟩
  refine ⟨⟨hu, hd.mono ?_⟩, trivial⟩
  simp only [steady, Bool.and_eq_true]
  tauto

theorem Settled.stopAt (p : Position) (h : Settled above units) : Settled above (stopAt p units) := by
  apply h.modifyAt
  intro above unit deps _
  rw [stopTree_eq]
  exact ⟨⟨fun _ h => absurd h (by simp), settled_mark _ _⟩, trivial⟩

/-! ## The stop pass -/

structure Stops (unit unit' : InetUnit) : Prop where
  enabled : unit'.unEnabled = unit.unEnabled
  pending : unit'.unPending = false
  status : unit'.unStatus = unit.steady
  keeps : unit.steady = true → unit' = unit

variable (fn : CommitFn)

variable (parent : Option InetUnit)

theorem commitStop_spec (p : Position) (unit : InetUnit) (trace : List Call) :
    (commitStop fn parent p unit trace false).1 = true ∧ Stops unit (commitStop fn parent p unit trace false).2.1 := by
  rcases unit with ⟨id, st, en, pe, er⟩
  cases st <;> cases en <;> cases pe <;> exact ⟨rfl, rfl, rfl, rfl, by simp [steady, commitStop]⟩

theorem walk_commitStop (up : Position) (i : Nat) (units : Units) (trace : List Call) :
    (inetUnitWalk (commitStop fn) parent up i units trace).retval = true ∧
      Forest.Rel Stops units (inetUnitWalk (commitStop fn) parent up i units trace).units := by
  induction units generalizing parent up i trace with
  | nil => exact ⟨rfl, Rel.nil⟩
  | cons unit deps rest ihd ihr =>
    have hen : commitStop fn parent (i :: up) unit trace true = (true, unit, trace) := rfl
    have hb := ihd (some unit) (i :: up) 0 trace
    simp only [inetUnitWalk, hen, if_true, hb.1]
    have hl := commitStop_spec fn parent (i :: up) unit
      (inetUnitWalk (commitStop fn) (some unit) (i :: up) 0 deps trace).ctx
    have hr := ihr parent up (i + 1) (commitStop fn parent (i :: up) unit
      (inetUnitWalk (commitStop fn) (some unit) (i :: up) 0 deps trace).ctx false).2.2
    exact ⟨by rw [hl.1, hr.1]; rfl, Rel.cons hl.2 hb.2 hr.2⟩

theorem Settled.halted {units units' : Units} (h : Settled above units)
    (hrel : Forest.Rel Stops units units') : Halted above units' := by
  induction hrel generalizing above with
  | nil => trivial
  | cons hs hd hr ihd ihr =>
    obtain ⟨⟨hu, hde⟩, hre⟩ := h
    refine ⟨⟨hs.pending, ?_⟩, ?_, ihr hre⟩
    · rw [hs.status, hs.enabled]
      simp only [steady, Bool.and_eq_true, Bool.not_eq_true']
      rintro ⟨⟨hst, hen⟩, hpe⟩
      exact ⟨hu hst hpe, hen⟩
    · rw [hs.status]
      exact ihd hde

/-! ## The start pass -/

def parentUp (parent : Option InetUnit) : Bool := parent.all fun q => q.unStatus

theorem any_not_unStatus : (parent.any fun q => !q.unStatus) = !parentUp parent := by
  cases parent <;> simp [parentUp]

structure Starts (fn : CommitFn) (up : Bool) (unit unit' : InetUnit) (ok : Bool) : Prop where
  enabled : unit'.unEnabled = unit.unEnabled
  pending : unit'.unPending = false
  status : unit'.unStatus = (up && unit.unEnabled)
  failed : ok = false → unit.unStatus = false ∧ ∃ trace id, fn trace id true = false

theorem commitStart_spec {parent : Option InetUnit} (p : Position) {unit : InetUnit}
    (trace : List Call) (hp : unit.unPending = false)
    (hs : unit.unStatus = true → parentUp parent = true ∧ unit.unEnabled = true) :
    Starts fn (parentUp parent) unit (commitStart fn parent p unit trace true).2.1
      (commitStart fn parent p unit trace true).1 := by
  unfold commitStart
  rw [any_not_unStatus]
  cases hup : parentUp parent with
  | false =>
    have hst : unit.unStatus = false := by
      rw [← Bool.not_eq_true]
      exact fun h => absurd (hs h).1 (by simp [hup])
    exact ⟨rfl, hp, by simpa using hst, by simp⟩
  | true =>
    cases hid : (!unit.unEnabled || unit.unStatus) with
    | true =>
      have hst : unit.unStatus = unit.unEnabled := by
        cases hst : unit.unStatus with
        | false => simpa [hst] using hid
        | true => exact ((hs hst).2).symm
      exact ⟨rfl, hp, by simpa [hid] using hst, by simp⟩
    | false =>
      obtain ⟨hen, hst⟩ : unit.unEnabled = true ∧ unit.unStatus = false := by simpa using hid
      refine ⟨rfl, rfl, by simp [hen], ?_⟩
      exact fun hok => ⟨hst, trace, unit.unId, hok⟩

theorem commitStart_leave (p : Position) (unit : InetUnit)
    (trace : List Call) : commitStart fn parent p unit trace false = (true, unit, trace) := rfl

variable {unit unit' : InetUnit}

theorem Starts.reaches {fn : CommitFn} {up above : Bool} {ok : Bool}
    (h : Starts fn up unit unit' ok) (hs : unit.unStatus = true → up = true ∧ unit.unEnabled = true) :
    (above && unit.unStatus) = true → parentUp (some unit') = true := by
  rw [Bool.and_eq_true]
  rintro ⟨-, hst⟩
  obtain ⟨hup, hen⟩ := hs hst
  change unit'.unStatus = true
  rw [h.status, hup, hen]
  rfl

/-- Whatever the callbacks answer, the start pass keeps the tree halted; where they all succeed, it ends the commit. -/
theorem walk_commitStart {fn : CommitFn} (hpa : above = true → parentUp parent = true)
    (h : Halted above units) (up : Position) (i : Nat) (trace : List Call) :
    Halted (parentUp parent) (inetUnitWalk (commitStart fn) parent up i units trace).units ∧
      ((∀ trace id enable, fn trace id enable = true) →
        (inetUnitWalk (commitStart fn) parent up i units trace).retval = true ∧
          Final (parentUp parent) (inetUnitWalk (commitStart fn) parent up i units trace).units) := by
  induction units generalizing parent above up i trace with
  | nil => exact ⟨trivial, fun _ => ⟨rfl, trivial⟩⟩
  | cons unit deps rest ihd ihr =>
    obtain ⟨⟨hp, hs⟩, hd, hr⟩ := h
    have hs' (hst : unit.unStatus = true) : parentUp parent = true ∧ unit.unEnabled = true :=
      ⟨hpa (hs hst).1, (hs hst).2⟩
    have hu := commitStart_spec fn (i :: up) trace hp hs'
    rw [inetUnitWalk]
    generalize commitStart fn parent (i :: up) unit trace true = entry at hu ⊢
    obtain ⟨ok, unit', trace'⟩ := entry
    have hsta : unit'.unStatus = (parentUp parent && unit'.unEnabled) := by rw [hu.status, hu.enabled]
    have hh : unit'.unPending = false ∧ (unit'.unStatus = true → parentUp parent = true ∧ unit'.unEnabled = true) := by
      refine ⟨hu.pending, ?_⟩
      rw [hsta, Bool.and_eq_true]
      exact id
    cases ok with
    | false =>
      -- the unit was not running, so nothing below it was
      obtain ⟨hst, trace, id, hfa⟩ := hu.failed rfl
      rw [hst, Bool.and_false] at hd
      exact ⟨⟨hh, hd.mono (by simp), (ihr parent hpa hr _ _ _).1⟩, fun hfn => absurd hfa (by simp [hfn])⟩
    | true =>
      obtain ⟨hb, hb'⟩ := ihd (some unit') (hu.reaches hs') hd (i :: up) 0 trace'
      obtain ⟨hsi, hsi'⟩ := ihr parent hpa hr up (i + 1)
        (inetUnitWalk (commitStart fn) (some unit') (i :: up) 0 deps trace').ctx
      have hup : parentUp (some unit') = (parentUp parent && unit'.unStatus) := by
        change unit'.unStatus = _
        rw [hsta, ← Bool.and_assoc, Bool.and_self]
      rw [hup] at hb
      simp only [if_true, commitStart_leave]
      refine ⟨by split <;> exact ⟨hh, hb, hsi⟩, fun hfn => ?_⟩
      obtain ⟨hre, hf⟩ := hb' hfn
      rw [show parentUp (some unit') = _ from hsta] at hf
      rw [if_pos hre]
      exact ⟨(hsi' hfn).1, ⟨hu.pending, hsta⟩, hf, (hsi' hfn).2⟩

/-! ## The commit after a commit -/

theorem walk_commitStop_idle (h : Final above units)
    (parent : Option InetUnit) (up : Position) (i : Nat) (trace : List Call) :
    inetUnitWalk (commitStop fn) parent up i units trace = ⟨true, units, trace⟩ := by
  induction units generalizing above parent up i with
  | nil => rfl
  | cons unit deps rest ihd ihr =>
    obtain ⟨⟨hp, hs⟩, hd, hr⟩ := h
    have hl : commitStop fn parent (i :: up) unit trace false = (true, unit, trace) := by
      rcases unit with ⟨id, st, en, pe, er⟩
      cases en <;> simp_all [commitStop]
    have hen : commitStop fn parent (i :: up) unit trace true = (true, unit, trace) := rfl
    simp [inetUnitWalk, hen, ihd hd, hl, ihr hr, Bool.and_self]

theorem walk_commitStart_idle (h : Final (parentUp parent) units) (up : Position) (i : Nat) (trace : List Call) :
    inetUnitWalk (commitStart fn) parent up i units trace = ⟨true, units, trace⟩ := by
  induction units generalizing parent up i with
  | nil => rfl
  | cons unit deps rest ihd ihr =>
    obtain ⟨⟨hp, hs⟩, hd, hr⟩ := h
    have hent : commitStart fn parent (i :: up) unit trace true = (true, unit, trace) := by
      unfold commitStart
      rw [any_not_unStatus]
      cases hup : parentUp parent with
      | false => rfl
      | true =>
        rw [hup, Bool.true_and] at hs
        cases hen : unit.unEnabled <;> simp [hs, hen]
    have hb : Final (parentUp (some unit)) deps := by
      have hup : parentUp (some unit) = (parentUp parent && unit.unEnabled) := hs
      rw [hup]
      exact hd
    simp [inetUnitWalk, hent, ihd (some unit) hb, commitStart_leave, ihr parent hr, Bool.and_self]

/-! ## Runs -/

theorem Built.settled (h : Built units) : Settled true units := by
  suffices hg : ∀ (up : Position) (i : Nat) (above : Bool) (f : Units),
      (∀ x ∈ f.located up i, x.2 = newUnit x.2.unId x.2.unStatus) → Settled above f from hg [] 0 true units h
  intro up i above f hf
  induction f generalizing up i above with
  | nil => trivial
  | cons unit deps rest ihd ihr =>
    have hu : unit = newUnit unit.unId unit.unStatus := hf _ (mem_located_cons.mpr (.inl rfl))
    refine ⟨⟨fun hst hpe => ?_, ihd (i :: up) 0 _ fun x hx => ?_⟩, ihr up (i + 1) _ fun x hx => ?_⟩
    · have hm : unit.unPending = unit.unStatus := congrArg unPending hu
      rw [hm, hst] at hpe
      simp at hpe
    · exact hf x (mem_located_cons.mpr (.inr (.inl hx)))
    · exact hf x (mem_located_cons.mpr (.inr (.inr hx)))

theorem inetUnitCommit_halted (h : Settled true units) (trace : List Call) :
    Halted true (inetUnitCommit fn units trace).units :=
  (walk_commitStart none (fun _ => rfl) (h.halted (walk_commitStop fn none [] 0 units trace).2) [] 0 _).1

theorem Settled.step {s : State} (h : Settled true s.units) (op : Op) : Settled true (step s op).units := by
  cases op with
  | commit fn => exact (inetUnitCommit_halted fn h s.trace).settled
  | _ =>
    apply Op.keeps (P := Settled true) (fun p _ hu => hu.enableAt p) (fun p _ hu => hu.stopAt p) h
    simp

theorem Settled.run {s : State} (h : Settled true s.units) (ops : List Op) : Settled true (run s ops).units := by
  induction ops generalizing s with
  | nil => exact h
  | cons op ops ih => exact ih (h.step op)

/-! ## Convergence -/

variable {x : Position × InetUnit}

theorem Final.pending (h : Final above units) {up : Position} {i : Nat}
    (hx : x ∈ units.located up i) : x.2.unPending = false := by
  induction units generalizing above up i with
  | nil => simp [located] at hx
  | cons unit deps rest ihd ihr =>
    obtain ⟨⟨hp, -⟩, hd, hr⟩ := h
    rcases mem_located_cons.mp hx with rfl | hm | hm
    · exact hp
    · exact ihd hd hm
    · exact ihr hr hm

theorem Final.running (h : Final above units) {up : Position} {i : Nat} (hx : x ∈ units.located up i) :
    x.2.unStatus = true ↔ above = true ∧ ∀ y ∈ units.located up i, y.1 <:+ x.1 → y.2.unEnabled = true := by
  induction units generalizing above up i with
  | nil => simp [located] at hx
  | cons top deps rest ihd ihr =>
    obtain ⟨⟨-, hs⟩, hd, hr⟩ := h
    have hp {f : Units} {q : Position} {j : Nat} {y : Position × InetUnit} (hy : y ∈ f.located q j) :
        y.1 ∈ f.positions q j := mem_map_of_mem hy
    rcases mem_located_cons.mp hx with rfl | hm | hm
    · rw [hs, Bool.and_eq_true]
      refine and_congr_right fun _ => ⟨fun hen y hy hsu => ?_, fun ha =>
        ha _ (mem_located_cons.mpr (.inl rfl)) suffix_rfl⟩
      rcases mem_located_cons.mp hy with rfl | hy | hy
      · exact hen
      · obtain ⟨hu, hne⟩ := deps_under (hp hy)
        exact absurd (hsu.eq_of_length (le_antisymm hsu.length_le hu.length_le)) hne
      · obtain ⟨j, hij, hj⟩ := positions_under (hp hy)
        have := index_unique (hj.trans hsu) suffix_rfl
        omega
    · have hu := (deps_under (hp hm)).1
      rw [ihd hd hm, Bool.and_eq_true, and_assoc]
      refine and_congr_right fun _ => ⟨fun ⟨hen, ha⟩ y hy hsu => ?_, fun ha => ⟨?_, fun y hy => ?_⟩⟩
      · rcases mem_located_cons.mp hy with rfl | hy | hy
        · exact hen
        · exact ha y hy hsu
        · obtain ⟨j, hij, hj⟩ := positions_under (hp hy)
          have := index_unique (hj.trans hsu) hu
          omega
      · exact ha _ (mem_located_cons.mpr (.inl rfl)) hu
      · exact ha y (mem_located_cons.mpr (.inr (.inl hy)))
    · have hn := rest_not_under (hp hm)
      rw [ihr hr hm]
      refine and_congr_right fun _ => ⟨fun ha y hy hsu => ?_, fun ha y hy => ?_⟩
      · rcases mem_located_cons.mp hy with rfl | hy | hy
        · exact absurd hsu hn
        · exact absurd ((deps_under (hp hy)).1.trans hsu) hn
        · exact ha y hy hsu
      · exact ha y (mem_located_cons.mpr (.inr (.inr hy)))

/-- After a commit whose callbacks all succeed, whatever went before: a unit runs exactly if it and all units
above it are enabled, no unit is marked, and the next commit calls nothing. -/
theorem commit_converges (units : Units) (hbuilt : Built units) (ops : List Op) (fn : CommitFn)
    (hfn : ∀ trace id enable, fn trace id enable = true) :
    (∀ x ∈ (run ⟨units, []⟩ (ops ++ [.commit fn])).units.nodes,
      (x.2.unStatus = true ↔ ∀ y ∈ (run ⟨units, []⟩ (ops ++ [.commit fn])).units.nodes,
        y.1 <:+ x.1 → y.2.unEnabled = true) ∧ x.2.unPending = false) ∧
    ∀ fn' : CommitFn, run ⟨units, []⟩ (ops ++ [.commit fn, .commit fn']) = run ⟨units, []⟩ (ops ++ [.commit fn]) := by
  have hs := (hbuilt.settled).run (s := ⟨units, []⟩) ops
  have hl (fn : CommitFn) (more : List Op) : run ⟨units, []⟩ (ops ++ .commit fn :: more) =
      run (step (run ⟨units, []⟩ ops) (.commit fn)) more := by
    simp [run, foldl_append]
  rw [hl fn []]
  generalize run ⟨units, []⟩ ops = s at hs hl ⊢
  have hf : Final true (step s (.commit fn)).units := ((walk_commitStart none (fun _ => rfl)
      (hs.halted (walk_commitStop fn none [] 0 s.units s.trace).2) [] 0 _).2 hfn).2
  refine ⟨fun x hx => ⟨?_, hf.pending hx⟩, fun fn' => ?_⟩
  · rw [hf.running hx]
    simp [run, nodes]
  · rw [hl fn [.commit fn']]
    change step (step s (.commit fn)) (.commit fn') = step s (.commit fn)
    generalize step s (.commit fn) = t at hf ⊢
    have hid : inetUnitCommit fn' t.units t.trace = ⟨true, t.units, t.trace⟩ := by
      simp [inetUnitCommit, walk_commitStop_idle fn' hf, walk_commitStart_idle fn' none hf, Bool.and_self]
    simp [step, hid]

def pairTree : Units := .cons (inetUnit 1) (.cons (inetUnit 2) .nil .nil) .nil

theorem built_pairTree : Built pairTree := by
  unfold Built
  decide

theorem pairTree_converges :
    (∀ x ∈ (run ⟨pairTree, []⟩ ([.start 1, .start 2] ++ [.commit fun _ _ _ => true])).units.nodes,
      (x.2.unStatus = true ↔
        ∀ y ∈ (run ⟨pairTree, []⟩ ([.start 1, .start 2] ++ [.commit fun _ _ _ => true])).units.nodes,
          y.1 <:+ x.1 → y.2.unEnabled = true) ∧ x.2.unPending = false) ∧
    ∀ fn' : CommitFn, run ⟨pairTree, []⟩ ([.start 1, .start 2] ++ [.commit fun _ _ _ => true, .commit fn']) =
        run ⟨pairTree, []⟩ ([.start 1, .start 2] ++ [.commit fun _ _ _ => true]) :=
  commit_converges pairTree built_pairTree [.start 1, .start 2] (fun _ _ _ => true) (fun _ _ _ => rfl)

end OpenSync.Inet
