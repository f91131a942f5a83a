import OpenSync.EvschedShape

/-!
# Cancelled tasks

A task that was cancelled is not run again until its identifier is scheduled anew; one that cancelled itself, until it
asks to be run again. The cancellation looks for the task in the list only, so this holds as long as no function
cancels a task that still waits to be put there.
-/

namespace OpenSync.Evsched
open List Option

variable {s : Sched} {l : List Entry} {id : Nat}

def executing (s : Sched) (id : Nat) : Bool := s.current.any (hasId id)

theorem executing_iff : executing s id = true ↔ ∃ t ∈ s.current, t.id = id := by
  cases hc : s.current with
  | none => simp [executing, hc]
  | some tp => simp [executing, hc, hasId]

/-- Whether a task was cancelled while its function was not executing, and not scheduled anew since. -/
def goneAfter (id : Nat) (gone : Bool) : Entry → Bool
  | .called s o =>
    if cancelled s o = some id ∧ executing s id = false then true
    else if scheduled s o = some id then false
    else gone
  | _ => gone

/-- Whether a task cancelled itself, and was neither scheduled anew nor asked to be run again since. -/
def quietAfter (id : Nat) (quiet : Bool) : Entry → Bool
  | .called s o =>
    if cancelled s o = some id ∧ executing s id = true then true
    else if scheduled s o = some id ∨ rescheduled s o = some id then false
    else quiet
  | _ => quiet

def Gone (l : List Entry) (id : Nat) : Prop := l.foldl (goneAfter id) false = true

def Quiet (l : List Entry) (id : Nat) : Prop := l.foldl (quietAfter id) false = true

theorem gone_append (l : List Entry) (e : Entry) :
    Gone (l ++ [e]) id ↔ goneAfter id (l.foldl (goneAfter id) false) e = true := by
  rw [Gone, foldl_append]
  rfl

theorem quiet_append (l : List Entry) (e : Entry) :
    Quiet (l ++ [e]) id ↔ quietAfter id (l.foldl (quietAfter id) false) e = true := by
  rw [Quiet, foldl_append]
  rfl

/-- A function cancels only tasks that do not wait to be put into the list, and identifiers do not come round. -/
def CancelSafe : Entry → Prop
  | .called s o => IdSafe s o ∧ ∀ id ∈ cancelled s o, s.current.isSome = true → ∀ t ∈ s.pending, t.id ≠ id
  | _ => True

instance : DecidablePred CancelSafe
  | .called s o => inferInstanceAs (Decidable (IdSafe s o ∧ ∀ id ∈ cancelled s o, _))
  | .fired _ => isTrue trivial
  | .ran .. => isTrue trivial

/-! ## Operations -/

/-- No task of the list or among those that wait will run under the identifier. -/
structure Off (s : Sched) (id : Nat) : Prop where
  tasklist : ∀ t ∈ s.tasklist, t.id = id → t.remove = true
  pending : ∀ t ∈ s.pending, t.id ≠ id

variable {s' : Sched} {o : Op}

theorem Off.effect (h : Off s id) (he : Effect s o s')
    (hn : s.current = none ∨ s'.ndel = s.ndel) (hne : scheduled s o ≠ some id) : Off s' id := by
  cases he with
  | queued func arg ms ho hin hc =>
    refine ⟨h.tasklist, ?_⟩
    intro t ht
    rcases mem_append.mp ht with ht | ht
    · exact h.pending t ht
    · rw [mem_singleton] at ht
      subst ht ho
      exact fun hid => hne (by simp [scheduled, hin, ← hid, newTask])
  | inserted func arg ms ho hin hc =>
    refine ⟨forall_evschedTaskInsert (P := fun t remove => t = id → remove = true) h.tasklist fun hid => ?_,
      by simpa using h.pending⟩
    subst ho
    exact absurd (by simp [scheduled, hin, ← hid, newTask]) hne
  | renewed id' ms tp ho hr hc hf =>
    exact ⟨forall_evschedTaskInsert (P := fun t remove => t = id → remove = true)
      (fun t ht => h.tasklist t (mem_of_mem_eraseP ht)) (h.tasklist tp (mem_of_find?_eq_some hf)),
      by simpa using h.pending⟩
  | moved id' tp hc => exact (not_moved hc hn).elim
  | marked id' tp _ _ _ _ =>
    refine ⟨?_, h.pending⟩
    intro t ht hid
    rcases mem_markRemove ht with ht | ⟨t', ht', -, rfl⟩
    · exact h.tasklist t ht hid
    · rfl
  | erased id' _ _ _ => exact ⟨fun t ht => h.tasklist t (mem_of_mem_eraseP ht), h.pending⟩
  | idle | missed => exact h
  | quieted | asked => exact ⟨h.tasklist, h.pending⟩

/-- A cancellation takes the task out of both lists, and one that runs is not to run again. -/
theorem Effect.cancels (he : Effect s o s') (hs : Shape s) (hc : cancelled s o = some id)
    (hnd : s.current = none ∨ s'.ndel = s.ndel) :
    ((∀ t ∈ s.pending, t.id ≠ id) → Off s' id) ∧ (executing s id = true → ∀ t ∈ s'.current, t.resched = false) := by
  rw [executing_iff]
  cases he with
  | idle hr hn | asked tp ms hn => simp [hc] at hn
  | missed id' hc' _ hf hne =>
    obtain rfl : id = id' := some.inj (hc.symm.trans hc')
    have hin {t : Task} (ht : t ∈ live s) : s.initialized = true := by
      by_contra hin
      have hm : t.id ∈ ids s := mem_map_of_mem ht
      rw [hs.unset (Bool.eq_false_of_not_eq_true hin)] at hm
      exact not_mem_nil hm
    refine ⟨fun hp => ⟨fun t ht hid => ?_, hp⟩, fun ⟨tp, hcu, hid⟩ => ?_⟩
    · exact absurd hid (hf (hin (mem_live.mpr (.inr (.inl ht)))) t ht)
    · exact absurd hid (hne (hin (mem_live.mpr (.inl hcu))) tp hcu)
  | queued func arg ms ho | inserted func arg ms ho | renewed id' ms tp ho => simp [ho, cancelled] at hc
  | moved id' tp hcu =>
    rcases hnd with hn | hnd
    · simp [hn] at hcu
    · exact absurd hnd (Nat.succ_ne_self _)
  | quieted tp hc' _ hcu =>
    obtain rfl : id = tp.id := some.inj (hc.symm.trans hc')
    refine ⟨fun hp => ⟨fun t ht hid => ?_, hp⟩, fun _ t ht => ?_⟩
    · exact absurd hid (hs.current_ne hcu (.inl ht))
    · rw [mem_some_iff] at ht
      exact ht ▸ rfl
  | marked id' tp hc' _ hcu hne =>
    obtain rfl : id = id' := some.inj (hc.symm.trans hc')
    refine ⟨fun hp => ⟨fun t ht hid => markRemove_marks hs.tasklist_nodup ht hid, hp⟩, ?_⟩
    rintro ⟨tp', hcu', hid⟩
    obtain rfl : tp' = tp := some.inj (hcu'.symm.trans hcu)
    exact absurd hid.symm hne
  | erased id' hc' _ hn =>
    obtain rfl : id = id' := some.inj (hc.symm.trans hc')
    exact ⟨fun hp => ⟨fun t ht hid => absurd hid (eraseP_ne hs.tasklist_nodup ht), hp⟩, by simp [hn]⟩

theorem Effect.current_eq {t : Task} (he : Effect s o s') (ht : t ∈ s'.current) :
    ∃ t' ∈ s.current, t.id = t'.id ∧ (t.resched = true → t'.resched = true ∨ rescheduled s o = some t'.id) := by
  cases he with
  | quieted tp hca hre hc =>
    rw [mem_some_iff] at ht
    subst ht
    exact ⟨tp, hc, rfl, nofun⟩
  | asked tp ms _ _ ha hc =>
    rw [mem_some_iff] at ht
    subst ht
    exact ⟨tp, hc, rfl, fun _ => .inr ha⟩
  | inserted | renewed => exact ⟨t, by simpa using ht, rfl, .inl⟩
  | _ => exact ⟨t, ht, rfl, .inl⟩

/-! ## The rule -/

/-- What the past says about cancellations is what the state says. -/
structure Cancelled (s : Sched) (l : List Entry) : Prop where
  shape : Shape s
  gone : ∀ id, Gone l id → Off s id ∧ ∀ t ∈ s.current, t.id ≠ id
  quiet : ∀ id, Quiet l id → Off s id ∧ ∀ t ∈ s.current, t.id = id → t.resched = false

section

variable (h : Cancelled s l)
include h

theorem Cancelled.effect (he : Effect s o s') (hn : s.current = none ∨ s'.ndel = s.ndel) (hs : CancelSafe (.called s o))
    (hp : s.current = none → s.pending = []) : Cancelled s' (l ++ [.called s o]) := by
  have ho : ∀ id, cancelled s o = some id → Off s' id := by
    intro id hc
    refine (he.cancels h.shape hc hn).1 fun t ht => ?_
    cases hcu : s.current with
    | none => simp [hp hcu] at ht
    | some tp => exact hs.2 id hc (by simp [hcu]) t ht
  refine ⟨h.shape.effect he hn hs.1, ?_, ?_⟩
  · intro id hg
    simp only [gone_append, goneAfter] at hg
    split_ifs at hg with hc hnew
    · refine ⟨ho id hc.1, fun t ht hid => ?_⟩
      obtain ⟨t', ht', hid', -⟩ := he.current_eq ht
      have hse : executing s id = true := executing_iff.mpr ⟨t', ht', hid'.symm.trans hid⟩
      simp [hc.2] at hse
    · obtain ⟨ho', hcu⟩ := h.gone id hg
      refine ⟨ho'.effect he hn hnew, fun t ht => ?_⟩
      obtain ⟨t', ht', hid, -⟩ := he.current_eq ht
      exact hid ▸ hcu t' ht'
  · intro id hq
    simp only [quiet_append, quietAfter] at hq
    split_ifs at hq with hc hnew
    · exact ⟨ho id hc.1, fun t ht _ => (he.cancels h.shape hc.1 hn).2 hc.2 t ht⟩
    rw [not_or] at hnew
    obtain ⟨ho', hcu⟩ := h.quiet id hq
    refine ⟨ho'.effect he hn hnew.1, fun t ht hid => ?_⟩
    obtain ⟨t', ht', hid', hr⟩ := he.current_eq ht
    rw [← hid, hid'] at hnew
    have hq' := hcu t' ht' (hid'.symm.trans hid)
    by_contra hne
    rcases hr (Bool.eq_true_of_not_eq_false hne) with htr | ha
    · exact Bool.false_ne_true (hq'.symm.trans htr)
    · exact hnew.2 ha

theorem Cancelled.mono (hs : Shape s') (hta : ∀ t ∈ s'.tasklist, t ∈ s.tasklist) (hp : ∀ t ∈ s'.pending, t ∈ s.pending)
    (hc : ∀ t ∈ s'.current, t ∈ s.current) : Cancelled s' l := by
  have ho : ∀ id, Off s id → Off s' id := fun id ho =>
    ⟨fun t ht => ho.tasklist t (hta t ht), fun t ht => ho.pending t (hp t ht)⟩
  exact ⟨hs, fun id hg => ⟨ho id (h.gone id hg).1, fun t ht => (h.gone id hg).2 t (hc t ht)⟩,
    fun id hq => ⟨ho id (h.quiet id hq).1, fun t ht => (h.quiet id hq).2 t (hc t ht)⟩⟩

theorem Cancelled.timer (timer : Option ℚ) : Cancelled { s with timer := timer } l :=
  h.mono ⟨h.shape.nodup, h.shape.below, h.shape.unset⟩ (fun _ ht => ht) (fun _ ht => ht) fun _ ht => ht

theorem Cancelled.fired : Cancelled s (l ++ [.fired s']) := by
  refine ⟨h.shape, fun id hg => h.gone id ?_, fun id hq => h.quiet id ?_⟩
  · exact (gone_append l _).mp hg
  · exact (quiet_append l _).mp hq

theorem Cancelled.monoTop (hs : Shape s') (ht : ∀ t ∈ s'.tasklist, t ∈ s.tasklist) (hto : Top s') : Cancelled s' l :=
  h.mono hs ht (by simp [hto.2]) (by simp [hto.1])

end

variable {tp : Task}

theorem Cancelled.due {rest : List Task} (h : Cancelled s l) (hc : s.current = none)
    (hl : s.tasklist = tp :: rest) (hr : tp.remove = false) :
    (¬ Gone l tp.id ∧ ¬ Quiet l tp.id) ∧
      Cancelled { s with tasklist := rest, ndel := s.ndel + 1, current := some tp } (l ++ [.ran tp.id s.now]) := by
  have hne : ∀ id, Off s id → tp.id ≠ id := by
    intro id ho hid
    exact Bool.false_ne_true (hr.symm.trans (ho.tasklist tp (by simp [hl]) hid))
  have ho' : ∀ id, Off s id → Off { s with tasklist := rest, ndel := s.ndel + 1, current := some tp } id :=
    fun id ho => ⟨fun t ht => ho.tasklist t (by simp [hl, show t ∈ rest from ht]), ho.pending⟩
  refine ⟨⟨fun hg => hne _ (h.gone _ hg).1 rfl, fun hq => hne _ (h.quiet _ hq).1 rfl⟩, h.shape.due hc hl, ?_, ?_⟩
  · intro id hg
    rw [gone_append] at hg
    have ho := (h.gone id hg).1
    exact ⟨ho' id ho, fun t ht => mem_some_iff.mp ht ▸ hne id ho⟩
  · intro id hq
    rw [quiet_append] at hq
    have ho := (h.quiet id hq).1
    exact ⟨ho' id ho, fun t ht hid => absurd hid (mem_some_iff.mp ht ▸ hne id ho)⟩

theorem Cancelled.leave (h : Cancelled s l) (hc : s.current = some tp) : Cancelled (leave s tp) l := by
  have ho : ∀ id, Off s id → (tp.id = id → tp.resched = false) → Off (Evsched.leave s tp) id := by
    intro id ho htp
    refine ⟨ho.tasklist, fun t ht => ?_⟩
    simp only [Evsched.leave] at ht
    split_ifs at ht with hr
    · rcases mem_append.mp ht with ht | ht
      · exact ho.pending t ht
      · rw [mem_singleton.mp ht]
        exact fun hid => Bool.false_ne_true ((htp hid).symm.trans hr)
    · exact ho.pending t ht
  refine ⟨h.shape.leave hc, ?_, ?_⟩
  · intro id hg
    obtain ⟨ho', hne⟩ := h.gone id hg
    exact ⟨ho id ho' fun hid => absurd hid (hne tp hc), fun t ht => by cases ht⟩
  · intro id hq
    obtain ⟨ho', hq'⟩ := h.quiet id hq
    exact ⟨ho id ho' (hq' tp hc), fun t ht => by cases ht⟩

theorem Cancelled.inserted {ps : List Task} (h : Cancelled s l) (hp : s.pending = tp :: ps) :
    Cancelled (evschedTaskInsert { s with pending := ps } tp false) l := by
  have ho : ∀ id, Off s id → Off (evschedTaskInsert { s with pending := ps } tp false) id := by
    intro id ho
    have hw := ho.pending
    rw [hp, forall_mem_cons] at hw
    exact ⟨forall_evschedTaskInsert (P := fun t remove => t = id → remove = true) ho.tasklist
      fun hid => absurd hid hw.1, by simpa using hw.2⟩
  refine ⟨h.shape.insertedPending hp, ?_, ?_⟩
  · exact fun id hg => ⟨ho id (h.gone id hg).1, by simpa using (h.gone id hg).2⟩
  · exact fun id hq => ⟨ho id (h.quiet id hq).1, by simpa using (h.quiet id hq).2⟩

theorem cancelled_rule : Rule (fun _ => Cancelled) CancelSafe fun l id _ => ¬ Gone l id ∧ ¬ Quiet l id where
  outside h hto hs := h.effect (apply_effect _ _) (.inl hto.1) hs fun _ => hto.2
  inside h hc hn hs := h.effect (apply_effect _ _) (.inr hn) hs fun hno => by simp [hno] at hc
  fired h _ _ := (h.timer none).fired
  due h hc hl _ hr := h.due hc hl hr
  marked h hl := h.mono (h.shape.head hl) (fun _ ht => hl ▸ mem_cons_of_mem _ ht) (fun _ ht => ht) fun _ ht => ht
  ended h hc := h.leave hc
  removed n h := h.mono (h.shape.removed n) (fun _ ht => (mem_filter.mp ht).1) (fun _ ht => ht) fun _ ht => ht
  inserted h _ hp := h.inserted hp
  finished timer h _ := h.timer timer
  advanced h _ _ := h.mono ⟨h.shape.nodup, h.shape.below, h.shape.unset⟩ (fun _ ht => ht) (fun _ ht => ht)
    fun _ ht => ht
  started h hto := h.monoTop h.shape.init evschedInit_sub.1 (evschedInit_sub.2 hto)
  stopped h hto := h.monoTop (h.shape.cleanup hto) evschedCleanup_sub.1 (evschedCleanup_sub.2 hto)

/-! ## Whole runs -/

def schedulesAnew (id : Nat) : Entry → Bool
  | .called s o => decide (scheduled s o = some id)
  | _ => false

def asksAgain (id : Nat) : Entry → Bool
  | .called s o => decide (rescheduled s o = some id)
  | _ => false

theorem goneAfter_stays (h : ∀ e ∈ l, schedulesAnew id e = false) : l.foldl (goneAfter id) true = true := by
  induction l with
  | nil => rfl
  | cons e l ih =>
    have he : goneAfter id true e = true := by
      have hn := h e mem_cons_self
      cases e with
      | called s o => simp [goneAfter, of_decide_eq_false hn]
      | fired | ran => rfl
    rw [foldl_cons, he]
    exact ih (forall_mem_cons.mp h).2

theorem quietAfter_stays (h : ∀ e ∈ l, schedulesAnew id e = false ∧ asksAgain id e = false) :
    l.foldl (quietAfter id) true = true := by
  induction l with
  | nil => rfl
  | cons e l ih =>
    have he : quietAfter id true e = true := by
      have hn := h e mem_cons_self
      cases e with
      | called s o => simp [quietAfter, of_decide_eq_false hn.1, of_decide_eq_false hn.2]
      | fired | ran => rfl
    rw [foldl_cons, he]
    exact ih (forall_mem_cons.mp h).2

theorem cancelled_start : Cancelled start [] := by
  refine ⟨⟨by decide, by decide, fun _ => rfl⟩, fun id hg => ?_, fun id hq => ?_⟩
  · exact absurd hg Bool.false_ne_true
  · exact absurd hq Bool.false_ne_true

/-- A cancelled task is called again only after it was scheduled anew or, if it cancelled itself, after it asked for
that. -/
theorem cancelled_not_called (steps : List Step) (hsafe : ∀ e ∈ (run (start, []) steps).2, CancelSafe e)
    {s : Sched} {o : Op} {id : Nat} {time : ℚ} {l₁ l₂ l₃ : List Entry}
    (hlog : (run (start, []) steps).2 = l₁ ++ .called s o :: (l₂ ++ .ran id time :: l₃))
    (hcancel : cancelled s o = some id) :
    ∃ e ∈ l₂, schedulesAnew id e = true ∨ executing s id = true ∧ asksAgain id e = true := by
  have ha := cancelled_rule.ran (x := (start, [])) cancelled_start ⟨rfl, rfl⟩ (fun l₁ _ _ l₂ h => by simp at h) hsafe
  have hok := ha (l₁ ++ .called s o :: l₂) id time l₃ (by simpa using hlog)
  by_contra hn
  push Not at hn
  cases hs : executing s id with
  | false =>
    apply hok.1
    rw [Gone, foldl_append, foldl_cons, goneAfter, if_pos ⟨hcancel, hs⟩]
    exact goneAfter_stays fun e he => Bool.eq_false_of_not_eq_true (hn e he).1
  | true =>
    apply hok.2
    rw [Quiet, foldl_append, foldl_cons, quietAfter, if_pos ⟨hcancel, hs⟩]
    exact quietAfter_stays fun e he =>
      ⟨Bool.eq_false_of_not_eq_true (hn e he).1, Bool.eq_false_of_not_eq_true ((hn e he).2 hs)⟩

def resumed : List Step := [.init, .call (.task 1 0 0), .fire [[.cancel 1, .reschedule]], .fire []]

def resumedState : Sched := ⟨true, 0, [], [], some ⟨1, false, false, 0, 0, 0, 1, 0⟩, 2, 1, none, false⟩

theorem resumed_task_asks : ∃ e ∈ ((run (start, []) resumed).2.drop 4).take 2,
      schedulesAnew 1 e = true ∨ executing resumedState 1 = true ∧ asksAgain 1 e = true :=
  cancelled_not_called resumed (by decide +kernel)
    (show (run (start, []) resumed).2 = (run (start, []) resumed).2.take 3 ++ .called resumedState (.cancel 1) ::
      (((run (start, []) resumed).2.drop 4).take 2 ++ .ran 1 0 :: []) by decide +kernel) rfl

/-- A function schedules a task and cancels it at once. -/
def cancelPending : List Step := [.init, .call (.task 1 0 0), .fire [[.task 2 0 0, .cancel 2]], .fire []]

theorem pending_task_called :
    ∃ s l₁ l₂ l₃, (run (start, []) cancelPending).2 = l₁ ++ .called s (.cancel 2) :: (l₂ ++ .ran 2 0 :: l₃) ∧
      .called { s with pending := [], taskId := 2 } (.task 2 0 0) ∈ l₁ ∧
      executing s 2 = false ∧ ∀ e ∈ l₂, schedulesAnew 2 e = false := by
  refine ⟨⟨true, 0, [], [⟨2, false, false, 0, 0, 0, 2, 0⟩], some ⟨1, false, false, 0, 0, 0, 1, 0⟩, 3, 1, none, false⟩,
    (run (start, []) cancelPending).2.take 4, ((run (start, []) cancelPending).2.drop 5).take 1, [], ?_, ?_, ?_, ?_⟩ <;>
    decide +kernel

end OpenSync.Evsched
