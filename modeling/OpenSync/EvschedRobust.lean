import OpenSync.EvschedOrder

/-!
# Callbacks

A callback runs every task that was due when it began, except those cancelled meanwhile, and leaves a sorted list with
the timer armed for its head. This needs that no function updates a task of the list, since the update takes the task
away from under the walk, and that clock jumps keep the list sorted.
-/

namespace OpenSync.Evsched
open List Option

variable {s : Sched} {l : List Entry} {x : Trace} {o : Op} {id : Nat} {ts : List Task}

/-- The list that an operation outside of functions puts a task into. -/
def insertsInto (s : Sched) : Op → List Task
  | .task .. => s.tasklist
  | .update id _ => if (evschedGetTaskinfo s id).isSome then s.tasklist.eraseP (hasId id) else []
  | _ => []

/-- A function that updates a task does so only for itself or for one that is not in the list. -/
def UpdateSafe (s : Sched) : Op → Prop
  | .update id _ => s.current.isSome = true → executing s id = true ∨ evschedGetTaskinfo s id = none
  | _ => True

instance (s : Sched) (o : Op) : Decidable (UpdateSafe s o) :=
  match o with
  | .update .. => inferInstanceAs (Decidable (s.current.isSome = true → _))
  | .task .. | .cancel _ | .cancelByFind .. | .reschedule | .rescheduleMs _ => isTrue trivial

def RobustSafe : Entry → Prop
  | .called s o => UpdateSafe s o ∧ (s.current = none → JumpSafe s.now (insertsInto s o))
  | _ => True

instance : DecidablePred RobustSafe
  | .called s o => inferInstanceAs (Decidable (UpdateSafe s o ∧ (s.current = none → _)))
  | .fired _ => isTrue trivial
  | .ran .. => isTrue trivial

/-! ## Operations of a function -/

def cancels (id : Nat) : Entry → Bool
  | .called s o => decide (cancelled s o = some id ∧ executing s id = false)
  | _ => false

def isRan (id : Nat) : Entry → Bool
  | .ran id' _ => decide (id' = id)
  | _ => false

def isDue (s : Sched) (id : Nat) (t : Task) : Bool := hasId id t && !t.remove && decide (t.triggerTime ≤ s.now)

def dueCount (s : Sched) (id : Nat) : Nat := s.tasklist.countP (isDue s id)

theorem apply_ndel (hc : s.current.isSome = true) (hs : UpdateSafe s o) : (apply s o).ndel = s.ndel := by
  obtain ⟨tp, htp⟩ := isSome_iff_exists.mp hc
  have hca : ∀ id, (evschedTaskCancel s id).2.ndel = s.ndel := by
    intro id
    unfold evschedTaskCancel
    simp only [htp]
    split_ifs <;> rfl
  cases o with
  | task func arg ms =>
    simp only [apply, evschedTask, hc, if_true]
    split_ifs <;> rfl
  | update id ms =>
    rcases hs hc with hse | hn
    · have ha : s.current.any (hasId id) = true := hse
      simp [apply, evschedTaskUpdate, ha, ite_self]
    · have ht : evschedTakeTaskinfo s id = none := by rw [evschedTakeTaskinfo, hn, map_none]
      simp [apply, evschedTaskUpdate, ht, ite_self]
  | cancel id => exact hca id
  | cancelByFind func arg byFunc byArg =>
    simp only [apply, evschedTaskCancelByFind]
    split_ifs
    · rfl
    · exact hca _
  | reschedule => simp only [apply, evschedTaskReschedule, htp]
  | rescheduleMs ms => simp only [apply, evschedTaskRescheduleMs, htp]

/-- What functions keep: the list stays sorted, and what waits was scheduled now. -/
structure Walk (s : Sched) : Prop where
  running : s.aborted = false
  sorted : Sorted s.tasklist
  pending : ∀ t ∈ s.pending, t.schedTime = s.now ∧ t.remove = false
  current : ∀ t ∈ s.current, t.remove = false

theorem markRemove_triggerTime (id : Nat) (ts : List Task) :
    (markRemove id ts).map Task.triggerTime = ts.map Task.triggerTime := by
  induction ts with
  | nil => rfl
  | cons t ts ih =>
    rw [markRemove]
    split_ifs
    · rfl
    · rw [map_cons, map_cons, ih]

theorem Sorted.markRemove (h : Sorted ts) (id : Nat) : Sorted (markRemove id ts) := by
  have hif : ∀ ts : List Task, Sorted ts ↔ (ts.map Task.triggerTime).Pairwise (· ≤ ·) := fun ts => pairwise_map.symm
  rw [hif, markRemove_triggerTime, ← hif]
  exact h

theorem countP_markRemove {id' : Nat} (hne : id' ≠ id) (ts : List Task) :
    (markRemove id' ts).countP (isDue s id) = ts.countP (isDue s id) := by
  induction ts with
  | nil => rfl
  | cons t ts ih =>
    rw [markRemove]
    split_ifs with hid
    · have ht : t.id ≠ id := fun heq => hne ((of_decide_eq_true hid).symm.trans heq)
      rw [countP_cons_of_neg (by simp [isDue, hasId, ht]), countP_cons_of_neg (by simp [isDue, hasId, ht])]
    · rw [countP_cons, countP_cons, ih]

theorem Walk.called (h : Walk s) (hc : s.current.isSome = true) (hs : UpdateSafe s o) :
    Walk (apply s o) ∧ ((apply s o).tasklist = s.tasklist ∨
      ∃ id, cancelled s o = some id ∧ executing s id = false ∧ (apply s o).tasklist = markRemove id s.tasklist) := by
  have hnd := apply_ndel hc hs
  have he := apply_effect s o
  generalize apply s o = s' at hnd he
  cases he with
  | inserted _ _ _ _ _ hn | renewed _ _ _ _ _ hn | erased _ _ _ hn => simp [hn] at hc
  | moved => exact absurd hnd (Nat.succ_ne_self _)
  | idle | missed => exact ⟨h, .inl rfl⟩
  | queued func arg ms =>
    refine ⟨⟨h.running, h.sorted, fun t ht => ?_, h.current⟩, .inl rfl⟩
    rcases mem_append.mp ht with ht | ht
    · exact h.pending t ht
    · rw [mem_singleton.mp ht]
      exact ⟨rfl, rfl⟩
  | marked id tp hca _ htp hid =>
    refine ⟨⟨h.running, h.sorted.markRemove id, h.pending, h.current⟩, .inr ⟨id, hca, ?_, rfl⟩⟩
    simp [executing, htp, hasId, Ne.symm hid]
  | quieted tp _ _ htp | asked tp ms _ _ _ htp =>
    exact ⟨⟨h.running, h.sorted, h.pending, fun t ht => mem_some_iff.mp ht ▸ h.current tp htp⟩, .inl rfl⟩

theorem dueCount_called (h : Walk s) (hc : s.current.isSome = true) (hs : UpdateSafe s o)
    (hst : cancels id (.called s o) = false) : dueCount (apply s o) id = dueCount s id := by
  have hn : isDue (apply s o) id = isDue s id := by
    funext t
    rw [isDue, isDue, (apply_effect s o).now.1]
  rw [dueCount, dueCount, hn]
  rcases (h.called hc hs).2 with hsa | ⟨id', hca, ho, hm⟩
  · rw [hsa]
  · rw [hm]
    refine countP_markRemove (fun heq => ?_) _
    subst heq
    exact of_decide_eq_false hst ⟨hca, ho⟩

/-! ## The walk -/

/-- Part of a callback: it calls functions of tasks that were due, and those that are not called stay due. -/
structure Walks (x y : Trace) : Prop where
  walk : Walk y.1
  now : y.1.now = x.1.now
  ran : ∃ new, y.2 = x.2 ++ new ∧ ∀ id, (∀ e ∈ new, cancels id e = false) →
    new.countP (isRan id) + dueCount y.1 id = dueCount x.1 id

theorem Walks.refl (h : Walk x.1) : Walks x x := ⟨h, rfl, [], (append_nil _).symm, fun _ _ => Nat.zero_add _⟩

theorem Walks.trans {y z : Trace} (h : Walks x y) (h' : Walks y z) : Walks x z := by
  obtain ⟨new, hl, hr⟩ := h.ran
  obtain ⟨new', hl', hr'⟩ := h'.ran
  refine ⟨h'.walk, h'.now.trans h.now, new ++ new', ?_, fun id hs => ?_⟩
  · rw [hl', hl, append_assoc]
  · have hf := hr id fun e he => hs e (mem_append_left _ he)
    have hse := hr' id fun e he => hs e (mem_append_right _ he)
    rw [countP_append]
    omega

theorem Walks.call (h : Walk x.1) (hc : x.1.current.isSome = true) (hs : UpdateSafe x.1 o) : Walks x (x.call o) := by
  refine ⟨(h.called hc hs).1, (apply_effect x.1 o).now.1, _, rfl, fun id hst => ?_⟩
  rw [countP_singleton, if_neg (by simp [isRan]), Nat.zero_add]
  exact dueCount_called h hc hs (hst _ mem_cons_self)

open Walks

theorem Walks.calls {ops : List Op} (h : Walk x.1) (hc : x.1.current.isSome = true)
    (hs : ∀ e ∈ (ops.foldl Trace.call x).2, RobustSafe e) :
    Walks x (ops.foldl Trace.call x) ∧ (ops.foldl Trace.call x).1.ndel = x.1.ndel := by
  induction ops generalizing x with
  | nil => exact ⟨.refl h, rfl⟩
  | cons o ops ih =>
    have hen : RobustSafe (.called x.1 o) := hs _ ((calls_isPrefix ops (x.call o)).subset (by simp [Trace.call]))
    have hf := call h hc hen.1
    obtain ⟨hr, hn⟩ := ih hf.walk ((apply_effect x.1 o).current.trans hc) hs
    exact ⟨hf.trans hr, hn.trans (apply_ndel hc hen.1)⟩

variable {tp : Task}

theorem Walks.removed {rest : List Task} (h : Walk x.1) (hl : x.1.tasklist = tp :: rest)
    (hr : tp.remove = true) : Walks x (removeHead x rest) := by
  have hs : Sorted rest := List.Pairwise.of_cons (hl ▸ h.sorted)
  refine ⟨⟨h.running, hs, h.pending, h.current⟩, rfl, [], (append_nil _).symm, fun id _ => ?_⟩
  have hn : ¬ isDue x.1 id tp = true := by simp [isDue, hr]
  rw [dueCount, dueCount, hl, countP_cons_of_neg hn]
  exact Nat.zero_add _

theorem Walks.entered {rest : List Task} (h : Walk x.1) (hl : x.1.tasklist = tp :: rest)
    (hd : tp.triggerTime ≤ x.1.now) (hr : tp.remove = false) : Walks x (enter (removeHead x rest) tp) := by
  have hs : Sorted rest := List.Pairwise.of_cons (hl ▸ h.sorted)
  refine ⟨⟨h.running, hs, h.pending, ?_⟩, rfl, _, rfl, fun id _ => ?_⟩
  · exact fun t ht => mem_some_iff.mp ht ▸ hr
  · have hh : isRan id (.ran tp.id x.1.now) = isDue x.1 id tp := by simp [isRan, isDue, hasId, hd, hr]
    rw [countP_singleton, dueCount, dueCount, hl, countP_cons, ← hh]
    exact Nat.add_comm _ _

theorem Walks.left (h : Walk x.1) (hc : x.1.current = some tp) : Walks x (leave x.1 tp, x.2) := by
  refine ⟨⟨h.running, h.sorted, ?_, fun t ht => nomatch ht⟩, rfl, [], (append_nil _).symm, fun _ _ => Nat.zero_add _⟩
  intro t ht
  simp only [leave] at ht
  split_ifs at ht
  · rcases mem_append.mp ht with ht | ht
    · exact h.pending t ht
    · rw [mem_singleton.mp ht]
      exact ⟨rfl, h.current tp hc⟩
  · exact h.pending t ht

variable {scripts : List (List Op)}

theorem Walks.due {fuel : Nat} (h : Walk x.1) (hc : x.1.current = none)
    (hs : ∀ e ∈ (runDue fuel scripts x).2, RobustSafe e) :
    Walks x (runDue fuel scripts x) ∧ (runDue fuel scripts x).1.current = none := by
  induction fuel generalizing scripts x with
  | zero => exact ⟨.refl h, hc⟩
  | succ fuel ih =>
    rw [runDue] at hs ⊢
    cases hl : x.1.tasklist with
    | nil => exact ⟨.refl h, hc⟩
    | cons tp rest =>
      simp only [hl] at hs ⊢
      by_cases hd : tp.triggerTime > x.1.now
      · rw [if_pos hd]
        exact ⟨.refl h, hc⟩
      rw [if_neg hd] at hs ⊢
      cases hr : tp.remove with
      | true =>
        simp only [hr, if_true] at hs ⊢
        have hh := removed h hl hr
        obtain ⟨hre, hn⟩ := ih hh.walk hc hs
        exact ⟨hh.trans hre, hn⟩
      | false =>
        simp only [hr, Bool.false_eq_true, if_false] at hs ⊢
        have hen := entered h hl (not_lt.mp hd) hr
        obtain ⟨tp', htp, ht⟩ := runTask_eq (removeHead x rest) tp (scripts.headD [])
        have hlo : ∀ e ∈ ((scripts.headD []).foldl Trace.call (enter (removeHead x rest) tp)).2, RobustSafe e := by
          intro e he
          refine hs e ?_
          rw [ht]
          split_ifs
          · exact (runDue_isPrefix fuel scripts.tail _).subset he
          · exact he
        obtain ⟨hca, hnd⟩ := calls hen.walk rfl hlo
        have hle := left hca.walk htp
        have hk : (leave ((scripts.headD []).foldl Trace.call
            (enter (removeHead x rest) tp)).1 tp').ndel = (removeHead x rest).1.ndel := hnd
        rw [ht] at hs ⊢
        rw [if_pos hk] at hs ⊢
        obtain ⟨hre, hn⟩ := ih hle.walk rfl hs
        exact ⟨hen.trans (hca.trans (hle.trans hre)), hn⟩

/-! ## Between callbacks -/

structure Sound (s : Sched) : Prop where
  top : Top s
  running : s.aborted = false
  sorted : Sorted s.tasklist
  armed : Armed s
  kept : ∀ t ∈ s.tasklist, t.remove = false

/-- While tasks that wait are inserted, nothing in the list is overdue. -/
structure Refilling (s : Sched) : Prop where
  running : s.aborted = false
  sorted : Sorted s.tasklist
  ahead : ∀ t ∈ s.tasklist, s.now ≤ t.triggerTime
  kept : ∀ t ∈ s.tasklist, t.remove = false

theorem JumpSafe.of_ahead {time : ℚ} (h : ∀ t ∈ ts, time ≤ t.triggerTime) : JumpSafe time ts :=
  fun _ _ _ tp' htp' => h tp' (dropWhile_subset _ (mem_of_mem_head? htp'))

theorem Sorted.inserted (h : Sorted s.tasklist) (hs : JumpSafe s.now s.tasklist)
    (hn : tp.schedTime = s.now) (restart : Bool) : Sorted (evschedTaskInsert s tp restart).tasklist := by
  rw [evschedTaskInsert_tasklist, hn]
  exact (h.fixTimeJump hs).insertTask _

theorem Refilling.inserted (h : Refilling s) (hn : tp.schedTime = s.now) (htp : tp.remove = false) :
    Refilling (evschedTaskInsert s tp false) := by
  refine ⟨by simpa using h.running, h.sorted.inserted (.of_ahead h.ahead) hn false, ?_,
    forall_evschedTaskInsert (P := fun _ remove => remove = false) h.kept htp⟩
  intro t ht
  simp only [evschedTaskInsert_fields]
  rcases mem_evschedTaskInsert ht with rfl | ht | ⟨t', ht', -, rfl⟩
  · exact hn ▸ le_placed tp
  · exact h.ahead t ht
  · exact hn.symm.le

theorem Refilling.insertedAll {ps : List Task} (h : Refilling s) (hps : ∀ t ∈ ps, t.schedTime = s.now ∧ t.remove = false) :
    Refilling (ps.foldl (fun s tp => evschedTaskInsert s tp false) s) ∧
      (ps.foldl (fun s tp => evschedTaskInsert s tp false) s).current = s.current ∧
      (ps.foldl (fun s tp => evschedTaskInsert s tp false) s).pending = s.pending := by
  induction ps generalizing s with
  | nil => exact ⟨h, rfl, rfl⟩
  | cons tp ps ih =>
    obtain ⟨hn, hk⟩ := hps tp mem_cons_self
    simpa using ih (h.inserted hn hk) (by simpa using (forall_mem_cons.mp hps).2)

theorem Sorted.ahead (h : Sorted s.tasklist) (hd : ∀ tp ∈ s.tasklist.head?, s.now < tp.triggerTime) :
    ∀ t ∈ s.tasklist, s.now < t.triggerTime := by
  intro t ht
  cases hl : s.tasklist with
  | nil => simp [hl] at ht
  | cons tp rest => exact (hd tp (by simp [hl])).trans_le (h.le_of_head (by simp [hl]) ht)

theorem Walk.finished (h : Walk s) (hc : s.current = none)
    (hd : ∀ tp ∈ s.tasklist.head?, s.now < tp.triggerTime) : Sound (finish s) := by
  have hb : Refilling { s with
      tasklist := s.tasklist.filter (!·.remove)
      ndel := s.ndel + (s.tasklist.filter (·.remove)).length
      pending := [] } :=
    ⟨h.running, h.sorted.sublist filter_sublist, fun t ht => (h.sorted.ahead hd t (mem_filter.mp ht).1).le,
      fun t ht => by simpa using (mem_filter.mp ht).2⟩
  obtain ⟨hen, hc', hp'⟩ := hb.insertedAll h.pending
  have hto := And.intro (hc'.trans hc) hp'
  unfold finish
  simp only
  split
  · rename_i hl
    exact ⟨hto, hen.running, hen.sorted, by simp [Armed, hl], hen.kept⟩
  rename_i tp rest hl
  refine ⟨hto, hen.running, hen.sorted, ?_, hen.kept⟩
  intro t ht
  refine ⟨_, rfl, ?_⟩
  have hle := hen.sorted.le_of_head (by rw [hl]; rfl) ht
  linarith

theorem dueCount_eq_zero (h : Sorted s.tasklist) (hd : ∀ tp ∈ s.tasklist.head?, s.now < tp.triggerTime) (id : Nat) :
    dueCount s id = 0 := by
  refine countP_eq_zero.mpr fun t ht => ?_
  simp [isDue, not_le.mpr (h.ahead hd t ht)]

def DueOnce (s : Sched) (new : List Entry) : Prop :=
  ∀ id, (∀ e ∈ new, cancels id e = false) → new.countP (isRan id) = dueCount s id

theorem Sound.callback (h : Sound x.1) (hs : ∀ e ∈ (evschedTimerCallback x scripts).2, RobustSafe e) :
    Sound (evschedTimerCallback x scripts).1 ∧
      ∃ new, (evschedTimerCallback x scripts).2 = x.2 ++ new ∧ DueOnce x.1 new := by
  have hb : Walk { x.1 with timer := none } := ⟨h.running, h.sorted, by simp [h.top.2], by simp [h.top.1]⟩
  have hl := callback_log x scripts
  obtain ⟨hw, hcu⟩ := due (x := ({ x.1 with timer := none }, x.2 ++ [.fired x.1])) hb h.top.1 (hl ▸ hs)
  have hf := @runDue_done _ scripts ({ x.1 with timer := none }, x.2 ++ [.fired x.1]) (le_refl x.1.tasklist.length)
  have hd := hf.resolve_left (by rw [hw.walk.running]; exact Bool.false_ne_true)
  constructor
  · unfold evschedTimerCallback
    rw [if_neg (by rw [hw.walk.running]; exact Bool.false_ne_true)]
    exact hw.walk.finished hcu hd
  · obtain ⟨new, hn, hr⟩ := hw.ran
    refine ⟨.fired x.1 :: new, by rw [hl, hn, append_assoc]; rfl, fun id hst => ?_⟩
    have hc := hr id (forall_mem_cons.mp hst).2
    rw [dueCount_eq_zero hw.walk.sorted hd, Nat.add_zero] at hc
    exact hc

theorem Sound.called (h : Sound s) (hsa : RobustSafe (.called s o)) : Sound (apply s o) := by
  have he := apply_effect s o
  have hj := hsa.2 h.top.1
  suffices hl : Sorted (apply s o).tasklist ∧ Armed (apply s o) ∧ ∀ t ∈ (apply s o).tasklist, t.remove = false from
    ⟨he.top h.top, he.now.2.trans h.running, hl.1, hl.2.1, hl.2.2⟩
  generalize apply s o = s' at he
  cases he with
  | idle | missed => exact ⟨h.sorted, h.armed, h.kept⟩
  | queued _ _ _ _ _ hs | moved _ _ hs | quieted _ _ _ hs | marked _ _ _ _ hs | asked _ _ _ _ _ hs =>
    simp [h.top.1] at hs
  | inserted func arg ms ho =>
    subst ho
    refine ⟨.inserted ?_ ?_ rfl true, .inserted ?_ ?_ ?_ rfl, forall_evschedTaskInsert (P := fun _ remove => remove = false) ?_ rfl⟩
    · exact h.sorted
    · exact hj
    · exact h.armed
    · exact h.sorted
    · exact hj
    · exact h.kept
  | renewed id ms tp ho _ _ hf =>
    subst ho
    rw [insertsInto, evschedGetTaskinfo, hf, if_pos isSome_some] at hj
    have hso : Sorted (s.tasklist.eraseP (hasId id)) := h.sorted.sublist eraseP_sublist
    refine ⟨hso.inserted hj rfl true, .inserted ?_ hso hj rfl, forall_evschedTaskInsert (P := fun _ remove => remove = false) ?_ ?_⟩
    · exact fun t ht => h.armed t (mem_of_mem_eraseP ht)
    · exact fun t ht => h.kept t (mem_of_mem_eraseP ht)
    · exact h.kept tp (mem_of_find?_eq_some hf)
  | erased id =>
    exact ⟨h.sorted.sublist eraseP_sublist, fun t ht => h.armed t (mem_of_mem_eraseP ht),
      fun t ht => h.kept t (mem_of_mem_eraseP ht)⟩

theorem Sound.stepped {st : Step} (h : Sound x.1) (hs : ∀ e ∈ (step x st).2, RobustSafe e) : Sound (step x st).1 := by
  cases st with
  | init =>
    simp only [step, evschedInit]
    split_ifs
    · exact h
    · exact ⟨⟨rfl, rfl⟩, h.running, List.Pairwise.nil, fun t ht => absurd ht not_mem_nil,
        fun t ht => absurd ht not_mem_nil⟩
  | cleanup =>
    simp only [step, evschedCleanup]
    split_ifs
    · exact h
    · exact ⟨h.top, h.running, List.Pairwise.nil, fun t ht => absurd ht not_mem_nil, fun t ht => absurd ht not_mem_nil⟩
  | advance d =>
    simp only [step]
    split_ifs
    · exact ⟨h.top, h.running, h.sorted, h.armed, h.kept⟩
    · exact h
  | fire scripts =>
    simp only [step] at hs ⊢
    split_ifs at hs ⊢
    · exact (h.callback hs).1
    · exact h
  | call o => exact h.called (hs _ (by simp [step, Trace.call]))

theorem run_append (x : Trace) (before after : List Step) : run x (before ++ after) = run (run x before) after := by
  induction before generalizing x with
  | nil => rfl
  | cons st before ih =>
    rw [cons_append, run, run]
    split_ifs with ha
    · cases after with
      | nil => rfl
      | cons st' after => rw [run, if_pos ha]
    · exact ih _

theorem run_log_isPrefix {before steps : List Step} (hb : before <+: steps) (x : Trace) :
    (run x before).2 <+: (run x steps).2 := by
  obtain ⟨after, rfl⟩ := hb
  rw [run_append]
  exact run_isPrefix _ _

theorem Sound.ran {steps : List Step} (h : Sound x.1) (hs : ∀ e ∈ (run x steps).2, RobustSafe e) :
    Sound (run x steps).1 := by
  induction steps generalizing x with
  | nil => exact h
  | cons st steps ih =>
    rw [run, if_neg (by rw [h.running]; exact Bool.false_ne_true)] at hs ⊢
    exact ih (h.stepped fun e he => hs e ((run_isPrefix _ steps).subset he)) hs

theorem sound_start : Sound start :=
  ⟨⟨rfl, rfl⟩, rfl, List.Pairwise.nil, fun _ ht => absurd ht not_mem_nil, fun _ ht => absurd ht not_mem_nil⟩

/-! ## Whole runs -/

/-- Whenever the timer fires, each task that is due and is not cancelled by another one meanwhile runs exactly once; the
walk is never aborted; and before and after, the list is sorted and the timer armed for its earliest task. -/
theorem scheduler_robust (steps : List Step) (hsafe : ∀ e ∈ (run (start, []) steps).2, RobustSafe e) {before : List Step}
    (hbefore : before <+: steps) :
    ((run (start, []) before).1.aborted = false ∧ Sorted (run (start, []) before).1.tasklist ∧
        Armed (run (start, []) before).1) ∧
      ∀ scripts, before ++ [.fire scripts] <+: steps →
        (run (start, []) before).1.timer.any (· ≤ (run (start, []) before).1.now) = true →
        ∃ new, (run (start, []) (before ++ [.fire scripts])).2 = (run (start, []) before).2 ++ new ∧
          DueOnce (run (start, []) before).1 new := by
  have hl : ∀ {steps'}, steps' <+: steps → ∀ e ∈ (run (start, []) steps').2, RobustSafe e := fun hp e he =>
    hsafe e ((run_log_isPrefix hp _).subset he)
  have hs := sound_start.ran (x := (start, [])) (hl hbefore)
  refine ⟨⟨hs.running, hs.sorted, hs.armed⟩, fun scripts hf hd => ?_⟩
  have hst : run (start, []) (before ++ [.fire scripts]) = evschedTimerCallback (run (start, []) before) scripts := by
    rw [run_append, run, if_neg (by rw [hs.running]; exact Bool.false_ne_true)]
    exact if_pos hd
  have hen := hl hf
  rw [hst] at hen ⊢
  exact (hs.callback hen).2

/-- Two tasks are due: the first asks to be run again and schedules another one, the second cancels a third. -/
def busy : List Step :=
  [.init, .call (.task 1 0 0), .call (.task 2 0 1000), .call (.task 3 0 5000), .call (.update 1 500), .advance 2,
    .fire [[.reschedule, .task 4 0 0, .update 1 0], [.cancel 3]], .advance 3, .fire []]

theorem busy_robust :
    ((run (start, []) (busy.take 6)).1.aborted = false ∧ Sorted (run (start, []) (busy.take 6)).1.tasklist ∧
        Armed (run (start, []) (busy.take 6)).1) ∧
      ∃ new, (run (start, []) (busy.take 7)).2 = (run (start, []) (busy.take 6)).2 ++ new ∧
        DueOnce (run (start, []) (busy.take 6)).1 new := by
  have hs : ∀ e ∈ (run (start, []) busy).2, RobustSafe e := by decide +kernel
  obtain ⟨hb, hf⟩ := scheduler_robust busy hs (List.take_prefix 6 busy)
  exact ⟨hb, hf _ (List.take_prefix 7 busy) (by decide +kernel)⟩

def updateOther : List Step := [.init, .call (.task 1 0 0), .call (.task 2 0 0), .fire [[.update 2 5]]]

/-- A new task makes one of the day before run at once, in front of one that should have run earlier. -/
def overtaken : List Step :=
  [.init, .call (.task 1 0 86405000), .advance 86399, .call (.task 2 0 7000), .advance 11, .call (.task 3 0 0)]

theorem update_aborts_jump_unsorts :
    (run (start, []) updateOther).1.aborted = true ∧ ¬ Sorted (run (start, []) overtaken).1.tasklist ∧
      ¬ Armed (run (start, []) overtaken).1 := by
  decide +kernel

end OpenSync.Evsched
