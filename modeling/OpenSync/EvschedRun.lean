import OpenSync.Evsched

/-!
# Runs of the task scheduler

What holds along every run, whichever relation between the state and the past it is: one lemma for each thing that can
happen, and from these what holds for whole callbacks and runs.
-/

namespace OpenSync.Evsched
open List Option

variable {s : Sched} {l : List Entry} {x : Trace}

/-! ## What operations leave alone -/

@[simp] theorem evschedTaskInsert_fields (s : Sched) (tp : Task) (restart : Bool) :
    (evschedTaskInsert s tp restart).current = s.current ∧ (evschedTaskInsert s tp restart).pending = s.pending ∧
      (evschedTaskInsert s tp restart).now = s.now ∧ (evschedTaskInsert s tp restart).taskId = s.taskId ∧
      (evschedTaskInsert s tp restart).ndel = s.ndel ∧
      (evschedTaskInsert s tp restart).initialized = s.initialized ∧
      (evschedTaskInsert s tp restart).aborted = s.aborted := by
  unfold evschedTaskInsert evschedResetTimer
  simp only
  split_ifs <;> exact ⟨rfl, rfl, rfl, rfl, rfl, rfl, rfl⟩

theorem evschedTaskInsert_tasklist (s : Sched) (tp : Task) (restart : Bool) :
    (evschedTaskInsert s tp restart).tasklist =
      insertTask { tp with triggerTime := tp.schedTime + tp.ms / 1000, resched := false }
        (fixTimeJump tp.schedTime s.tasklist) := by
  unfold evschedTaskInsert evschedResetTimer
  simp only
  split_ifs <;> rfl

variable {s' : Sched}

theorem evschedTakeTaskinfo_some {id : Nat} {tp : Task} (h : evschedTakeTaskinfo s id = some (tp, s')) :
    s.tasklist.find? (hasId id) = some tp ∧
      s' = { s with tasklist := s.tasklist.eraseP (hasId id), ndel := s.ndel + 1 } := by
  obtain ⟨tp', htp, heq⟩ := map_eq_some_iff.mp h
  obtain ⟨rfl, rfl⟩ := Prod.mk.inj heq
  exact ⟨htp, rfl⟩

/-! ## What an operation can do -/

def cancelled (s : Sched) : Op → Option Nat
  | .cancel id => some id
  | .cancelByFind func arg byFunc byArg =>
    if evschedTaskFind s func arg byFunc byArg = 0 then none else some (evschedTaskFind s func arg byFunc byArg)
  | _ => none

def scheduled (s : Sched) : Op → Option Nat
  | .task .. => if s.initialized then some s.taskId else none
  | _ => none

def rescheduled (s : Sched) : Op → Option Nat
  | .reschedule => s.current.map Task.id
  | .rescheduleMs _ => s.current.map Task.id
  | _ => none

def request (s : Sched) : Op → Option (Nat × Nat)
  | .task _ _ ms => if s.initialized then some (s.taskId, ms) else none
  | .update id ms => if (evschedTaskUpdate s id ms).1 then some (id, ms) else none
  | .reschedule => s.current.map fun tp => (tp.id, tp.ms)
  | .rescheduleMs ms => s.current.map fun tp => (tp.id, ms)
  | _ => none

def newTask (s : Sched) (func arg ms : Nat) : Task := ⟨s.taskId, false, false, ms, s.now, 0, func, arg⟩

/-- Everything that an operation can do. -/
inductive Effect (s : Sched) (o : Op) : Sched → Prop
  | idle (hrequest : request s o = none) (hcancel : cancelled s o = none) : Effect s o s
  | missed (id : Nat) (hcancel : cancelled s o = some id) (hrequest : request s o = none)
      (hfree : s.initialized = true → ∀ t ∈ s.tasklist, t.id ≠ id)
      (hcurrent : s.initialized = true → ∀ t ∈ s.current, t.id ≠ id) : Effect s o s
  | queued (func arg ms : Nat) (ho : o = .task func arg ms) (hinit : s.initialized = true)
      (hcurrent : s.current.isSome = true) :
      Effect s o { s with taskId := (s.taskId + 1) % 2 ^ 32, pending := s.pending ++ [newTask s func arg ms] }
  | inserted (func arg ms : Nat) (ho : o = .task func arg ms) (hinit : s.initialized = true)
      (hcurrent : s.current = none) :
      Effect s o (evschedTaskInsert { s with taskId := (s.taskId + 1) % 2 ^ 32 } (newTask s func arg ms) true)
  | renewed (id ms : Nat) (tp : Task) (ho : o = .update id ms) (hrequest : request s o = some (id, ms))
      (hcurrent : s.current = none) (hfind : s.tasklist.find? (hasId id) = some tp) :
      Effect s o (evschedTaskInsert { s with tasklist := s.tasklist.eraseP (hasId id), ndel := s.ndel + 1 }
        { tp with schedTime := s.now, ms := ms } true)
  | moved (id : Nat) (tp : Task) (hcurrent : s.current.isSome = true) :
      Effect s o { s with tasklist := s.tasklist.eraseP (hasId id), ndel := s.ndel + 1,
                          pending := s.pending ++ [{ tp with schedTime := s.now }] }
  | quieted (tp : Task) (hcancel : cancelled s o = some tp.id) (hrequest : request s o = none)
      (hcurrent : s.current = some tp) : Effect s o { s with current := some { tp with resched := false } }
  | marked (id : Nat) (tp : Task) (hcancel : cancelled s o = some id) (hrequest : request s o = none)
      (hcurrent : s.current = some tp) (hid : id ≠ tp.id) :
      Effect s o { s with tasklist := markRemove id s.tasklist }
  | erased (id : Nat) (hcancel : cancelled s o = some id) (hrequest : request s o = none) (hcurrent : s.current = none) :
      Effect s o { s with tasklist := s.tasklist.eraseP (hasId id), ndel := s.ndel + 1 }
  | asked (tp : Task) (ms : Nat) (hcancel : cancelled s o = none) (hrequest : request s o = some (tp.id, ms))
      (hagain : rescheduled s o = some tp.id) (hcurrent : s.current = some tp) :
      Effect s o { s with current := some { tp with resched := true, ms := ms } }

theorem evschedTask_effect (s : Sched) (func arg ms : Nat) :
    Effect s (.task func arg ms) (evschedTask s func arg ms).2 := by
  unfold evschedTask
  by_cases hin : s.initialized = true
  · rw [if_neg (by simp [hin])]
    by_cases hc : s.current.isSome = true
    · simp only [hc, if_true]
      exact .queued func arg ms rfl hin hc
    · simp only [hc, Bool.false_eq_true, if_false]
      exact .inserted func arg ms rfl hin (not_isSome_iff_eq_none.mp hc)
  · rw [if_pos (by simp [hin])]
    exact .idle (by simp [request, hin]) rfl

theorem evschedTaskUpdate_effect (s : Sched) (id ms : Nat) :
    Effect s (.update id ms) (evschedTaskUpdate s id ms).2 := by
  cases hok : (evschedTaskUpdate s id ms).1 with
  | false =>
    have hs : (evschedTaskUpdate s id ms).2 = s := by
      unfold evschedTaskUpdate at hok ⊢
      split_ifs at hok ⊢
      · rfl
      · rfl
      · cases ht : evschedTakeTaskinfo s id with
        | none => rfl
        | some p =>
          rw [ht] at hok
          simp only at hok
          split_ifs at hok
    rw [hs]
    exact .idle (by simp [request, hok]) rfl
  | true =>
    have hr : request s (.update id ms) = some (id, ms) := by simp [request, hok]
    unfold evschedTaskUpdate at hok ⊢
    split_ifs at hok ⊢
    cases ht : evschedTakeTaskinfo s id with
    | none =>
      rw [ht] at hok
      cases hok
    | some p =>
      obtain ⟨tp, s'⟩ := p
      obtain ⟨hf, rfl⟩ := evschedTakeTaskinfo_some ht
      simp only
      split_ifs with hc
      · exact .moved id tp hc
      · exact .renewed id ms tp rfl hr (not_isSome_iff_eq_none.mp hc) hf

variable {o : Op}

theorem evschedTaskCancel_effect {id : Nat} (hc : cancelled s o = some id)
    (hr : request s o = none) : Effect s o (evschedTaskCancel s id).2 := by
  unfold evschedTaskCancel
  by_cases hin : s.initialized = true
  · rw [if_neg (by simp [hin])]
    have hf : evschedGetTaskinfo s id = none → ∀ t ∈ s.tasklist, t.id ≠ id := by
      intro hn t ht heq
      exact find?_eq_none.mp hn t ht (decide_eq_true heq)
    split
    · rename_i tp hcu
      split_ifs with hid hn
      · exact .quieted tp (hid ▸ hc) hr hcu
      · rw [isNone_iff_eq_none] at hn
        refine .missed id hc hr (fun _ => hf hn) fun _ t ht => ?_
        rw [hcu, mem_some_iff] at ht
        exact ht ▸ Ne.symm hid
      · exact .marked id tp hc hr hcu hid
    · rename_i hcu
      cases hta : evschedTakeTaskinfo s id with
      | none =>
        refine .missed id hc hr (fun _ => hf (map_eq_none_iff.mp hta)) fun _ t ht => ?_
        rw [hcu] at ht
        exact absurd ht (by simp)
      | some p =>
        obtain ⟨tp, s'⟩ := p
        obtain ⟨hfi, rfl⟩ := evschedTakeTaskinfo_some hta
        exact .erased id hc hr hcu
  · rw [if_pos (by simp [hin])]
    exact .missed id hc hr (fun h => absurd h hin) fun h => absurd h hin

theorem apply_effect (s : Sched) (o : Op) : Effect s o (apply s o) := by
  cases o with
  | task func arg ms => exact evschedTask_effect s func arg ms
  | update id ms => exact evschedTaskUpdate_effect s id ms
  | cancel id => exact evschedTaskCancel_effect rfl rfl
  | cancelByFind func arg byFunc byArg =>
    simp only [apply, evschedTaskCancelByFind]
    split_ifs with hz
    · exact .idle rfl (by simp [cancelled, hz])
    · exact evschedTaskCancel_effect (by simp [cancelled, hz]) rfl
  | reschedule =>
    simp only [apply, evschedTaskReschedule]
    cases hc : s.current with
    | none => exact .idle (by simp [request, hc]) rfl
    | some tp => exact .asked tp tp.ms rfl (by simp [request, hc]) (by simp [rescheduled, hc]) hc
  | rescheduleMs ms =>
    simp only [apply, evschedTaskRescheduleMs]
    cases hc : s.current with
    | none => exact .idle (by simp [request, hc]) rfl
    | some tp => exact .asked tp ms rfl (by simp [request, hc]) (by simp [rescheduled, hc]) hc

theorem Effect.current (h : Effect s o s') : s'.current.isSome = s.current.isSome := by
  cases h with
  | inserted | renewed => simp
  | quieted tp _ _ hc | asked tp ms _ _ _ hc => rw [hc]; rfl
  | _ => rfl

theorem Effect.now (h : Effect s o s') : s'.now = s.now ∧ s'.aborted = s.aborted := by
  cases h with
  | inserted | renewed => simp
  | _ => exact ⟨rfl, rfl⟩

theorem Effect.ndel_le (h : Effect s o s') : s.ndel ≤ s'.ndel := by
  cases h with
  | inserted | renewed => simp
  | moved | erased => exact Nat.le_succ _
  | _ => exact le_refl _

def Top (s : Sched) : Prop := s.current = none ∧ s.pending = []

theorem Effect.top (h : Effect s o s') (ht : Top s) : Top s' := by
  obtain ⟨hc, hp⟩ := ht
  refine ⟨not_isSome_iff_eq_none.mp (by rw [h.current, hc]; simp), ?_⟩
  cases h with
  | queued _ _ _ _ _ hs | moved _ _ hs => simp [hc] at hs
  | inserted | renewed => simpa using hp
  | _ => exact hp

/-! ## From steps to runs -/

/-- What is kept by everything that can happen, outside of callbacks and, with the flag set, inside; and what then holds
whenever a function is called. -/
structure Rule (R : Bool → Sched → List Entry → Prop) (safe : Entry → Prop) (ok : List Entry → Nat → ℚ → Prop) :
    Prop where
  outside : ∀ {s l o}, R false s l → Top s → safe (.called s o) → R false (apply s o) (l ++ [.called s o])
  inside : ∀ {s l o}, R true s l → s.current.isSome = true → (apply s o).ndel = s.ndel → safe (.called s o) →
    R true (apply s o) (l ++ [.called s o])
  fired : ∀ {s l}, R false s l → Top s → safe (.fired s) → R true { s with timer := none } (l ++ [.fired s])
  due : ∀ {s l tp rest}, R true s l → s.current = none → s.tasklist = tp :: rest → tp.triggerTime ≤ s.now →
    tp.remove = false → ok l tp.id s.now ∧
      R true { s with tasklist := rest, ndel := s.ndel + 1, current := some tp } (l ++ [.ran tp.id s.now])
  marked : ∀ {s l tp rest}, R true s l → s.tasklist = tp :: rest → R true { s with tasklist := rest, ndel := s.ndel + 1 } l
  ended : ∀ {s l tp}, R true s l → s.current = some tp → R true (leave s tp) l
  removed : ∀ {s l} (n : Nat), R true s l → R true { s with tasklist := s.tasklist.filter (!·.remove), ndel := n } l
  inserted : ∀ {s l tp ps}, R true s l → s.current = none → s.pending = tp :: ps →
    R true (evschedTaskInsert { s with pending := ps } tp false) l
  finished : ∀ {s l} (timer : Option ℚ), R true s l → Top s → R false { s with timer := timer } l
  advanced : ∀ {s l d}, R false s l → Top s → 0 ≤ d → R false { s with now := s.now + d } l
  started : ∀ {s l}, R false s l → Top s → R false (evschedInit s) l
  stopped : ∀ {s l}, R false s l → Top s → R false (evschedCleanup s) l

def AllOk (ok : List Entry → Nat → ℚ → Prop) (l : List Entry) : Prop :=
  ∀ l₁ id time l₂, l = l₁ ++ .ran id time :: l₂ → ok l₁ id time

variable {ok : List Entry → Nat → ℚ → Prop}

theorem AllOk.append (h : AllOk ok l) {e : Entry} (he : ∀ id time, e = .ran id time → ok l id time) :
    AllOk ok (l ++ [e]) := by
  intro l₁ id time l₂ heq
  rcases eq_nil_or_concat l₂ with rfl | ⟨l₂, e', rfl⟩
  · obtain ⟨hl, he'⟩ := append_inj' heq rfl
    exact hl ▸ he id time (singleton_inj.mp he')
  · have hs : l ++ [e] = (l₁ ++ .ran id time :: l₂) ++ [e'] := by simpa using heq
    exact h l₁ id time l₂ (append_inj' hs rfl).1

/-! ## The past only grows -/

theorem calls_isPrefix (ops : List Op) (x : Trace) : x.2 <+: (ops.foldl Trace.call x).2 := by
  induction ops generalizing x with
  | nil => exact prefix_rfl
  | cons o ops ih => exact (prefix_append _ _).trans (ih (x.call o))

theorem calls_current (ops : List Op) (x : Trace) : (ops.foldl Trace.call x).1.current.isSome = x.1.current.isSome := by
  induction ops generalizing x with
  | nil => rfl
  | cons o ops ih => exact (ih (x.call o)).trans (apply_effect x.1 o).current

theorem runTask_eq (x : Trace) (tp : Task) (ops : List Op) :
    ∃ tp', (ops.foldl Trace.call (enter x tp)).1.current = some tp' ∧
      runTask x tp ops = (leave (ops.foldl Trace.call (enter x tp)).1 tp', (ops.foldl Trace.call (enter x tp)).2) := by
  obtain ⟨tp', htp⟩ := isSome_iff_exists.mp (calls_current ops (enter x tp))
  refine ⟨tp', htp, ?_⟩
  unfold runTask
  simp [htp]

theorem runTask_isPrefix (x : Trace) (tp : Task) (ops : List Op) : x.2 <+: (runTask x tp ops).2 := by
  obtain ⟨tp', -, heq⟩ := runTask_eq x tp ops
  rw [heq]
  exact (prefix_append x.2 _).trans (calls_isPrefix ops (enter x tp))

theorem runDue_isPrefix (fuel : Nat) (scripts : List (List Op)) (x : Trace) : x.2 <+: (runDue fuel scripts x).2 := by
  induction fuel generalizing scripts x with
  | zero => exact prefix_rfl
  | succ fuel ih =>
    rw [runDue]
    cases x.1.tasklist with
    | nil => exact prefix_rfl
    | cons tp rest =>
      simp only
      split_ifs
      · exact prefix_rfl
      · exact ih scripts (removeHead x rest)
      · exact (runTask_isPrefix (removeHead x rest) tp _).trans (ih _ _)
      · exact runTask_isPrefix (removeHead x rest) tp _

theorem callback_log (x : Trace) (scripts : List (List Op)) : (evschedTimerCallback x scripts).2 =
    (runDue x.1.tasklist.length scripts ({ x.1 with timer := none }, x.2 ++ [.fired x.1])).2 := by
  unfold evschedTimerCallback
  simp only
  split_ifs <;> rfl

theorem callback_isPrefix (x : Trace) (scripts : List (List Op)) :
    x.2 ++ [.fired x.1] <+: (evschedTimerCallback x scripts).2 := by
  rw [callback_log]
  exact runDue_isPrefix _ scripts ({ x.1 with timer := none }, x.2 ++ [.fired x.1])

theorem step_isPrefix (x : Trace) (st : Step) : x.2 <+: (step x st).2 := by
  cases st with
  | init | cleanup => exact prefix_rfl
  | advance d =>
    simp only [step]
    split_ifs <;> exact prefix_rfl
  | fire scripts =>
    simp only [step]
    split_ifs
    · exact (prefix_append _ _).trans (callback_isPrefix x scripts)
    · exact prefix_rfl
  | call o => exact prefix_append _ _

theorem run_isPrefix (x : Trace) (steps : List Step) : x.2 <+: (run x steps).2 := by
  induction steps generalizing x with
  | nil => exact prefix_rfl
  | cons st steps ih =>
    rw [run]
    split_ifs
    · exact prefix_rfl
    · exact (step_isPrefix x st).trans (ih (step x st))

/-! ## The rule for runs -/

theorem AllOk.calls {ops : List Op} (ha : AllOk ok x.2) : AllOk ok (ops.foldl Trace.call x).2 := by
  induction ops generalizing x with
  | nil => exact ha
  | cons o ops ih => exact ih (ha.append (fun _ _ he => nomatch he))

theorem evschedTaskInsert_pending (s : Sched) (ps : List Task) (tp : Task) (restart : Bool) :
    evschedTaskInsert { s with pending := ps } tp restart = { evschedTaskInsert s tp restart with pending := ps } := by
  unfold evschedTaskInsert evschedResetTimer
  simp only
  split_ifs <;> rfl

section Rules

variable {R : Bool → Sched → List Entry → Prop} {safe : Entry → Prop} (h : Rule R safe ok)

include h

variable {x : Trace}

theorem Rule.calls {ops : List Op} (hR : R true x.1 x.2) (hc : x.1.current.isSome = true)
    (hn : (ops.foldl Trace.call x).1.ndel = x.1.ndel) (hs : ∀ e ∈ (ops.foldl Trace.call x).2, safe e) :
    R true (ops.foldl Trace.call x).1 (ops.foldl Trace.call x).2 := by
  have hm : ∀ (ops : List Op) (x : Trace), x.1.ndel ≤ (ops.foldl Trace.call x).1.ndel := by
    intro ops
    induction ops with
    | nil => exact fun _ => le_refl _
    | cons o ops ih => exact fun x => (apply_effect x.1 o).ndel_le.trans (ih (x.call o))
  induction ops generalizing x with
  | nil => exact hR
  | cons o ops ih =>
    rw [foldl_cons] at hn hs ⊢
    have hle := (apply_effect x.1 o).ndel_le
    have hle' : (apply x.1 o).ndel ≤ (ops.foldl Trace.call (x.call o)).1.ndel := hm ops (x.call o)
    have hsa : (apply x.1 o).ndel = x.1.ndel := by omega
    have hen : safe (.called x.1 o) := hs _ ((calls_isPrefix ops (x.call o)).subset (by simp [Trace.call]))
    exact ih (h.inside hR hc hsa hen) ((apply_effect x.1 o).current.trans hc) (hn.trans hsa.symm) hs

variable {scripts : List (List Op)}

theorem Rule.walked {fuel : Nat} (hR : R true x.1 x.2)
    (hc : x.1.current = none) (ha : AllOk ok x.2) (hs : ∀ e ∈ (runDue fuel scripts x).2, safe e) :
    AllOk ok (runDue fuel scripts x).2 ∧ ((runDue fuel scripts x).1.aborted = false →
      R true (runDue fuel scripts x).1 (runDue fuel scripts x).2 ∧ (runDue fuel scripts x).1.current = none) := by
  induction fuel generalizing scripts x with
  | zero => exact ⟨ha, fun _ => ⟨hR, hc⟩⟩
  | succ fuel ih =>
    rw [runDue] at hs ⊢
    cases hl : x.1.tasklist with
    | nil => exact ⟨ha, fun _ => ⟨hR, hc⟩⟩
    | cons tp rest =>
      simp only [hl] at hs ⊢
      by_cases hd : tp.triggerTime > x.1.now
      · rw [if_pos hd]
        exact ⟨ha, fun _ => ⟨hR, hc⟩⟩
      rw [if_neg hd] at hs ⊢
      cases hr : tp.remove with
      | true =>
        simp only [hr, if_true] at hs ⊢
        exact ih (h.marked hR hl) hc ha hs
      | false =>
        simp only [hr, Bool.false_eq_true, if_false] at hs ⊢
        obtain ⟨hok, hen⟩ := h.due hR hc hl (not_lt.mp hd) hr
        have ha' : AllOk ok (enter (removeHead x rest) tp).2 :=
          ha.append fun id time he => by obtain ⟨rfl, rfl⟩ := Entry.ran.inj he; exact hok
        obtain ⟨tp', htp, ht⟩ := runTask_eq (removeHead x rest) tp (scripts.headD [])
        rw [ht] at hs ⊢
        by_cases hn : (leave ((scripts.headD []).foldl Trace.call (enter (removeHead x rest) tp)).1 tp').ndel =
            (removeHead x rest).1.ndel
        · rw [if_pos hn] at hs ⊢
          have hca := h.calls (x := enter (removeHead x rest) tp) hen rfl hn
            fun e he => hs e ((runDue_isPrefix fuel scripts.tail _).subset he)
          exact ih (h.ended hca htp) rfl (AllOk.calls ha') hs
        · rw [if_neg hn]
          exact ⟨AllOk.calls ha', nofun⟩

theorem Rule.insertAll {ps : List Task} (hR : R true { s with pending := ps } l) (hc : s.current = none) :
    R true (ps.foldl (fun s tp => evschedTaskInsert s tp false) { s with pending := [] }) l ∧
      Top (ps.foldl (fun s tp => evschedTaskInsert s tp false) { s with pending := [] }) := by
  induction ps generalizing s with
  | nil => exact ⟨hR, hc, rfl⟩
  | cons tp ps ih =>
    have hs := h.inserted hR hc rfl
    rw [foldl_cons, evschedTaskInsert_pending]
    apply ih
    · have heq := evschedTaskInsert_pending s ps tp false
      exact heq ▸ hs
    · simpa using hc

theorem Rule.refilled (hR : R true s l) (hc : s.current = none) : R false (finish s) l ∧ Top (finish s) := by
  have hr := h.removed (s.ndel + (s.tasklist.filter (·.remove)).length) hR
  obtain ⟨hin, ht⟩ := h.insertAll (s := { s with
    tasklist := s.tasklist.filter (!·.remove)
    ndel := s.ndel + (s.tasklist.filter (·.remove)).length }) hr hc
  unfold finish
  simp only
  split <;> exact ⟨h.finished _ hin ht, ht⟩

variable (hR : R false x.1 x.2)
include hR

theorem Rule.callback (ht : Top x.1) (hal : AllOk ok x.2) (hs : ∀ e ∈ (evschedTimerCallback x scripts).2, safe e) :
    AllOk ok (evschedTimerCallback x scripts).2 ∧ ((evschedTimerCallback x scripts).1.aborted = false →
      R false (evschedTimerCallback x scripts).1 (evschedTimerCallback x scripts).2 ∧
        Top (evschedTimerCallback x scripts).1) := by
  have hf : safe (.fired x.1) := hs _ ((callback_isPrefix x scripts).subset (by simp))
  rw [callback_log] at hs
  obtain ⟨ha', hd⟩ := h.walked (x := ({ x.1 with timer := none }, x.2 ++ [.fired x.1])) (h.fired hR ht hf)
    ht.1 (hal.append fun _ _ he => nomatch he) hs
  rw [callback_log]
  refine ⟨ha', fun ha => ?_⟩
  unfold evschedTimerCallback at ha ⊢
  simp only at ha ⊢
  split_ifs at ha ⊢ with hb
  · rw [hb] at ha
    cases ha
  · obtain ⟨hR', hc⟩ := hd (Bool.not_eq_true _ ▸ hb : _ = false)
    exact h.refilled hR' hc

theorem Rule.stepped {st : Step} (ht : Top x.1) (ha : AllOk ok x.2) (hs : ∀ e ∈ (step x st).2, safe e) :
    AllOk ok (step x st).2 ∧ ((step x st).1.aborted = false →
      R false (step x st).1 (step x st).2 ∧ Top (step x st).1) := by
  cases st with
  | init =>
    refine ⟨ha, fun _ => ⟨h.started hR ht, ?_⟩⟩
    simp only [step, evschedInit]
    split_ifs
    · exact ht
    · exact ⟨rfl, rfl⟩
  | cleanup =>
    refine ⟨ha, fun _ => ⟨h.stopped hR ht, ?_⟩⟩
    simp only [step, evschedCleanup]
    split_ifs <;> exact ht
  | advance d =>
    simp only [step]
    split_ifs with hd
    · exact ⟨ha, fun _ => ⟨h.advanced hR ht hd, ht⟩⟩
    · exact ⟨ha, fun _ => ⟨hR, ht⟩⟩
  | fire scripts =>
    simp only [step] at hs ⊢
    split_ifs at hs ⊢
    · exact h.callback hR ht ha hs
    · exact ⟨ha, fun _ => ⟨hR, ht⟩⟩
  | call o =>
    have hen : safe (.called x.1 o) := hs _ (by simp [step, Trace.call])
    refine ⟨ha.append (fun _ _ he => nomatch he), fun _ => ?_⟩
    exact ⟨h.outside hR ht hen, (apply_effect x.1 o).top ht⟩

theorem Rule.ran {steps : List Step} (ht : Top x.1) (hal : AllOk ok x.2)
    (hs : ∀ e ∈ (run x steps).2, safe e) : AllOk ok (run x steps).2 := by
  induction steps generalizing x with
  | nil => exact hal
  | cons st steps ih =>
    rw [run] at hs ⊢
    split_ifs at hs ⊢
    · exact hal
    obtain ⟨ha', hn⟩ := h.stepped hR ht hal fun e he => hs e ((run_isPrefix _ steps).subset he)
    cases ha : (step x st).1.aborted with
    | true =>
      have hst : run (step x st) steps = step x st := by
        cases steps with
        | nil => rfl
        | cons st' steps => rw [run, if_pos ha]
      rw [hst]
      exact ha'
    | false =>
      obtain ⟨hR', ht'⟩ := hn ha
      exact ih hR' ht' ha' hs

end Rules

end OpenSync.Evsched
