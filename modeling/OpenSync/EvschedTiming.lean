import OpenSync.EvschedShape

/-!
# Delays

A task is called no earlier than the delay last requested for it. What an insertion takes for a jump of the clock may be
a task that has simply waited for more than a day, so this holds as long as the tasks that old are due already.
-/

namespace OpenSync.Evsched
open List Option

variable {s : Sched} {l : List Entry} {id : Nat} {busy : Bool}

/-- The time and the delay of the last request for a task. -/
def requestAfter (id : Nat) (r : Option (ℚ × Nat)) : Entry → Option (ℚ × Nat)
  | .called s o =>
    match request s o with
    | some (id', ms) => if id' = id then some (s.now, ms) else r
    | none => r
  | _ => r

def lastRequest (l : List Entry) (id : Nat) : Option (ℚ × Nat) := l.foldl (requestAfter id) none

def requestedTime (r : ℚ × Nat) : ℚ := r.1 + r.2 / 1000

theorem lastRequest_append (l : List Entry) (e : Entry) :
    lastRequest (l ++ [e]) id = requestAfter id (lastRequest l id) e := by
  rw [lastRequest, foldl_append]
  rfl

variable {o : Op} {ms : Nat}

theorem lastRequest_new (h : request s o = some (id, ms)) : lastRequest (l ++ [.called s o]) id = some (s.now, ms) := by
  simp [lastRequest_append, requestAfter, h]

theorem lastRequest_other (h : ∀ ms, request s o ≠ some (id, ms)) :
    lastRequest (l ++ [.called s o]) id = lastRequest l id := by
  rw [lastRequest_append, requestAfter]
  split
  · rename_i id' ms hr
    exact if_neg fun hid : id' = id => h ms (hid ▸ hr)
  · rfl

/-- A task that was scheduled more than a day ago is due. -/
def Fresh (s : Sched) : Prop := ∀ t ∈ s.tasklist, timeJumpThreshold < s.now - t.schedTime → t.triggerTime ≤ s.now

instance (s : Sched) : Decidable (Fresh s) := inferInstanceAs (Decidable (∀ t ∈ s.tasklist, _))

/-- Whatever inserts into the list finds no task that has waited for more than a day and is not due. -/
def DelaySafe : Entry → Prop
  | .called s (.task func arg ms) => IdSafe s (.task func arg ms) ∧ (s.current = none → Fresh s)
  | .called s (.update _ _) => s.current = none → Fresh s
  | .fired s => Fresh s
  | _ => True

instance : DecidablePred DelaySafe
  | .called s (.task func arg ms) =>
    inferInstanceAs (Decidable (IdSafe s (.task func arg ms) ∧ (s.current = none → Fresh s)))
  | .called s (.update _ _) => inferInstanceAs (Decidable (s.current = none → Fresh s))
  | .called _ (.cancel _) => isTrue trivial
  | .called _ (.cancelByFind ..) => isTrue trivial
  | .called _ .reschedule => isTrue trivial
  | .called _ (.rescheduleMs _) => isTrue trivial
  | .fired s => inferInstanceAs (Decidable (Fresh s))
  | .ran .. => isTrue trivial

theorem DelaySafe.idSafe (h : DelaySafe (.called s o)) : IdSafe s o := by
  intro func arg ms ho
  subst ho
  exact h.1 func arg ms rfl

/-! ## Operations -/

/-- A task with no request after the one that its trigger time was computed from. -/
def Requested (l : List Entry) (id : Nat) (time : ℚ) : Prop := ∃ r, lastRequest l id = some r ∧ requestedTime r ≤ time

structure Timed (busy : Bool) (s : Sched) (l : List Entry) : Prop where
  shape : Shape s
  tasklist : ∀ t ∈ s.tasklist, t.resched = false ∧ Requested l t.id t.triggerTime
  pending : ∀ t ∈ s.pending, t.schedTime = s.now ∧ Requested l t.id (t.schedTime + t.ms / 1000)
  current : ∀ t ∈ s.current, t.resched = true → lastRequest l t.id = some (s.now, t.ms)
  fresh : busy = true → Fresh s

variable {tp : Task}

theorem Requested.inserted {restart : Bool} (hf : Fresh s) (hn : tp.schedTime = s.now)
    (hl : ∀ t ∈ s.tasklist, t.resched = false ∧ Requested l t.id t.triggerTime)
    (htp : Requested l tp.id (tp.schedTime + tp.ms / 1000)) :
    ∀ t ∈ (evschedTaskInsert s tp restart).tasklist, t.resched = false ∧ Requested l t.id t.triggerTime := by
  intro t ht
  rcases mem_evschedTaskInsert ht with rfl | ht | ⟨t', ht', ho, rfl⟩
  · exact ⟨rfl, htp⟩
  · exact hl t ht
  · obtain ⟨hre, r, hr, hle⟩ := hl t' ht'
    rw [hn] at ho ⊢
    exact ⟨hre, r, hr, hle.trans (hf t' ht' ho)⟩

theorem Fresh.inserted {restart : Bool} (hf : Fresh s) (hn : tp.schedTime = s.now) :
    Fresh (evschedTaskInsert s tp restart) := by
  have hth : (0 : ℚ) < timeJumpThreshold := by norm_num [timeJumpThreshold]
  intro t ht ho
  simp only [evschedTaskInsert_fields] at ho ⊢
  rcases mem_evschedTaskInsert ht with rfl | ht | ⟨t', ht', -, rfl⟩
  · simp only [hn, sub_self] at ho
    exact absurd ho hth.not_gt
  · exact hf t ht ho
  · simp only [hn, sub_self] at ho
    exact absurd ho hth.not_gt

theorem Requested.kept {time : ℚ} (h : Requested l id time) (ho : ∀ ms, request s o ≠ some (id, ms)) :
    Requested (l ++ [.called s o]) id time := by
  obtain ⟨r, hr, hle⟩ := h
  exact ⟨r, (lastRequest_other ho).trans hr, hle⟩

theorem Requested.new {time : ℚ} (h : request s o = some (id, ms)) (hle : s.now + ms / 1000 ≤ time) :
    Requested (l ++ [.called s o]) id time := ⟨(s.now, ms), lastRequest_new h, hle⟩

variable {s' : Sched}

theorem Timed.unrequested (h : Timed busy s l) (hs : Shape s') (hre : request s o = none)
    (hta : ∀ t ∈ s'.tasklist, ∃ t' ∈ s.tasklist, t.id = t'.id ∧ t.resched = t'.resched ∧
      t.triggerTime = t'.triggerTime ∧ t.schedTime = t'.schedTime) (hp : s'.pending = s.pending) (hn : s'.now = s.now)
    (hc : ∀ t ∈ s'.current, t.resched = true → t ∈ s.current) : Timed busy s' (l ++ [.called s o]) := by
  have ho : ∀ id ms, request s o ≠ some (id, ms) := by simp [hre]
  refine ⟨hs, ?_, ?_, ?_, ?_⟩
  · intro t ht
    obtain ⟨t', ht', hid, hr, htr, -⟩ := hta t ht
    rw [hid, hr, htr]
    exact ⟨(h.tasklist t' ht').1, (h.tasklist t' ht').2.kept (ho _)⟩
  · intro t ht
    rw [hp] at ht
    rw [hn]
    exact ⟨(h.pending t ht).1, (h.pending t ht).2.kept (ho _)⟩
  · intro t ht hr
    rw [lastRequest_other (ho _), hn]
    exact h.current t (hc t ht hr) hr
  · intro hb t ht hol
    obtain ⟨t', ht', -, -, htr, hsc⟩ := hta t ht
    rw [hn] at hol ⊢
    rw [htr]
    exact h.fresh hb t' ht' (hsc ▸ hol)

theorem Timed.queued {func arg ms : Nat} (h : Timed busy s l) (ho : o = .task func arg ms) (hin : s.initialized = true)
    (hs : Shape { s with taskId := (s.taskId + 1) % 2 ^ 32, pending := s.pending ++ [newTask s func arg ms] }) :
    Timed busy { s with taskId := (s.taskId + 1) % 2 ^ 32, pending := s.pending ++ [newTask s func arg ms] }
      (l ++ [.called s o]) := by
  have hr : request s o = some (s.taskId, ms) := by simp [ho, request, hin]
  have hot : ∀ t ∈ live s, ∀ ms, request s o ≠ some (t.id, ms) := by
    intro t ht ms' heq
    rw [hr, some.injEq, Prod.mk.injEq] at heq
    exact absurd heq.1 (h.shape.below _ (mem_map_of_mem ht)).ne'
  refine ⟨hs, ?_, ?_, ?_, h.fresh⟩
  · intro t ht
    exact ⟨(h.tasklist t ht).1, (h.tasklist t ht).2.kept (hot t (mem_live.mpr (.inr (.inl ht))))⟩
  · intro t ht
    rcases mem_append.mp ht with ht | ht
    · exact ⟨(h.pending t ht).1, (h.pending t ht).2.kept (hot t (mem_live.mpr (.inr (.inr ht))))⟩
    · rw [mem_singleton.mp ht]
      exact ⟨rfl, .new hr (le_refl _)⟩
  · intro t ht hre
    rw [lastRequest_other (hot t (mem_live.mpr (.inl ht)))]
    exact h.current t ht hre

theorem Timed.insertedTop (h : Timed false s l)
    (hf : Fresh s) (hr : request s o = some (tp.id, tp.ms)) (hs : tp.schedTime = s.now)
    (hsu : ∀ t ∈ s'.tasklist, t ∈ s.tasklist ∧ t.id ≠ tp.id) (hn : s'.now = s.now) (ht' : Top s')
    (hsh : Shape (evschedTaskInsert s' tp true)) : Timed false (evschedTaskInsert s' tp true) (l ++ [.called s o]) := by
  refine ⟨hsh, ?_, ?_, ?_, nofun⟩
  · refine Requested.inserted ?_ (hs.trans hn.symm) ?_ (.new hr (hs ▸ le_refl _))
    · intro t ht ho
      rw [hn] at ho ⊢
      exact hf t (hsu t ht).1 ho
    · intro t ht
      obtain ⟨hm, hne⟩ := hsu t ht
      refine ⟨(h.tasklist t hm).1, (h.tasklist t hm).2.kept fun ms heq => hne ?_⟩
      rw [hr, some.injEq, Prod.mk.injEq] at heq
      exact heq.1.symm
  · simp [ht'.2]
  · simp [ht'.1]

theorem Timed.asked (h : Timed busy s l) (hc : s.current = some tp) (hr : request s o = some (tp.id, ms))
    (hs : Shape { s with current := some { tp with resched := true, ms := ms } }) :
    Timed busy { s with current := some { tp with resched := true, ms := ms } } (l ++ [.called s o]) := by
  have ho : ∀ t, t ∈ s.tasklist ∨ t ∈ s.pending → ∀ ms, request s o ≠ some (t.id, ms) := by
    intro t ht ms' heq
    rw [hr, some.injEq, Prod.mk.injEq] at heq
    exact h.shape.current_ne hc ht heq.1.symm
  refine ⟨hs, ?_, ?_, ?_, h.fresh⟩
  · exact fun t ht => ⟨(h.tasklist t ht).1, (h.tasklist t ht).2.kept (ho t (.inl ht))⟩
  · exact fun t ht => ⟨(h.pending t ht).1, (h.pending t ht).2.kept (ho t (.inr ht))⟩
  · intro t ht hre
    rw [mem_some_iff] at ht
    subst ht
    exact lastRequest_new hr

theorem Timed.effect (h : Timed busy s l) (he : Effect s o s')
    (hn : s.current = none ∨ s'.ndel = s.ndel) (hsaf : DelaySafe (.called s o))
    (hto : s.current = none → busy = false ∧ s.pending = []) : Timed busy s' (l ++ [.called s o]) := by
  have hs := h.shape.effect he hn hsaf.idSafe
  have hsa : ∀ ts : List Task, (∀ t ∈ ts, t ∈ s.tasklist) → ∀ t ∈ ts, ∃ t' ∈ s.tasklist, t.id = t'.id ∧
      t.resched = t'.resched ∧ t.triggerTime = t'.triggerTime ∧ t.schedTime = t'.schedTime :=
    fun ts hsu t ht => ⟨t, hsu t ht, rfl, rfl, rfl, rfl⟩
  cases he with
  | idle hr => exact h.unrequested hs hr (hsa _ fun _ ht => ht) rfl rfl fun _ ht _ => ht
  | missed _ _ hr => exact h.unrequested hs hr (hsa _ fun _ ht => ht) rfl rfl fun _ ht _ => ht
  | queued func arg ms ho hin hc => exact h.queued ho hin hs
  | inserted func arg ms ho hin hc =>
    obtain ⟨rfl, hp⟩ := hto hc
    subst ho
    refine h.insertedTop (hsaf.2 hc) (by simp [request, hin, newTask]) rfl ?_ rfl ⟨hc, hp⟩ hs
    exact fun t ht => ⟨ht, (h.shape.below _ (mem_map_of_mem (mem_live.mpr (.inr (.inl ht))))).ne⟩
  | renewed id ms tp ho hr hc hf =>
    obtain ⟨rfl, hp⟩ := hto hc
    have hfo : hasId id tp = true := find?_some hf
    have hid : tp.id = id := of_decide_eq_true hfo
    subst ho
    refine h.insertedTop (hsaf hc) (hid ▸ hr) rfl ?_ rfl ⟨hc, hp⟩ hs
    exact fun t ht => ⟨mem_of_mem_eraseP ht, hid ▸ eraseP_ne h.shape.tasklist_nodup ht⟩
  | moved id tp hc => exact (not_moved hc hn).elim
  | quieted tp _ hr hc =>
    refine h.unrequested hs hr (hsa _ fun _ ht => ht) rfl rfl fun t ht hre => ?_
    rw [mem_some_iff] at ht
    simp [← ht] at hre
  | marked id tp _ hr _ _ =>
    refine h.unrequested hs hr (fun t ht => ?_) rfl rfl fun _ ht _ => ht
    rcases mem_markRemove ht with ht | ⟨t', ht', -, rfl⟩
    · exact hsa _ (fun _ ht => ht) t ht
    · exact ⟨t', ht', rfl, rfl, rfl, rfl⟩
  | erased id _ hr _ =>
    exact h.unrequested hs hr (hsa _ fun _ ht => mem_of_mem_eraseP ht) rfl rfl fun _ ht _ => ht
  | asked tp ms _ hr _ hc => exact h.asked hc hr hs

/-! ## The rule -/

theorem Timed.mono (h : Timed true s l) (hs : Shape s')
    (hta : ∀ t ∈ s'.tasklist, t ∈ s.tasklist) (hp : ∀ t ∈ s'.pending, t ∈ s.pending)
    (hc : ∀ t ∈ s'.current, t ∈ s.current) (hn : s'.now = s.now) : Timed true s' l := by
  refine ⟨hs, fun t ht => h.tasklist t (hta t ht), ?_, ?_, ?_⟩
  · rw [hn]
    exact fun t ht => h.pending t (hp t ht)
  · rw [hn]
    exact fun t ht => h.current t (hc t ht)
  · intro _ t ht ho
    rw [hn] at ho ⊢
    exact h.fresh rfl t (hta t ht) ho

theorem Timed.monoTop (h : Timed busy s l) (hs : Shape s')
    (hta : ∀ t ∈ s'.tasklist, t ∈ s.tasklist) (hto : Top s') : Timed false s' l := by
  refine ⟨hs, fun t ht => h.tasklist t (hta t ht), ?_, ?_, nofun⟩
  · rw [hto.2]
    exact fun t ht => absurd ht not_mem_nil
  · rw [hto.1]
    exact fun t ht => nomatch ht

theorem lastRequest_skip {e : Entry} (he : ∀ s o, e ≠ .called s o) : lastRequest (l ++ [e]) id = lastRequest l id := by
  rw [lastRequest_append]
  cases e with
  | called s o => exact absurd rfl (he s o)
  | fired | ran => rfl

theorem Timed.skip {e : Entry} (h : Timed busy s l) (he : ∀ s o, e ≠ .called s o) : Timed busy s (l ++ [e]) := by
  have hs : ∀ id, lastRequest (l ++ [e]) id = lastRequest l id := fun id => lastRequest_skip he
  refine ⟨h.shape, ?_, ?_, ?_, h.fresh⟩
  · simpa only [Requested, hs] using h.tasklist
  · simpa only [Requested, hs] using h.pending
  · simpa only [hs] using h.current

theorem Timed.due {rest : List Task} (h : Timed true s l) (hc : s.current = none) (hl : s.tasklist = tp :: rest) :
    Timed true { s with tasklist := rest, ndel := s.ndel + 1, current := some tp } l := by
  have hs : ∀ t ∈ rest, t ∈ s.tasklist := fun t ht => hl ▸ mem_cons_of_mem _ ht
  have htp := (h.tasklist tp (by simp [hl])).1
  refine ⟨h.shape.due hc hl, fun t ht => h.tasklist t (hs t ht), h.pending, ?_, fun _ t ht => h.fresh rfl t (hs t ht)⟩
  intro t ht hr
  rw [mem_some_iff] at ht
  simp [← ht, htp] at hr

theorem Timed.leave (h : Timed true s l) (hc : s.current = some tp) : Timed true (leave s tp) l := by
  refine ⟨h.shape.leave hc, h.tasklist, ?_, (fun t ht => nomatch ht), h.fresh⟩
  intro t ht
  simp only [Evsched.leave] at ht ⊢
  split_ifs at ht with hr
  · rcases mem_append.mp ht with ht | ht
    · exact h.pending t ht
    · rw [mem_singleton.mp ht]
      exact ⟨rfl, (s.now, tp.ms), h.current tp hc hr, le_refl _⟩
  · exact h.pending t ht

theorem Timed.inserted {ps : List Task} (h : Timed true s l) (hp : s.pending = tp :: ps) :
    Timed true (evschedTaskInsert { s with pending := ps } tp false) l := by
  obtain ⟨hn, hr⟩ := h.pending tp (by simp [hp])
  refine ⟨h.shape.insertedPending hp, ?_, ?_, ?_, fun _ => Fresh.inserted (h.fresh rfl) hn⟩
  · exact Requested.inserted (h.fresh rfl) hn h.tasklist hr
  · simpa using fun t ht => h.pending t (hp ▸ mem_cons_of_mem _ ht)
  · simpa using h.current

theorem timed_rule : Rule Timed DelaySafe Requested where
  outside h hto hs := h.effect (apply_effect _ _) (.inl hto.1) hs fun _ => ⟨rfl, hto.2⟩
  inside h hc hn hs := h.effect (apply_effect _ _) (.inr hn) hs fun hno => by simp [hno] at hc
  fired h hto hs := by
    refine Timed.skip ⟨⟨h.shape.nodup, h.shape.below, h.shape.unset⟩, h.tasklist, h.pending, h.current, ?_⟩ ?_
    · exact fun _ => hs
    · exact fun s o he => nomatch he
  due h hc hl hd _ := by
    obtain ⟨r, hr, hle⟩ := (h.tasklist _ (hl ▸ mem_cons_self)).2
    exact ⟨⟨r, hr, hle.trans hd⟩, (h.due hc hl).skip fun s o he => nomatch he⟩
  marked h hl := h.mono (h.shape.head hl) (fun _ ht => hl ▸ mem_cons_of_mem _ ht) (fun _ ht => ht) (fun _ ht => ht) rfl
  ended h hc := h.leave hc
  removed n h := h.mono (h.shape.removed n) (fun _ ht => (mem_filter.mp ht).1) (fun _ ht => ht) (fun _ ht => ht) rfl
  inserted h _ hp := h.inserted hp
  finished timer h hto := h.monoTop ⟨h.shape.nodup, h.shape.below, h.shape.unset⟩ (fun _ ht => ht) hto
  advanced h hto _ := h.monoTop ⟨h.shape.nodup, h.shape.below, h.shape.unset⟩ (fun _ ht => ht) hto
  started h hto := h.monoTop h.shape.init evschedInit_sub.1 (evschedInit_sub.2 hto)
  stopped h hto := h.monoTop (h.shape.cleanup hto) evschedCleanup_sub.1 (evschedCleanup_sub.2 hto)

/-! ## Whole runs -/

theorem timed_start : Timed false start [] := by
  refine ⟨⟨by decide, by decide, fun _ => rfl⟩, ?_, ?_, ?_, nofun⟩
  · exact fun t ht => absurd ht not_mem_nil
  · exact fun t ht => absurd ht not_mem_nil
  · exact fun t ht => nomatch ht

/-- Every call of a task's function comes after a request, and not before the delay that the last one asked for. -/
theorem called_after_delay (steps : List Step) (hsafe : ∀ e ∈ (run (start, []) steps).2, DelaySafe e)
    {id : Nat} {time : ℚ} {l₁ l₂ : List Entry} (hlog : (run (start, []) steps).2 = l₁ ++ .ran id time :: l₂) :
    ∃ r, lastRequest l₁ id = some r ∧ requestedTime r ≤ time :=
  timed_rule.ran (x := (start, [])) timed_start ⟨rfl, rfl⟩ (fun _ _ _ _ h => by simp at h) hsafe l₁ id time l₂ hlog

def delayed : List Step :=
  [.init, .call (.task 1 0 0), .fire [[.rescheduleMs 5000]], .advance 5, .call (.task 2 0 0), .fire []]

theorem delayed_task_waits : ∃ r, lastRequest ((run (start, []) delayed).2.take 6) 1 = some r ∧ requestedTime r ≤ 5 :=
  called_after_delay delayed (by decide +kernel)
    (show (run (start, []) delayed).2 = (run (start, []) delayed).2.take 6 ++ .ran 1 5 :: [.ran 2 5] by decide +kernel)

/-- A task two days ahead, and another one to be run at once a day later. -/
def longDelay : List Step := [.init, .call (.task 1 0 172800000), .advance 86401, .call (.task 2 0 0), .fire []]

theorem long_delay_cut_short :
    ∃ l₁ l₂, (run (start, []) longDelay).2 = l₁ ++ .ran 1 86401 :: l₂ ∧ lastRequest l₁ 1 = some (0, 172800000) ∧
      ¬ requestedTime (0, 172800000) ≤ 86401 := by
  refine ⟨(run (start, []) longDelay).2.take 3, [.ran 2 86401], ?_, ?_, ?_⟩ <;> decide +kernel

end OpenSync.Evsched
