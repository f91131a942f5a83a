import Mathlib.Data.List.Perm.Subperm
import OpenSync.EvschedRun

/-!
# The tasks of the scheduler

Wherever a task is, in the list, waiting or running, no other one has its identifier, as long as the counter of
identifiers has not come round.
-/

namespace OpenSync.Evsched
open List

variable {s : Sched} {l : List Entry}

def live (s : Sched) : List Task := s.current.toList ++ (s.tasklist ++ s.pending)

def ids (s : Sched) : List Nat := (live s).map Task.id

variable {t : Task}

theorem mem_live : t ∈ live s ↔ t ∈ s.current ∨ t ∈ s.tasklist ∨ t ∈ s.pending := by
  simp [live, Option.mem_def]

/-! ## Lists of tasks -/

theorem fixTimeJump_ids (time : ℚ) (ts : List Task) : (fixTimeJump time ts).map Task.id = ts.map Task.id := by
  induction ts with
  | nil => rfl
  | cons t ts ih =>
    rw [fixTimeJump]
    split_ifs
    · rw [map_cons, map_cons, ih]
    · rfl

variable {ts : List Task}

theorem mem_fixTimeJump {time : ℚ} (h : t ∈ fixTimeJump time ts) :
    t ∈ ts ∨ ∃ t' ∈ ts, time - t'.schedTime > timeJumpThreshold ∧
      t = { t' with schedTime := time, triggerTime := time } := by
  induction ts with
  | nil => simp [fixTimeJump] at h
  | cons t' ts ih =>
    rw [fixTimeJump] at h
    split_ifs at h with ho
    · rcases mem_cons.mp h with rfl | h
      · exact .inr ⟨t', mem_cons_self, ho, rfl⟩
      · rcases ih h with h | ⟨t'', ht'', ho', rfl⟩
        · exact .inl (mem_cons_of_mem _ h)
        · exact .inr ⟨t'', mem_cons_of_mem _ ht'', ho', rfl⟩
    · exact .inl h

theorem insertTask_perm (t : Task) (ts : List Task) : (insertTask t ts).Perm (t :: ts) := by
  induction ts with
  | nil => exact Perm.refl _
  | cons t' ts ih =>
    rw [insertTask]
    split_ifs
    · exact Perm.refl _
    · exact (ih.cons t').trans (Perm.swap t t' ts)

variable {id : Nat}

theorem mem_markRemove (h : t ∈ markRemove id ts) :
    t ∈ ts ∨ ∃ t' ∈ ts, t'.id = id ∧ t = { t' with remove := true } := by
  induction ts with
  | nil => simp [markRemove] at h
  | cons t' ts ih =>
    rw [markRemove] at h
    split_ifs at h with hid
    · rcases mem_cons.mp h with rfl | h
      · exact .inr ⟨t', mem_cons_self, of_decide_eq_true hid, rfl⟩
      · exact .inl (mem_cons_of_mem _ h)
    · rcases mem_cons.mp h with rfl | h
      · exact .inl mem_cons_self
      · rcases ih h with h | ⟨t'', ht'', hid', rfl⟩
        · exact .inl (mem_cons_of_mem _ h)
        · exact .inr ⟨t'', mem_cons_of_mem _ ht'', hid', rfl⟩

theorem markRemove_ids (id : Nat) (ts : List Task) : (markRemove id ts).map Task.id = ts.map Task.id := by
  induction ts with
  | nil => rfl
  | cons t ts ih =>
    rw [markRemove]
    split_ifs
    · rfl
    · rw [map_cons, map_cons, ih]

theorem evschedTaskInsert_ids (s : Sched) (tp : Task) (restart : Bool) :
    ((evschedTaskInsert s tp restart).tasklist.map Task.id).Perm (tp.id :: s.tasklist.map Task.id) := by
  rw [evschedTaskInsert_tasklist]
  have hp := (insertTask_perm { tp with triggerTime := tp.schedTime + tp.ms / 1000, resched := false }
    (fixTimeJump tp.schedTime s.tasklist)).map Task.id
  rwa [map_cons, fixTimeJump_ids] at hp

theorem not_moved (hc : s.current.isSome = true) (hn : s.current = none ∨ s.ndel + 1 = s.ndel) : False := by
  rcases hn with hno | hn
  · simp [hno] at hc
  · exact Nat.succ_ne_self _ hn

theorem mem_evschedTaskInsert {tp t : Task} {restart : Bool} (h : t ∈ (evschedTaskInsert s tp restart).tasklist) :
    t = { tp with triggerTime := tp.schedTime + tp.ms / 1000, resched := false } ∨ t ∈ s.tasklist ∨
      ∃ t' ∈ s.tasklist, tp.schedTime - t'.schedTime > timeJumpThreshold ∧
        t = { t' with schedTime := tp.schedTime, triggerTime := tp.schedTime } := by
  rw [evschedTaskInsert_tasklist] at h
  rcases mem_cons.mp ((insertTask_perm _ _).mem_iff.mp h) with h | h
  · exact .inl h
  · exact .inr (mem_fixTimeJump h)

theorem forall_evschedTaskInsert {tp : Task} {restart : Bool} {P : Nat → Bool → Prop}
    (h : ∀ t ∈ s.tasklist, P t.id t.remove) (htp : P tp.id tp.remove) :
    ∀ t ∈ (evschedTaskInsert s tp restart).tasklist, P t.id t.remove := by
  intro t ht
  rcases mem_evschedTaskInsert ht with rfl | ht | ⟨t', ht', -, rfl⟩
  · exact htp
  · exact h t ht
  · exact h t' ht'

/-! ## Identifiers -/

structure Shape (s : Sched) : Prop where
  nodup : (ids s).Nodup
  below : ∀ id ∈ ids s, id < s.taskId
  unset : s.initialized = false → ids s = []

variable {s' : Sched}

theorem Shape.of_subperm (h : Shape s) (hs : (ids s').Subperm (ids s)) (hid : s'.taskId = s.taskId)
    (hin : s'.initialized = s.initialized) : Shape s' := by
  refine ⟨?_, ?_, ?_⟩
  · obtain ⟨l, hp, hl⟩ := hs
    exact hp.nodup_iff.mp (h.nodup.sublist hl)
  · intro id hm
    rw [hid]
    exact h.below id (hs.subset hm)
  · intro hu
    have hn := h.unset (hin ▸ hu)
    rw [hn] at hs
    exact subperm_nil.mp hs

theorem Shape.of_new (h : Shape s) (hp : (ids s').Perm (s.taskId :: ids s))
    (hid : s'.taskId = s.taskId + 1) (hin : s'.initialized = true) : Shape s' := by
  refine ⟨?_, ?_, fun hu => ?_⟩
  · rw [hp.nodup_iff, nodup_cons]
    exact ⟨fun hm => Nat.lt_irrefl _ (h.below _ hm), h.nodup⟩
  · intro id hm
    rw [hid]
    rcases mem_cons.mp (hp.mem_iff.mp hm) with rfl | hm
    · exact Nat.lt_succ_self _
    · exact Nat.lt_succ_of_lt (h.below id hm)
  · rw [hin] at hu
    cases hu

theorem ids_eq (s : Sched) :
    ids s = s.current.toList.map Task.id ++ (s.tasklist.map Task.id ++ s.pending.map Task.id) := by
  rw [ids, live, map_append, map_append]

theorem nextTaskId {n : Nat} (h : n + 1 < 2 ^ 32) : (n + 1) % 2 ^ 32 = n + 1 := Nat.mod_eq_of_lt h

def IdSafe (s : Sched) (o : Op) : Prop := ∀ func arg ms, o = .task func arg ms → s.taskId + 1 < 2 ^ 32

instance (s : Sched) (o : Op) : Decidable (IdSafe s o) :=
  match o with
  | .task func arg ms => decidable_of_iff (s.taskId + 1 < 2 ^ 32)
      ⟨fun h _ _ _ _ => h, fun h => h func arg ms rfl⟩
  | .update .. => isTrue fun _ _ _ h => nomatch h
  | .cancel .. => isTrue fun _ _ _ h => nomatch h
  | .cancelByFind .. => isTrue fun _ _ _ h => nomatch h
  | .reschedule => isTrue fun _ _ _ h => nomatch h
  | .rescheduleMs .. => isTrue fun _ _ _ h => nomatch h

theorem Shape.effect {o : Op} (h : Shape s) (he : Effect s o s') (hn : s.current = none ∨ s'.ndel = s.ndel)
    (hs : IdSafe s o) : Shape s' := by
  cases he with
  | idle | missed => exact h
  | queued func arg ms ho hin hc =>
    refine h.of_new ?_ (nextTaskId (hs func arg ms ho)) hin
    simp only [ids_eq, map_append, map_singleton, ← append_assoc]
    exact perm_append_comm
  | inserted func arg ms ho hin hc =>
    refine h.of_new ?_ (by simpa using nextTaskId (hs func arg ms ho)) (by simpa using hin)
    rw [ids_eq, ids_eq]
    simp only [evschedTaskInsert_fields, hc]
    exact (evschedTaskInsert_ids _ _ _).append_right _
  | renewed id ms tp ho hr hc hf =>
    refine h.of_subperm ?_ (by simp) (by simp)
    have hm := mem_of_find?_eq_some hf
    have her : (tp :: s.tasklist.eraseP (hasId id)).Perm s.tasklist := by
      obtain ⟨t, l₁, l₂, hb, ht, hl, hera⟩ := exists_of_eraseP hm (find?_some hf)
      have htp : t = tp := by
        rw [hl, find?_append, find?_eq_none.mpr (fun x hx => by simpa using hb x hx),
          Option.none_or, find?_cons_of_pos ht] at hf
        exact Option.some.inj hf
      rw [hera, hl, htp]
      exact perm_middle.symm
    rw [ids_eq, ids_eq]
    simp only [evschedTaskInsert_fields]
    have hid := evschedTaskInsert_ids { s with tasklist := s.tasklist.eraseP (hasId id), ndel := s.ndel + 1 }
      { tp with schedTime := s.now, ms := ms } true
    exact ((hid.trans (her.map Task.id)).append_right _ |>.append_left _).subperm
  | moved id tp hc => exact (not_moved hc hn).elim
  | quieted tp _ _ hc | asked tp ms _ _ _ hc =>
    refine h.of_subperm ?_ rfl rfl
    rw [ids_eq, ids_eq, hc]
    exact Subperm.refl _
  | marked id tp _ _ _ _ =>
    refine h.of_subperm ?_ rfl rfl
    rw [ids_eq, ids_eq]
    simp only [markRemove_ids]
    exact Subperm.refl _
  | erased id _ _ _ =>
    refine h.of_subperm ?_ rfl rfl
    rw [ids_eq, ids_eq]
    exact (((eraseP_sublist.map Task.id).append_right _).append_left _).subperm

variable {tp : Task}

section

variable (h : Shape s)
include h

theorem Shape.due {rest : List Task} (hc : s.current = none) (hl : s.tasklist = tp :: rest) :
    Shape { s with tasklist := rest, ndel := s.ndel + 1, current := some tp } := by
  refine h.of_subperm ?_ rfl rfl
  rw [ids_eq, ids_eq, hc, hl]
  exact Subperm.refl _

theorem Shape.head {rest : List Task} (hl : s.tasklist = tp :: rest) :
    Shape { s with tasklist := rest, ndel := s.ndel + 1 } := by
  refine h.of_subperm ?_ rfl rfl
  rw [ids_eq, ids_eq, hl]
  exact (((sublist_cons_self _ _).append_right _).append_left _).subperm

theorem Shape.leave (hc : s.current = some tp) : Shape (leave s tp) := by
  refine h.of_subperm ?_ rfl rfl
  rw [ids_eq, ids_eq, hc]
  simp only [Evsched.leave, Option.toList_none, Option.toList_some, map_nil, nil_append, map_cons, singleton_append]
  split_ifs
  · rw [map_append, ← append_assoc]
    exact perm_append_comm.subperm
  · exact (sublist_cons_self _ _).subperm

theorem Shape.removed (n : Nat) :
    Shape { s with tasklist := s.tasklist.filter (!·.remove), ndel := n } := by
  refine h.of_subperm ?_ rfl rfl
  rw [ids_eq, ids_eq]
  exact (((filter_sublist.map Task.id).append_right _).append_left _).subperm

theorem Shape.insertedPending {ps : List Task} (hp : s.pending = tp :: ps) :
    Shape (evschedTaskInsert { s with pending := ps } tp false) := by
  refine h.of_subperm ?_ (by simp) (by simp)
  rw [ids_eq, ids_eq, hp]
  simp only [evschedTaskInsert_fields]
  have hid := evschedTaskInsert_ids { s with pending := ps } tp false
  exact ((hid.append_right _).trans perm_middle.symm |>.append_left _).subperm

theorem Shape.init : Shape (evschedInit s) := by
  unfold evschedInit
  split_ifs with hin
  · exact h
  · exact ⟨by simp [ids_eq], by simp [ids_eq], fun _ => rfl⟩

theorem Shape.cleanup (ht : Top s) : Shape (evschedCleanup s) := by
  unfold evschedCleanup
  split_ifs with hin
  · exact h
  · refine ⟨?_, ?_, fun _ => ?_⟩
    · simp [ids_eq, ht.1, ht.2]
    · simp [ids_eq, ht.1, ht.2]
    · simp [ids_eq, ht.1, ht.2]

omit h in
theorem evschedInit_sub : (∀ t ∈ (evschedInit s).tasklist, t ∈ s.tasklist) ∧ (Top s → Top (evschedInit s)) := by
  unfold evschedInit
  split_ifs
  · exact ⟨fun _ ht => ht, id⟩
  · exact ⟨fun _ ht => absurd ht not_mem_nil, fun _ => ⟨rfl, rfl⟩⟩

omit h in
theorem evschedCleanup_sub :
    (∀ t ∈ (evschedCleanup s).tasklist, t ∈ s.tasklist) ∧ (Top s → Top (evschedCleanup s)) := by
  unfold evschedCleanup
  split_ifs
  · exact ⟨fun _ ht => ht, id⟩
  · exact ⟨fun _ ht => absurd ht not_mem_nil, id⟩

theorem Shape.current_ne {tp t : Task} (hc : s.current = some tp)
    (ht : t ∈ s.tasklist ∨ t ∈ s.pending) : t.id ≠ tp.id := by
  have hn := h.nodup
  rw [ids_eq, hc, Option.toList_some, map_singleton, singleton_append, nodup_cons] at hn
  intro heq
  apply hn.1
  rw [mem_append, mem_map, mem_map]
  rcases ht with ht | ht
  · exact .inl ⟨t, ht, heq⟩
  · exact .inr ⟨t, ht, heq⟩

theorem Shape.tasklist_nodup : (s.tasklist.map Task.id).Nodup := by
  have hn := h.nodup
  rw [ids_eq, nodup_append] at hn
  exact (nodup_append.mp hn.2.1).1

end

theorem eraseP_ne (hn : (ts.map Task.id).Nodup) (ht : t ∈ ts.eraseP (hasId id)) : t.id ≠ id := by
  induction ts with
  | nil => simp at ht
  | cons t' ts ih =>
    rw [map_cons, nodup_cons] at hn
    by_cases hid : hasId id t' = true
    · rw [eraseP_cons_of_pos hid] at ht
      intro heq
      have ht' : t'.id = id := of_decide_eq_true hid
      exact hn.1 (mem_map.mpr ⟨t, ht, heq.trans ht'.symm⟩)
    · rw [eraseP_cons_of_neg hid] at ht
      rcases mem_cons.mp ht with rfl | ht
      · exact fun heq => hid (decide_eq_true heq)
      · exact ih hn.2 ht

theorem markRemove_marks (hn : (ts.map Task.id).Nodup)
    (ht : t ∈ markRemove id ts) (hid : t.id = id) : t.remove = true := by
  induction ts with
  | nil => simp [markRemove] at ht
  | cons t' ts ih =>
    rw [map_cons, nodup_cons] at hn
    rw [markRemove] at ht
    split_ifs at ht with hid'
    · rcases mem_cons.mp ht with rfl | ht
      · rfl
      · have hf : t'.id = id := of_decide_eq_true hid'
        exact absurd (mem_map.mpr ⟨t, ht, hid.trans hf.symm⟩) hn.1
    · rcases mem_cons.mp ht with rfl | ht
      · exact absurd (decide_eq_true hid) hid'
      · exact ih hn.2 ht

/-! ## The walk ends -/

theorem Effect.length_le {o : Op} (h : Effect s o s') (hc : s.current.isSome = true) :
    s'.tasklist.length ≤ s.tasklist.length := by
  cases h with
  | inserted _ _ _ _ _ hn | renewed _ _ _ _ _ hn => simp [hn] at hc
  | moved | erased => exact eraseP_sublist.length_le
  | marked id =>
    have hl := congrArg length (markRemove_ids id s.tasklist)
    rw [length_map, length_map] at hl
    exact hl.le
  | _ => exact le_refl _

theorem calls_length_le {x : Trace} (ops : List Op) (hc : x.1.current.isSome = true) :
    (ops.foldl Trace.call x).1.tasklist.length ≤ x.1.tasklist.length := by
  induction ops generalizing x with
  | nil => exact le_refl _
  | cons o ops ih =>
    have hef := apply_effect x.1 o
    exact (ih (x := x.call o) (hef.current.trans hc)).trans (hef.length_le hc)

theorem runDue_done {fuel : Nat} {scripts : List (List Op)} {x : Trace} (hf : x.1.tasklist.length ≤ fuel) :
    (runDue fuel scripts x).1.aborted = true ∨
      ∀ tp ∈ (runDue fuel scripts x).1.tasklist.head?, (runDue fuel scripts x).1.now < tp.triggerTime := by
  induction fuel generalizing scripts x with
  | zero =>
    rw [Nat.le_zero, length_eq_zero_iff] at hf
    simp [runDue, hf]
  | succ fuel ih =>
    rw [runDue]
    cases hl : x.1.tasklist with
    | nil => simp [hl]
    | cons tp rest =>
      rw [hl, length_cons, Nat.succ_le_succ_iff] at hf
      simp only
      split_ifs with hd hr hn
      · right
        simpa [hl] using hd
      · exact ih hf
      · refine ih (le_trans ?_ hf)
        obtain ⟨tp', -, heq⟩ := runTask_eq (removeHead x rest) tp (scripts.headD [])
        rw [heq]
        exact calls_length_le (x := enter (removeHead x rest) tp) _ rfl
      · exact .inl rfl

end OpenSync.Evsched
