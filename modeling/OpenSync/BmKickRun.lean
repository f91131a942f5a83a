import OpenSync.BmKick
import Mathlib.Data.List.Nodup
import Mathlib.Data.List.InsertIdx

/-!
# The head of the kick queue is served

Whoever takes the head off the queue has to see to it that the next entry is served, and nobody may start the queue a
second time. The source misses both now and then. It loses the queue when a removal takes a head whose kick task is
scheduled, and it starts the queue twice when a kick finds it empty while a queue-run task is still scheduled.
-/

namespace OpenSync.BmKick
open List State

/-! ## Well-formed queues -/

/-- The entries are of different clients and of different addresses, and only the head may be measured. -/
structure Ordered (queue : List Kick) (nextId : Nat) : Prop where
  macs : (queue.map Kick.macaddr).Nodup
  ids : (queue.map Kick.id).Nodup
  fresh : ∀ kick ∈ queue, kick.id < nextId
  rest : ∀ kick ∈ queue.tail, kick.measuring = false

/-- Who serves the queue: nobody if it is empty, a queue-run task that comes too late, the driver that measures, the
kick task of the head, or a queue-run task. -/
inductive Duty : List Kick → List Task → Prop
  | idle : Duty [] []
  | late : Duty [] [.queueRun]
  | measuring (kick : Kick) (rest : List Kick) : kick.measuring = true → Duty (kick :: rest) []
  | kick (kick : Kick) (rest : List Kick) : kick.measuring = false → Duty (kick :: rest) [.kick kick.id]
  | queueRun (kick : Kick) (rest : List Kick) : kick.measuring = false → Duty (kick :: rest) [.queueRun]

structure Inv (s : State) : Prop where
  ordered : Ordered s.queue s.nextId
  duty : Duty s.queue s.tasks
  idle : s.running = false → s.pending = []

variable {n : Nat} {rest : List Kick}

theorem Ordered.tail {kick : Kick} (h : Ordered (kick :: rest) n) : Ordered rest n where
  macs := (nodup_cons.mp h.macs).2
  ids := (nodup_cons.mp h.ids).2
  fresh k hk := h.fresh k (mem_cons_of_mem _ hk)
  rest k hk := h.rest k (mem_of_mem_tail hk)

variable {queue : List Kick}

theorem Ordered.filter (h : Ordered queue n) (p : Kick → Bool) : Ordered (queue.filter p) n where
  macs := h.macs.sublist (filter_sublist.map _)
  ids := h.ids.sublist (filter_sublist.map _)
  fresh k hk := h.fresh k (mem_of_mem_filter hk)
  rest k hk := by
    cases queue with
    | nil => exact absurd hk not_mem_nil
    | cons kick rest =>
      -- The tail of what is left is part of the tail that was there.
      have hr : ∀ k' ∈ rest.filter p, k'.measuring = false := fun k' hk' => h.rest k' (mem_of_mem_filter hk')
      cases hp : p kick with
      | true => exact hr k (by simpa [filter_cons, hp] using hk)
      | false => exact hr k (mem_of_mem_tail (by simpa [filter_cons, hp] using hk))

theorem Ordered.setHead {kick kick' : Kick} (h : Ordered (kick :: rest) n)
    (hm : kick'.macaddr = kick.macaddr) (hi : kick'.id = kick.id) : Ordered (kick' :: rest) n where
  macs := by simpa [hm] using h.macs
  ids := by simpa [hi] using h.ids
  fresh := forall_mem_cons.mpr ⟨hi ▸ h.fresh kick mem_cons_self, (forall_mem_cons.mp h.fresh).2⟩
  rest := h.rest

theorem Ordered.map (h : Ordered queue n) {f : Kick → Kick}
    (hf : ∀ k ∈ queue, (f k).macaddr = k.macaddr ∧ (f k).id = k.id ∧ (f k).measuring = k.measuring) :
    Ordered (queue.map f) n where
  macs := by
    have hm : queue.map (Kick.macaddr ∘ f) = queue.map Kick.macaddr := map_congr_left fun k hk => (hf k hk).1
    rw [map_map, hm]
    exact h.macs
  ids := by
    have hi : queue.map (Kick.id ∘ f) = queue.map Kick.id := map_congr_left fun k hk => (hf k hk).2.1
    rw [map_map, hi]
    exact h.ids
  fresh k hk := by
    obtain ⟨k', hk', rfl⟩ := mem_map.mp hk
    exact (hf k' hk').2.1 ▸ h.fresh k' hk'
  rest k hk := by
    rw [← map_tail] at hk
    obtain ⟨k', hk', rfl⟩ := mem_map.mp hk
    rw [(hf k' (mem_of_mem_tail hk')).2.2]
    exact h.rest k' hk'

theorem Ordered.insertTail (h : Ordered queue n) {kick : Kick} (hi : kick.id = n)
    (hm : kick.measuring = false) (hf : ∀ k ∈ queue, k.macaddr ≠ kick.macaddr) :
    Ordered (queue ++ [kick]) (n + 1) where
  macs := by
    rw [map_append, map_singleton, ← concat_eq_append]
    refine Nodup.concat (fun hc => ?_) h.macs
    obtain ⟨k, hk, he⟩ := mem_map.mp hc
    exact hf k hk he
  ids := by
    rw [map_append, map_singleton, ← concat_eq_append]
    refine Nodup.concat (fun hc => ?_) h.ids
    obtain ⟨k, hk, he⟩ := mem_map.mp hc
    exact absurd (h.fresh k hk) (by omega)
  fresh k hk := by
    rcases mem_append.mp hk with hk | hk
    · exact Nat.lt_succ_of_lt (h.fresh k hk)
    · rw [mem_singleton.mp hk, hi]
      exact Nat.lt_succ_self n
  rest k hk := by
    cases queue with
    | nil => exact absurd hk not_mem_nil
    | cons k' rest =>
      rcases mem_append.mp hk with hk | hk
      · exact h.rest k hk
      · exact mem_singleton.mp hk ▸ hm

/-! ## Duties -/

theorem Duty.restarted (h : ∀ kick ∈ queue, kick.measuring = false) : Duty queue [.queueRun] := by
  cases queue with
  | nil => exact .late
  | cons kick rest => exact .queueRun kick rest (h kick mem_cons_self)

variable {tasks : List Task}

section

variable (h : Duty queue tasks)
include h

theorem Duty.map {f : Kick → Kick}
    (hf : ∀ k ∈ queue, (f k).id = k.id ∧ (f k).measuring = k.measuring) : Duty (queue.map f) tasks := by
  cases h with
  | idle => exact .idle
  | late => exact .late
  | measuring k rest hm => exact .measuring (f k) _ ((hf k mem_cons_self).2.trans hm)
  | kick k rest hm =>
    rw [← (hf k mem_cons_self).1]
    exact .kick (f k) _ ((hf k mem_cons_self).2.trans hm)
  | queueRun k rest hm => exact .queueRun (f k) _ ((hf k mem_cons_self).2.trans hm)

theorem Duty.append (hq : queue ≠ []) (more : List Kick) : Duty (queue ++ more) tasks := by
  cases h with
  | idle | late => exact absurd rfl hq
  | measuring k rest hm => exact .measuring k _ hm
  | kick k rest hm => exact .kick k _ hm
  | queueRun k rest hm => exact .queueRun k _ hm

theorem Duty.length_le : tasks.length ≤ 1 := by
  cases h <;> simp

/-- Entries go together with their tasks. The queue may not lose its head to a removal while the kick task of the head is
scheduled, unless nothing is left. -/
theorem Duty.removed {gone : Kick → Bool} (ho : Ordered queue n) (hm : ∀ k ∈ queue, gone k = true → k.measuring = false)
    (hs : ∀ kick ∈ queue.head?, gone kick = true → Task.kick kick.id ∈ tasks → ∀ k ∈ queue, gone k = true) :
    Duty (queue.filter (!gone ·)) (tasks.diff ((queue.filter gone).map fun k => .kick k.id)) := by
  cases h with
  | idle => exact .idle
  | late => exact .late
  | measuring k rest hk =>
    have hg : gone k = false := by
      cases hg : gone k with
      | false => rfl
      | true => exact absurd hk (by simp [hm k mem_cons_self hg])
    rw [nil_diff, filter_cons_of_pos (by simp [hg])]
    exact .measuring k _ hk
  | kick k rest hk =>
    cases hg : gone k with
    | true =>
      have ha := hs k rfl hg mem_cons_self
      have hn : (k :: rest).filter (!gone ·) = [] := filter_eq_nil_iff.mpr fun k' hk' => by simp [ha k' hk']
      rw [hn, filter_cons_of_pos hg, map_cons, diff_cons, erase_cons_head, nil_diff]
      exact .idle
    | false =>
      -- The other entries have other addresses, so the task of the head is not cancelled.
      have hid : Task.kick k.id ∉ ((k :: rest).filter gone).map fun k => Task.kick k.id := by
        rw [filter_cons_of_neg (by simp [hg]), mem_map]
        rintro ⟨k', hk', he⟩
        refine (nodup_cons.mp ho.ids).1 (mem_map.mpr ⟨k', mem_of_mem_filter hk', ?_⟩)
        exact Task.kick.inj he
      rw [Nodup.sdiff_eq_filter (nodup_singleton _), filter_singleton, filter_cons_of_pos (by simp [hg])]
      simp only [hid, not_false_eq_true, decide_true, cond_true]
      exact .kick k _ hk
  | queueRun k rest hk =>
    have hr : [Task.queueRun].diff (((k :: rest).filter gone).map fun k => Task.kick k.id) = [.queueRun] := by
      rw [Nodup.sdiff_eq_filter (nodup_singleton _)]
      simp
    rw [hr]
    have ha : ∀ k' ∈ k :: rest, k'.measuring = false := forall_mem_cons.mpr ⟨hk, ho.rest⟩
    exact Duty.restarted fun k' hk' => ha k' (mem_of_mem_filter hk')

end

/-! ## The scheduler -/

variable {s : State}

theorem tasks_of_evschedTask (t : Task) (h : s.tasks = []) : (evschedTask s t).tasks = [t] := by
  obtain ⟨hl, hp⟩ := append_eq_nil_iff.mp h
  unfold evschedTask
  split <;> simp [tasks, hl, hp]

@[simp] theorem queue_evschedTask (s : State) (t : Task) : (evschedTask s t).queue = s.queue := by
  unfold evschedTask; split <;> rfl

@[simp] theorem nextId_evschedTask (s : State) (t : Task) : (evschedTask s t).nextId = s.nextId := by
  unfold evschedTask; split <;> rfl

@[simp] theorem running_evschedTask (s : State) (t : Task) : (evschedTask s t).running = s.running := by
  unfold evschedTask; split <;> rfl

theorem Inv.scheduled {t : Task} (ho : Ordered s.queue s.nextId) (ht : s.tasks = [])
    (hd : Duty s.queue [t]) : Inv (evschedTask s t) where
  ordered := by simpa using ho
  duty := by
    rw [tasks_of_evschedTask t ht, queue_evschedTask]
    exact hd
  idle hr := by
    rw [running_evschedTask] at hr
    have hp := (append_eq_nil_iff.mp ht).2
    simp [evschedTask, hr, hp]

theorem Inv.rescheduled (ho : Ordered s.queue s.nextId) (ht : s.tasks = []) (hr : s.running = true)
    (hm : ∀ kick ∈ s.queue, kick.measuring = false) : Inv (evschedTaskReschedule s .queueRun) where
  ordered := ho
  duty := by
    obtain ⟨hl, hp⟩ := append_eq_nil_iff.mp ht
    have he : (evschedTaskReschedule s .queueRun).tasks = [.queueRun] := by
      simp [evschedTaskReschedule, tasks, hl, hp]
    rw [he]
    exact Duty.restarted hm
  idle h := absurd h (by simp [evschedTaskReschedule, hr])

theorem Inv.taken {i : Nat} {t : Task} (h : Inv s) (ht : s.tasklist[i]? = some t) :
    s.tasks = [t] ∧ ({ s with tasklist := s.tasklist.eraseIdx i } : State).tasks = [] := by
  have hl := h.duty.length_le
  unfold tasks at hl ⊢
  rw [length_append] at hl
  cases hs : s.tasklist with
  | nil => simp [hs] at ht
  | cons t' l =>
    rw [hs, length_cons] at hl
    have hln : l = [] := length_eq_zero_iff.mp (by omega)
    have hpn : s.pending = [] := length_eq_zero_iff.mp (by omega)
    subst hln
    rw [hs, getElem?_singleton] at ht
    have hi : i = 0 := by
      by_contra hi
      simp [hi] at ht
    subst hi
    simp only [if_pos, Option.some.injEq] at ht
    simp [hpn, ht]

/-! ## Operations -/

theorem Inv.resting (hq : s.queue = []) (ht : s.tasks = []) (hi : s.running = false → s.pending = []) : Inv s where
  ordered := by
    rw [hq]
    exact ⟨nodup_nil, nodup_nil, fun _ hk => absurd hk not_mem_nil, fun _ hk => absurd hk not_mem_nil⟩
  duty := by
    rw [hq, ht]
    exact .idle
  idle := hi

theorem bmKickFree_of_tasks_nil (h : s.tasks = []) (kick : Kick) : bmKickFree s kick = s := by
  have hl := (append_eq_nil_iff.mp h).1
  unfold bmKickFree evschedTaskCancelByFind
  rw [hl, erase_nil, ← hl]

variable (clients : List Client)

theorem Inv.taskKick {kick : Kick} (hq : s.queue = kick :: rest)
    (ho : Ordered s.queue s.nextId) (ht : s.tasks = []) (hr : s.running = true) :
    Inv (bmKickTaskKick s kick.id clients) ∧ (bmKickTaskKick s kick.id clients).running = true := by
  rw [hq] at ho
  simp only [bmKickTaskKick, hq, if_pos]
  rw [bmKickFree_of_tasks_nil (by exact ht)]
  split
  · next hn => exact ⟨Inv.resting hn ht fun h => absurd (hr.symm.trans h) (by simp), hr⟩
  · exact ⟨Inv.scheduled ho.tail ht (Duty.restarted ho.rest), by simpa [bmKickQueueStart] using hr⟩

theorem Inv.dropHead {kick : Kick} (hq : s.queue = kick :: rest)
    (ho : Ordered s.queue s.nextId) (ht : s.tasks = []) (hr : s.running = true) :
    Inv (evschedTaskReschedule (bmKickFree { s with queue := rest } kick) .queueRun) := by
  rw [hq] at ho
  rw [bmKickFree_of_tasks_nil (by exact ht)]
  exact Inv.rescheduled ho.tail ht hr ho.rest

theorem Inv.taskQueueRun (ret : Measure) (hm : ∀ kick ∈ s.queue, kick.measuring = false)
    (ho : Ordered s.queue s.nextId) (ht : s.tasks = []) (hr : s.running = true) :
    Inv (bmKickTaskQueueRun s clients ret) ∧ (bmKickTaskQueueRun s clients ret).running = true := by
  cases hq : s.queue with
  | nil =>
    simp only [bmKickTaskQueueRun, hq]
    exact ⟨Inv.resting hq ht fun h => absurd (hr.symm.trans h) (by simp), hr⟩
  | cons kick rest =>
    have hk : kick.measuring = false := hm kick (hq ▸ mem_cons_self)
    have hki : Inv (evschedTask s (.kick kick.id)) := Inv.scheduled ho ht (hq ▸ Duty.kick kick rest hk)
    have hd := Inv.dropHead hq ho ht hr
    simp only [bmKickTaskQueueRun, hq]
    split
    · exact ⟨hd, hr⟩
    split
    · exact ⟨hki, by simpa using hr⟩
    cases ret with
    | enosys => exact ⟨hki, by simpa using hr⟩
    | failed => exact ⟨hd, hr⟩
    | started =>
      rw [hq] at ho
      refine ⟨⟨ho.setHead rfl rfl, ?_, fun h => absurd (hr.symm.trans h) (by simp)⟩, hr⟩
      have ht' : ({ s with queue := { kick with measuring := true } :: rest } : State).tasks = [] := ht
      rw [ht']
      exact .measuring _ _ rfl

theorem Inv.ranTask {t : Task} (ret : Measure) (hd : Duty s.queue [t])
    (ho : Ordered s.queue s.nextId) (ht : s.tasks = []) (hr : s.running = true) :
    Inv (runTask s clients ret t) ∧ (runTask s clients ret t).running = true := by
  generalize hq : s.queue = queue at hd
  cases hd with
  | late => exact Inv.taskQueueRun clients ret (by simp [hq]) ho ht hr
  | kick k rest hk => exact Inv.taskKick clients hq ho ht hr
  | queueRun k rest hk =>
    exact Inv.taskQueueRun clients ret (hq ▸ forall_mem_cons.mpr ⟨hk, (hq ▸ ho).rest⟩) ho ht hr

theorem Inv.fired (h : Inv s) (hr : s.running = true) (i : Nat) (clients : List Client) (ret : Measure) :
    Inv (Call.step s (.fire i clients ret)) ∧ (Call.step s (.fire i clients ret)).running = true := by
  simp only [Call.step]
  split
  · exact ⟨h, hr⟩
  · next t ht =>
    obtain ⟨ho, hn⟩ := h.taken ht
    exact Inv.ranTask clients ret (ho ▸ h.duty) h.ordered hn hr

/-- No second queue-run task is started by this kick. -/
def KickSafe (s : State) (client : Client) (type : KickType) (a : Around) : Prop :=
  s.queue = [] → Task.queueRun ∈ s.tasks → (admitted client type a).isOk = false

instance (s : State) (client : Client) (type : KickType) (a : Around) : Decidable (KickSafe s client type a) :=
  inferInstanceAs (Decidable (_ → _ → _))

theorem Inv.replaceKick (h : Inv s) {kick kick' : Kick} (hk : kick ∈ s.queue)
    (he : kick'.macaddr = kick.macaddr ∧ kick'.id = kick.id ∧ kick'.measuring = kick.measuring) :
    Inv (replaceKick s kick') := by
  -- An entry with the address of `kick` is `kick`.
  have hf : ∀ k ∈ s.queue, (fun k => if k.id = kick'.id then kick' else k) k = k ∨ k = kick := by
    intro k hks
    by_cases hid : k.id = kick'.id
    · exact .inr (inj_on_of_nodup_map h.ordered.ids hks hk (hid.trans he.2.1))
    · exact .inl (if_neg hid)
  have hg : ∀ k ∈ s.queue, ((fun k => if k.id = kick'.id then kick' else k) k).macaddr = k.macaddr ∧
      ((fun k => if k.id = kick'.id then kick' else k) k).id = k.id ∧
      ((fun k => if k.id = kick'.id then kick' else k) k).measuring = k.measuring := by
    intro k hks
    rcases hf k hks with hk' | rfl
    · rw [hk']
      exact ⟨rfl, rfl, rfl⟩
    · simp only [if_pos he.2.1.symm]
      exact he
  exact ⟨h.ordered.map hg, h.duty.map fun k hks => (hg k hks).2, h.idle⟩

theorem Inv.inserted (h : Inv s) {client : Client} {type : KickType} {a : Around} {group : Group}
    (hs : KickSafe s client type a) (ha : admitted client type a = .ok group) (rssi : UInt8)
    (hf : bmKickFindByMacaddr s client.macaddr = none) :
    Inv (if s.queue = [] then bmKickQueueStart (insertTail s client group type rssi)
      else insertTail s client group type rssi) := by
  have hm : ∀ k ∈ s.queue, k.macaddr ≠ client.macaddr := by
    intro k hk he
    exact absurd (find?_eq_none.mp hf k hk) (by simp [he])
  have ho : Ordered (insertTail s client group type rssi).queue (insertTail s client group type rssi).nextId :=
    h.ordered.insertTail rfl rfl hm
  split
  · next hq =>
    have hr : Task.queueRun ∉ s.tasks := fun hc => absurd (hs hq hc) (by simp [ha, Except.isOk, Except.toBool])
    have hd := h.duty
    have ht : s.tasks = [] := by
      rw [hq] at hd
      generalize s.tasks = tasks at hd hr
      cases hd with
      | idle => rfl
      | late => exact absurd (mem_singleton.mpr rfl) hr
    refine Inv.scheduled ho ht (Duty.restarted fun k hk => ?_)
    have hon : k ∈ [(⟨s.nextId, client.macaddr, client.ifname, group.id, type, rssi, false⟩ : Kick)] := by
      simpa [insertTail, hq] using hk
    exact mem_singleton.mp hon ▸ rfl
  · next hq => exact ⟨ho, h.duty.append hq _, h.idle⟩

theorem Inv.kicked (h : Inv s) {client : Client} {type : KickType} {a : Around}
    (hs : KickSafe s client type a) (rssi : UInt8) :
    Inv (bmKick s client type rssi a).2 ∧ (bmKick s client type rssi a).2.running = s.running := by
  unfold bmKick
  split
  · exact ⟨h, rfl⟩
  next group ha =>
  split
  · next kick hf => exact ⟨h.replaceKick (mem_of_find?_eq_some hf) ⟨rfl, rfl, rfl⟩, rfl⟩
  next hf =>
  refine ⟨h.inserted hs ha rssi hf, ?_⟩
  split
  · simp [bmKickQueueStart, insertTail]
  · rfl

theorem Inv.measured (h : Inv s) (macaddr : Mac) (rssi : UInt8) :
    Inv (bmKickMeasurement s macaddr rssi) ∧ (bmKickMeasurement s macaddr rssi).running = s.running := by
  unfold bmKickMeasurement
  split
  · exact ⟨h, rfl⟩
  next kick rest hq =>
  split
  · exact ⟨h, rfl⟩
  next hm =>
  have hmk : kick.measuring = true := by
    cases hk : kick.measuring with
    | true => rfl
    | false => simp [hk] at hm
  have hd := h.duty
  have ho := h.ordered
  rw [hq] at hd ho
  have ht : s.tasks = [] := by
    generalize s.tasks = tasks at hd
    cases hd with
    | measuring => rfl
    | kick _ _ hk | queueRun _ _ hk => exact absurd hmk (by simp [hk])
  exact ⟨Inv.scheduled (ho.setHead rfl rfl) ht (.kick { kick with measuring := false, rssi := rssi } rest rfl),
    running_evschedTask _ _⟩

/-! ## Removals -/

/-- The removal does not take a head whose kick task is scheduled, or it takes everything. -/
def RemovalSafe (s : State) (gone : Kick → Bool) : Prop :=
  ∀ kick ∈ s.queue.head?, gone kick = true → Task.kick kick.id ∈ s.tasks → ∀ k ∈ s.queue, gone k = true

instance (s : State) (gone : Kick → Bool) : Decidable (RemovalSafe s gone) :=
  inferInstanceAs (Decidable (∀ _ ∈ _, _))

theorem foldl_bmKickFree (s : State) (kicks : List Kick) :
    kicks.foldl bmKickFree s = { s with tasklist := s.tasklist.diff (kicks.map fun k => .kick k.id) } := by
  induction kicks generalizing s with
  | nil => simp
  | cons kick kicks ih =>
    rw [foldl_cons, ih, map_cons, diff_cons]
    rfl

theorem removeKicks_eq (s : State) (gone : Kick → Bool) :
    removeKicks s gone = { s with
      queue := s.queue.filter (!gone ·)
      tasklist := s.tasklist.diff ((s.queue.filter gone).map fun k => .kick k.id) } :=
  foldl_bmKickFree _ _

theorem running_removeKicks (s : State) (gone : Kick → Bool) : (removeKicks s gone).running = s.running := by
  rw [removeKicks_eq]

section

variable (h : Inv s) (hr : s.running = false)
include h hr

theorem Inv.tasks_eq : s.tasks = s.tasklist := by
  rw [tasks, h.idle hr, append_nil]

theorem Inv.removedKicks {gone : Kick → Bool} (hs : RemovalSafe s gone)
    (hm : ∀ k ∈ s.queue, gone k = true → k.measuring = false) : Inv (removeKicks s gone) := by
  rw [removeKicks_eq]
  refine ⟨h.ordered.filter _, ?_, h.idle⟩
  have hd := h.duty.removed h.ordered hm hs
  rw [h.tasks_eq hr] at hd
  simpa [tasks, h.idle hr] using hd

theorem Inv.restarted {gone : Kick → Bool} {kick : Kick}
    (hk : kick ∈ s.queue) (hg : gone kick = true) (hm : kick.measuring = true) :
    let s' := if !(removeKicks s gone).queue.isEmpty then bmKickQueueStart (removeKicks s gone) else removeKicks s gone
    Inv s' ∧ s'.running = s.running := by
  have hd := h.duty
  have ho := h.ordered
  have hn : s.tasks = [] ∧ ∀ k ∈ s.queue.filter (!gone ·), k.measuring = false := by
    generalize s.queue = queue at hd ho hk
    generalize s.tasks = tasks at hd
    cases hd with
    | idle | late => exact absurd hk not_mem_nil
    | kick k rest hk' | queueRun k rest hk' =>
      rcases mem_cons.mp hk with rfl | hk
      · exact absurd hm (by simp [hk'])
      · exact absurd hm (by simp [ho.rest kick hk])
    | measuring k rest hk' =>
      have he : kick = k := by
        rcases mem_cons.mp hk with he | hk
        · exact he
        · exact absurd hm (by simp [ho.rest kick hk])
      rw [← he, filter_cons_of_neg (by simp [hg])]
      exact ⟨rfl, fun k' hk' => ho.rest k' (mem_of_mem_filter hk')⟩
  have hl := (append_eq_nil_iff.mp hn.1).1
  have ht : (removeKicks s gone).tasks = [] := by
    simp [removeKicks_eq, tasks, hl, h.idle hr]
  have hq : (removeKicks s gone).queue = s.queue.filter (!gone ·) := by rw [removeKicks_eq]
  have ho' : Ordered (removeKicks s gone).queue (removeKicks s gone).nextId := by
    rw [removeKicks_eq]
    exact ho.filter _
  dsimp only
  split
  · exact ⟨Inv.scheduled ho' ht (Duty.restarted (hq ▸ hn.2)), (running_evschedTask _ _).trans (running_removeKicks _ _)⟩
  · next he =>
    refine ⟨Inv.resting (by simpa using he) ht fun _ => ?_, running_removeKicks _ _⟩
    rw [removeKicks_eq]
    exact h.idle hr

theorem Inv.cleanedByGroup (group : Nat) (hs : RemovalSafe s fun kick => decide (kick.group = group)) :
    Inv (bmKickCleanupByGroup s group) ∧ (bmKickCleanupByGroup s group).running = s.running := by
  unfold bmKickCleanupByGroup
  cases hc : s.queue.any fun kick => decide (kick.group = group) && kick.measuring with
  | true =>
    obtain ⟨kick, hk, he⟩ := any_eq_true.mp hc
    rw [Bool.and_eq_true] at he
    simpa only [Bool.true_and] using h.restarted hr hk he.1 he.2
  | false =>
    simp only [Bool.false_and, Bool.false_eq_true, if_false]
    refine ⟨h.removedKicks hr hs fun k hk hg => ?_, running_removeKicks _ _⟩
    simpa [hg] using any_eq_false.mp hc k hk

theorem Inv.cleanedByClient (macaddr : Mac)
    (hs : RemovalSafe s fun kick => kick.macaddr == macaddr && !kick.measuring) :
    Inv (bmKickCleanupByClient s macaddr) :=
  h.removedKicks hr hs fun k _ hg => by simpa using (Bool.and_eq_true_iff.mp hg).2

theorem Inv.cleaned : Inv (bmKickCleanup s) := by
  unfold bmKickCleanup
  by_cases hm : ∃ kick ∈ s.queue, kick.measuring = true
  · obtain ⟨kick, hk, hm⟩ := hm
    have hq : (removeKicks s fun _ => true).queue = [] := by simp [removeKicks_eq]
    simpa [hq] using (@Inv.restarted s h hr (fun _ => true) kick hk rfl hm).1
  · refine h.removedKicks hr (fun _ _ _ _ _ _ => rfl) fun k hk _ => ?_
    cases hk' : k.measuring with
    | false => rfl
    | true => exact absurd ⟨k, hk, hk'⟩ hm

end

/-! ## Runs -/

/-- A call is safe where a kick that comes to the queue does not find it empty with a queue-run task scheduled. -/
def CallSafe (s : State) : Call → Prop
  | .fire _ _ _ => True
  | .kick client type _ a => KickSafe s client type a

instance (s : State) : (c : Call) → Decidable (CallSafe s c)
  | .fire _ _ _ => .isTrue trivial
  | .kick client type _ a => inferInstanceAs (Decidable (KickSafe s client type a))

def CallsSafe (s : State) : List Call → Prop
  | [] => True
  | c :: calls => CallSafe s c ∧ CallsSafe (c.step s) calls

def CallsSafe.decide (s : State) : (calls : List Call) → Decidable (CallsSafe s calls)
  | [] => .isTrue trivial
  | c :: calls => @instDecidableAnd _ _ inferInstance (CallsSafe.decide (c.step s) calls)

instance (s : State) (calls : List Call) : Decidable (CallsSafe s calls) := CallsSafe.decide s calls

def EventSafe (s : State) : Event → Prop
  | .kick client type _ a => KickSafe s client type a
  | .measurement _ _ => True
  | .timer calls => CallsSafe { s with running := true } calls
  | .removeClient macaddr => RemovalSafe s fun kick => kick.macaddr == macaddr && !kick.measuring
  | .removeGroup group => RemovalSafe s fun kick => decide (kick.group = group)
  | .cleanup => True

instance (s : State) : (e : Event) → Decidable (EventSafe s e)
  | .kick client type _ a => inferInstanceAs (Decidable (KickSafe s client type a))
  | .measurement _ _ => .isTrue trivial
  | .timer calls => inferInstanceAs (Decidable (CallsSafe { s with running := true } calls))
  | .removeClient _ => inferInstanceAs (Decidable (RemovalSafe s _))
  | .removeGroup _ => inferInstanceAs (Decidable (RemovalSafe s _))
  | .cleanup => .isTrue trivial

def RunSafe (s : State) : List Event → Prop
  | [] => True
  | e :: evs => EventSafe s e ∧ RunSafe (step s e) evs

def RunSafe.decide (s : State) : (evs : List Event) → Decidable (RunSafe s evs)
  | [] => .isTrue trivial
  | e :: evs => @instDecidableAnd _ _ inferInstance (RunSafe.decide (step s e) evs)

instance (s : State) (evs : List Event) : Decidable (RunSafe s evs) := RunSafe.decide s evs

theorem Inv.called (h : Inv s) (hr : s.running = true) (calls : List Call) (hs : CallsSafe s calls) :
    Inv (calls.foldl Call.step s) := by
  induction calls generalizing s with
  | nil => exact h
  | cons c calls ih =>
    obtain ⟨hc, hcs⟩ := hs
    have hst : Inv (c.step s) ∧ (c.step s).running = true := by
      cases c with
      | fire i clients ret => exact h.fired hr i clients ret
      | kick client type rssi a => exact (h.kicked hc rssi).imp_right (·.trans hr)
    exact ih hst.1 hst.2 hcs

/-- Between events the scheduler does not run, and nothing waits. -/
structure Between (s : State) : Prop extends Inv s where
  stopped : s.running = false

theorem Between.start : Between start := ⟨Inv.resting rfl rfl fun _ => rfl, rfl⟩

theorem Inv.endTimer (h : Inv s) : Between (endTimer s) where
  ordered := h.ordered
  duty := by simpa [BmKick.endTimer, tasks] using h.duty
  idle _ := rfl
  stopped := rfl

theorem Between.next {s' : State} (h : Between s) (h' : Inv s' ∧ s'.running = s.running) : Between s' :=
  ⟨h'.1, h'.2.trans h.stopped⟩

theorem Between.stepped (h : Between s) (e : Event) (hs : EventSafe s e) : Between (step s e) := by
  have hr := h.stopped
  have hi := h.toInv
  cases e with
  | kick client type rssi a => exact h.next (hi.kicked hs rssi)
  | measurement macaddr rssi => exact h.next (hi.measured macaddr rssi)
  | timer calls =>
    have hru : Inv { s with running := true } := ⟨hi.ordered, hi.duty, fun hc => absurd hc (by simp)⟩
    exact (hru.called rfl calls hs).endTimer
  | removeClient macaddr => exact h.next ⟨hi.cleanedByClient hr macaddr hs, running_removeKicks s _⟩
  | removeGroup group => exact h.next (hi.cleanedByGroup hr group hs)
  | cleanup => exact h.next ⟨hi.cleaned hr, running_removeKicks s _⟩

theorem Between.ran (h : Between s) (evs : List Event) (hs : RunSafe s evs) : Between (run s evs) := by
  induction evs generalizing s with
  | nil => exact h
  | cons e evs ih => exact ih (h.stepped e hs.1) hs.2

theorem RunSafe.of_append {evs more : List Event} (h : RunSafe s (evs ++ more)) : RunSafe s evs := by
  induction evs generalizing s with
  | nil => trivial
  | cons e evs ih => exact ⟨h.1, ih h.2⟩

/-- The entries are of different clients, the head is served in exactly one way, and no task is for an entry that has left
the queue. -/
structure Healthy (s : State) : Prop where
  macs : (s.queue.map Kick.macaddr).Nodup
  served : ∀ kick ∈ s.queue.head?,
    [kick.measuring, decide (Task.kick kick.id ∈ s.tasks), decide (Task.queueRun ∈ s.tasks)].count true = 1
  notFreed : ∀ t ∈ s.tasks, t = .queueRun ∨ ∃ kick ∈ s.queue, t = .kick kick.id

theorem Inv.healthy (h : Inv s) : Healthy s := by
  have hd := h.duty
  refine ⟨h.ordered.macs, ?_, ?_⟩
  · generalize s.queue = queue at hd
    generalize s.tasks = tasks at hd
    cases hd with
    | idle | late => simp
    | measuring k rest hm | kick k rest hm | queueRun k rest hm => simp [hm]
  · generalize s.queue = queue at hd
    generalize s.tasks = tasks at hd
    cases hd <;> simp

/-- In every run in which no removal takes a head whose kick task is scheduled from a queue that goes on, and no kick starts
the queue while a queue-run task is scheduled, the queue is served properly after every event. -/
theorem kick_queue_served (evs : List Event) (hs : RunSafe start evs) (before : List Event) (hb : before <+: evs) :
    Healthy (run start before) := by
  obtain ⟨more, rfl⟩ := hb
  exact (Between.start.ran before hs.of_append).toInv.healthy

/-! A client to be forced off, and one to be measured before. -/

def home : Group := ⟨1, false⟩

def clientOn (macaddr : Mac) : Client where
  macaddr := macaddr
  ifname := "home-ap-50"
  group := some home
  connected := true
  state := .connected
  kickType := .deauth
  stickyKickType := .deauth
  scKickType := .disassoc
  forceKickType := .directed
  kickReason := 1
  stickyKickReason := 1
  scKickReason := 8
  kickDebouncePeriod := 90
  stickyKickDebouncePeriod := 90
  scKickDebouncePeriod := 2
  hwm := 50
  lwm := 20
  lastConnect := 0
  prefAllowed := .never
  skipStickyKickTill := 0
  skipSteeringKickTill := 0
  isBTMSupported := false
  bcnRptActive := false

def anHour : Around := ⟨3600, 2, false, true, fun _ => true, true, true⟩

/-- A client is forced off while another one is measured; the other one is kicked for its weak signal. -/
def twoKicks : List Event :=
  [.kick (clientOn 1) .sticky 15 anHour, .timer [.fire 0 [clientOn 1, clientOn 2] .started],
    .kick (clientOn 2) .force 0 anHour, .measurement 1 12, .timer [.fire 0 [clientOn 1, clientOn 2] .started],
    .timer [.fire 0 [clientOn 1, clientOn 2] .started], .timer [.fire 0 [clientOn 1, clientOn 2] .started]]

theorem twoKicks_served : RunSafe start twoKicks ∧ Healthy (run start twoKicks) ∧
    (run start twoKicks).disconnects = [(1, .deauth, 1), (2, .disassoc, 8)] :=
  have hs : RunSafe start twoKicks := by decide +kernel
  ⟨hs, kick_queue_served twoKicks hs twoKicks (prefix_refl _), by decide +kernel⟩

/-- The client at the head is deleted when its kick task is scheduled already. -/
def headDeleted : List Event :=
  [.kick (clientOn 1) .force 0 anHour, .kick (clientOn 2) .force 0 anHour,
    .timer [.fire 0 [clientOn 1, clientOn 2] .started], .removeClient 1]

/-- The only client in the queue is deleted before the queue-run task has come, and two more are kicked. The first of them is
gone when the tasks come. -/
def startedTwice : List Event :=
  [.kick (clientOn 1) .force 0 anHour, .removeClient 1, .kick (clientOn 2) .sticky 15 anHour,
    .kick (clientOn 3) .force 0 anHour, .timer [.fire 0 [clientOn 3] .started, .fire 0 [clientOn 3] .started]]

/-- After the first run nobody serves the queue, and after the second both a kick task and a queue-run task do. -/
theorem kick_queue_not_served :
    (((run start headDeleted).queue.map Kick.macaddr, (run start headDeleted).tasks) = ([2], []) ∧
      ¬ Healthy (run start headDeleted)) ∧
    (((run start startedTwice).queue.map Kick.id, (run start startedTwice).tasks) = ([2], [.queueRun, .kick 2]) ∧
      ¬ Healthy (run start startedTwice)) := by
  refine ⟨⟨by decide +kernel, fun h => ?_⟩, ⟨by decide +kernel, fun h => ?_⟩⟩
  · exact absurd h.served (by decide +kernel)
  · exact absurd h.served (by decide +kernel)

end OpenSync.BmKick
