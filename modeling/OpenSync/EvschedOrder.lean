import OpenSync.EvschedCancel

/-!
# The order of the task list

The list is sorted by trigger time, and the timer is armed for its first task or for an earlier time. A jump of the clock
spoils this if a task behind those that are made to run at once should have run already.
-/

namespace OpenSync.Evsched
open List

variable {s : Sched} {l : List Entry} {time : ℚ} {ts : List Task}

/-- Each task comes no later than those behind it. -/
def Sorted (ts : List Task) : Prop := ts.Pairwise (·.triggerTime ≤ ·.triggerTime)

instance (ts : List Task) : Decidable (Sorted ts) := inferInstanceAs (Decidable (ts.Pairwise _))

def old (time : ℚ) (tp : Task) : Bool := decide (time - tp.schedTime > timeJumpThreshold)

/-- The first task behind those that a jump of the clock makes run at once does not come before them. -/
def JumpSafe (time : ℚ) (ts : List Task) : Prop :=
  ∀ tp ∈ ts.head?, old time tp = true → ∀ tp' ∈ (ts.dropWhile (old time)).head?, time ≤ tp'.triggerTime

instance (time : ℚ) (ts : List Task) : Decidable (JumpSafe time ts) :=
  inferInstanceAs (Decidable (∀ tp ∈ ts.head?, old time tp = true → ∀ tp' ∈ (ts.dropWhile (old time)).head?, _))

/-! ## Lists of tasks -/

theorem fixTimeJump_eq (time : ℚ) (ts : List Task) :
    fixTimeJump time ts = (ts.takeWhile (old time)).map (fun tp => { tp with schedTime := time, triggerTime := time }) ++
      ts.dropWhile (old time) := by
  induction ts with
  | nil => rfl
  | cons tp ts ih =>
    rw [fixTimeJump]
    by_cases ho : time - tp.schedTime > timeJumpThreshold
    · rw [if_pos ho, ih, takeWhile_cons_of_pos (by simpa [old] using ho),
        dropWhile_cons_of_pos (by simpa [old] using ho)]
      rfl
    · rw [if_neg ho, takeWhile_cons_of_neg (by simpa [old] using ho), dropWhile_cons_of_neg (by simpa [old] using ho)]
      rfl

variable {tp t : Task}

theorem Sorted.le_head (h : Sorted (tp :: ts)) (ht : t ∈ ts) : tp.triggerTime ≤ t.triggerTime :=
  rel_of_pairwise_cons h ht

theorem Sorted.le_of_head (h : Sorted ts) (hh : tp ∈ ts.head?) (ht : t ∈ ts) : tp.triggerTime ≤ t.triggerTime := by
  cases ts with
  | nil => exact absurd ht not_mem_nil
  | cons tp' ts =>
    rw [head?_cons, Option.mem_some_iff] at hh
    subst hh
    rcases mem_cons.mp ht with rfl | ht
    · exact le_rfl
    · exact h.le_head ht

theorem Sorted.insertTask (h : Sorted ts) (ntp : Task) : Sorted (insertTask ntp ts) := by
  induction ts with
  | nil => exact pairwise_singleton _ _
  | cons tp ts ih =>
    rw [Evsched.insertTask]
    split_ifs with hlt
    · exact pairwise_cons.mpr ⟨forall_mem_cons.mpr ⟨hlt.le, fun t ht => hlt.le.trans (h.le_head ht)⟩, h⟩
    · refine pairwise_cons.mpr ⟨fun t ht => ?_, ih (List.Pairwise.of_cons h)⟩
      rcases mem_cons.mp ((insertTask_perm ntp ts).mem_iff.mp ht) with rfl | ht
      · exact not_lt.mp hlt
      · exact h.le_head ht

theorem JumpSafe.le (hs : JumpSafe time ts) (h : Sorted ts) (hh : tp ∈ ts.head?)
    (ho : old time tp = true) (ht : t ∈ fixTimeJump time ts) : time ≤ t.triggerTime := by
  rw [fixTimeJump_eq] at ht
  rcases mem_append.mp ht with ht | ht
  · obtain ⟨t', -, rfl⟩ := mem_map.mp ht
    exact le_rfl
  cases hd : ts.dropWhile (old time) with
  | nil => simp [hd] at ht
  | cons t' rest =>
    have hsu : Sorted (t' :: rest) := hd ▸ List.Pairwise.sublist (dropWhile_sublist _) h
    have hf := hs tp hh ho t' (by simp [hd])
    rw [hd] at ht
    exact hf.trans (hsu.le_of_head rfl ht)

theorem fixTimeJump_of_new (h : ∀ tp ∈ ts.head?, old time tp = false) : fixTimeJump time ts = ts := by
  cases ts with
  | nil => rfl
  | cons tp ts =>
    have hn := h tp rfl
    rw [fixTimeJump, if_neg (by simpa [old] using hn)]

theorem Sorted.fixTimeJump (h : Sorted ts) (hs : JumpSafe time ts) : Sorted (fixTimeJump time ts) := by
  cases ts with
  | nil => exact List.Pairwise.nil
  | cons tp ts =>
    cases ho : old time tp with
    | false =>
      rw [fixTimeJump_of_new (by simpa using ho)]
      exact h
    | true =>
      have hle : ∀ t ∈ Evsched.fixTimeJump time (tp :: ts), time ≤ t.triggerTime := fun t ht => hs.le h rfl ho ht
      rw [fixTimeJump_eq] at hle ⊢
      refine pairwise_append.mpr ⟨?_, List.Pairwise.sublist (dropWhile_sublist _) h, ?_⟩
      · exact pairwise_map.mpr (pairwise_of_forall fun _ _ => le_rfl)
      · intro t ht t' ht'
        obtain ⟨t₁, -, rfl⟩ := mem_map.mp ht
        exact hle t' (mem_append_right _ ht')

/-! ## Insertion -/

/-- The timer runs out before any task of the list comes. -/
def Armed (s : Sched) : Prop := ∀ t ∈ s.tasklist, ∃ due ∈ s.timer, due ≤ t.triggerTime

instance (s : Sched) : Decidable (Armed s) := inferInstanceAs (Decidable (∀ t ∈ s.tasklist, ∃ due ∈ s.timer, _))

def placed (tp : Task) : Task := { tp with triggerTime := tp.schedTime + tp.ms / 1000, resched := false }

theorem le_placed (tp : Task) : tp.schedTime ≤ (placed tp).triggerTime := by
  have hms : (0 : ℚ) ≤ tp.ms / 1000 := div_nonneg (Nat.cast_nonneg _) (by norm_num)
  exact le_add_of_nonneg_right hms

theorem isTimeJump_eq_true (h : isTimeJump time ts = true) : ∃ tp ∈ ts.head?, old time tp = true := by
  cases ts with
  | nil => simp [isTimeJump] at h
  | cons tp ts => exact ⟨tp, rfl, h⟩

theorem isTimeJump_eq_false (h : isTimeJump time ts = false) : ∀ tp ∈ ts.head?, old time tp = false := by
  cases ts with
  | nil => simp
  | cons tp ts => simpa [isTimeJump, old] using h

theorem evschedTaskInsert_timer (s : Sched) (tp : Task) :
    (evschedTaskInsert s tp true).timer = if insertsFirst (placed tp) (fixTimeJump tp.schedTime s.tasklist) then
        some (s.now + ((placed tp).triggerTime - tp.schedTime))
      else if isTimeJump tp.schedTime s.tasklist then some (s.now + 0) else s.timer := by
  unfold evschedTaskInsert evschedResetTimer placed
  simp only [Bool.and_true, Bool.true_and]
  split_ifs <;> rfl

theorem Sorted.le_of_insertsFirst {ntp t : Task} (h : Sorted ts) (hf : insertsFirst ntp ts = true) (ht : t ∈ ts) :
    ntp.triggerTime ≤ t.triggerTime := by
  cases ts with
  | nil => exact absurd ht not_mem_nil
  | cons tp ts =>
    have hlt : ntp.triggerTime < tp.triggerTime := of_decide_eq_true hf
    exact hlt.le.trans (h.le_of_head rfl ht)

theorem exists_head_le {ntp : Task} (hf : ¬ insertsFirst ntp ts = true) :
    ∃ tp ∈ ts, tp.triggerTime ≤ ntp.triggerTime := by
  cases ts with
  | nil => exact absurd rfl hf
  | cons tp ts =>
    refine ⟨tp, mem_cons_self, ?_⟩
    simpa [insertsFirst] using hf

theorem Armed.inserted {tp : Task} (h : Armed s) (hs : Sorted s.tasklist) (hsa : JumpSafe s.now s.tasklist)
    (hn : tp.schedTime = s.now) : Armed (evschedTaskInsert s tp true) := by
  intro t ht
  have hm : t = placed tp ∨ t ∈ fixTimeJump s.now s.tasklist := by
    rw [evschedTaskInsert_tasklist] at ht
    exact hn ▸ mem_cons.mp ((insertTask_perm _ _).mem_iff.mp ht)
  have hp : s.now ≤ (placed tp).triggerTime := hn ▸ le_placed tp
  rw [evschedTaskInsert_timer, hn]
  by_cases hf : insertsFirst (placed tp) (fixTimeJump s.now s.tasklist) = true
  · rw [if_pos hf]
    refine ⟨_, rfl, ?_⟩
    have hle : (placed tp).triggerTime ≤ t.triggerTime :=
      hm.elim (fun he => he ▸ le_rfl) ((hs.fixTimeJump hsa).le_of_insertsFirst hf)
    linarith
  rw [if_neg hf]
  cases hj : isTimeJump s.now s.tasklist with
  | true =>
    -- The first task has been made to run at once, and nothing comes before it.
    obtain ⟨tp', hh, ho⟩ := isTimeJump_eq_true hj
    refine ⟨_, rfl, ?_⟩
    have hle : s.now ≤ t.triggerTime := hm.elim (fun he => he ▸ hp) (hsa.le hs hh ho)
    linarith
  | false =>
    rw [fixTimeJump_of_new (isTimeJump_eq_false hj)] at hm hf
    rcases hm with rfl | hm
    · obtain ⟨tp', htp, hle⟩ := exists_head_le hf
      obtain ⟨due, hd, hle'⟩ := h tp' htp
      exact ⟨due, hd, hle'.trans hle⟩
    · exact h t hm

end OpenSync.Evsched
