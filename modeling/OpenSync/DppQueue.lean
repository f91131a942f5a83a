import Mathlib.Tactic

/-!
# The queue of statistics

`dppline_put` drops one entry where the queue exceeds a limit. A report takes entries from the front as long as it fits.
-/

namespace OpenSync.Dpp
open List

def dppMaxQueueDepth : ℕ := 200
def dppMaxQueueSizeBytes : ℕ := 2 * 1024 * 1024

/-- The two counters are of type `uint32_t`. -/
structure Queue (α : Type) where
  list : List α
  depth : ℕ
  bytes : ℕ

/-- How entries leave the queue: dropped while the counters have these values, or in a report for a buffer. -/
inductive Departure (α : Type)
  | dropped (depth bytes : ℕ) (s : α)
  | report (sz : ℕ) (entries : List α)

/-- The queue, the entries it has accepted and those that have left it. -/
structure State (α : Type) where
  queue : Queue α
  accepted : List α
  departures : List (Departure α)

inductive Call (α : Type)
  | put (copied : Option α)
  | getReport (sz : ℕ)

variable {α : Type} (size : α → ℕ) (packedSize : List α → ℕ)

def removeHead (q : Queue α) : Queue α × List (Departure α) :=
  match q.list with
  | [] => (q, [])
  | s :: list =>
    (⟨list, (q.depth + (2 ^ 32 - 1)) % 2 ^ 32, (q.bytes + (2 ^ 32 - size s)) % 2 ^ 32⟩, [.dropped q.depth q.bytes s])

def put (q : Queue α) (s : α) : Queue α × List (Departure α) :=
  let q : Queue α := ⟨q.list ++ [s], (q.depth + 1) % 2 ^ 32, (q.bytes + size s) % 2 ^ 32⟩
  if q.depth > dppMaxQueueDepth ∨ q.bytes > dppMaxQueueSizeBytes then removeHead size q else (q, [])

/-- The loop of `dpp_get_report`: what the buffer holds, and the queue that is left. -/
def reportLoop (sz : ℕ) (report : List α) : List α → ℕ → ℕ → List α × Queue α
  | [], depth, bytes => (report, ⟨[], depth, bytes⟩)
  | s :: list, depth, bytes =>
    if sz < packedSize (report ++ [s]) then (report, ⟨s :: list, depth, bytes⟩)
    else if depth = 0 then (report ++ [s], ⟨list, depth, bytes⟩)
    else reportLoop sz (report ++ [s]) list (depth - 1) ((bytes + (2 ^ 32 - size s)) % 2 ^ 32)

def getReport (sz : ℕ) (q : Queue α) : List α × Queue α :=
  if q.list = [] ∨ sz = 0 then ([], q) else reportLoop size packedSize sz [] q.list q.depth q.bytes

def step (st : State α) : Call α → State α
  | .put none => st
  | .put (some s) =>
    let (queue, dropped) := put size st.queue s
    ⟨queue, st.accepted ++ [s], st.departures ++ dropped⟩
  | .getReport sz =>
    let (report, queue) := getReport size packedSize sz st.queue
    { st with queue, departures := st.departures ++ if report = [] then [] else [.report sz report] }

/-! ## What holds of a run -/

def total (l : List α) : ℕ := (l.map size).sum

def counted (l : List α) : Queue α := ⟨l, l.length, total size l⟩

def Departure.entries : Departure α → List α
  | .dropped _ _ s => [s]
  | .report _ entries => entries

def Departure.Allowed : Departure α → Prop
  | .dropped depth bytes _ => dppMaxQueueDepth < depth ∨ dppMaxQueueSizeBytes < bytes
  | .report sz entries => packedSize entries ≤ sz

structure Bounded (st : State α) : Prop where
  counters : st.queue = counted size st.queue.list
  depth : st.queue.list.length ≤ dppMaxQueueDepth
  bytes : total size st.queue.list ≤ dppMaxQueueSizeBytes
  fifo : st.accepted = st.departures.flatMap Departure.entries ++ st.queue.list
  allowed : ∀ d ∈ st.departures, d.Allowed packedSize

/-- An entry does not make the queue exceed its size by more than the oldest entry. -/
def SafeCall (st : State α) : Call α → Prop
  | .put (some s) => ∀ first ∈ (st.queue.list ++ [s]).head?,
      total size st.queue.list + size s ≤ dppMaxQueueSizeBytes + size first
  | _ => True

def SafeRun (st : State α) : List (Call α) → Prop
  | [] => True
  | c :: cs => SafeCall size st c ∧ SafeRun (step size packedSize st c) cs

variable {size packedSize} {st : State α}

@[simp] theorem total_cons (s : α) (l : List α) : total size (s :: l) = size s + total size l := by simp [total]

theorem total_rest (size : α → ℕ) {l rest : List α} {s first : α} (hl : l ++ [s] = first :: rest) :
    total size l + size s = size first + total size rest ∧ l.length = rest.length := by
  constructor
  · simpa [total] using congrArg (total size) hl
  · simpa using congrArg length hl

theorem put_counted {l rest : List α} {s first : α} (hs : ∀ a, size a < 2 ^ 31) (hl : l ++ [s] = first :: rest)
    (hd : l.length ≤ dppMaxQueueDepth) (hb : total size l ≤ dppMaxQueueSizeBytes) :
    put size (counted size l) s = if dppMaxQueueDepth < l.length + 1 ∨ dppMaxQueueSizeBytes < total size l + size s
      then (counted size rest, [.dropped (l.length + 1) (total size l + size s) first]) else (counted size (l ++ [s]), []) := by
  obtain ⟨ht, hn⟩ := total_rest size hl
  have hm : (l.length + 1) % 2 ^ 32 = l.length + 1 := Nat.mod_eq_of_lt (by unfold dppMaxQueueDepth at hd; omega)
  have hm' : (total size l + size s) % 2 ^ 32 = total size l + size s :=
    Nat.mod_eq_of_lt (by have := hs s; unfold dppMaxQueueSizeBytes at hb; omega)
  have hdep : (l.length + 1 + (2 ^ 32 - 1)) % 2 ^ 32 = rest.length := by omega
  have hby : (total size l + size s + (2 ^ 32 - size first)) % 2 ^ 32 = total size rest := by omega
  simp only [put, counted, hm, hm', hl, removeHead, gt_iff_lt, hdep, hby]
  simp [ht, hn]

theorem reportLoop_spec (hs : ∀ a, size a < 2 ^ 31) {sz : ℕ} {l : List α} (report : List α)
    (hb : total size l ≤ dppMaxQueueSizeBytes) (hr : report ≠ [] → packedSize report ≤ sz) :
    ∃ taken rest, l = taken ++ rest ∧
      reportLoop size packedSize sz report l l.length (total size l) = (report ++ taken, counted size rest) ∧
      (report ++ taken ≠ [] → packedSize (report ++ taken) ≤ sz) := by
  induction l generalizing report with
  | nil => exact ⟨[], [], rfl, by simp [reportLoop, counted], by simpa using hr⟩
  | cons s l ih =>
    rw [total_cons] at hb
    have hm : (total size (s :: l) + (2 ^ 32 - size s)) % 2 ^ 32 = total size l := by
      unfold dppMaxQueueSizeBytes at hb
      rw [total_cons]
      omega
    unfold reportLoop
    split
    · exact ⟨[], s :: l, rfl, by simp [counted], by simpa using hr⟩
    · rename_i hle
      obtain ⟨taken, rest, hl, ho, hp⟩ := ih (report ++ [s]) (by omega) fun _ => not_lt.mp hle
      refine ⟨s :: taken, rest, congrArg (s :: ·) hl, ?_, by simpa using hp⟩
      rw [if_neg (by simp), length_cons, Nat.add_sub_cancel, hm, ho]
      simp

theorem getReport_counted (packedSize : List α → ℕ) (hs : ∀ a, size a < 2 ^ 31) {l : List α}
    (hb : total size l ≤ dppMaxQueueSizeBytes) (sz : ℕ) :
    ∃ taken rest, l = taken ++ rest ∧ getReport size packedSize sz (counted size l) = (taken, counted size rest) ∧
      (taken ≠ [] → packedSize taken ≤ sz) := by
  unfold getReport
  split
  · exact ⟨[], l, rfl, rfl, absurd rfl⟩
  · exact reportLoop_spec hs [] hb (absurd rfl)

theorem Bounded.stepped (hs : ∀ a, size a < 2 ^ 31) (h : Bounded size packedSize st) {c : Call α}
    (hc : SafeCall size st c) : Bounded size packedSize (step size packedSize st c) := by
  obtain ⟨⟨l, depth, bytes⟩, accepted, departures⟩ := st
  obtain ⟨hq, hd, hb, hf, ha⟩ := h
  simp only at hq hd hb hf ha hc
  cases c with
  | put copied =>
    cases copied with
    | none => exact ⟨hq, hd, hb, hf, ha⟩
    | some s =>
      obtain ⟨first, rest, hl⟩ : ∃ first rest, l ++ [s] = first :: rest := exists_cons_of_ne_nil (by simp)
      obtain ⟨ht, hn⟩ := total_rest size hl
      have hsa : total size l + size s ≤ dppMaxQueueSizeBytes + size first := hc first (by simp [hl])
      simp only [step, hq, put_counted hs hl hd hb]
      split
      · rename_i hx
        refine ⟨rfl, hn ▸ hd, ?_, by simp [counted, hf, hl, Departure.entries], ?_⟩
        · have hle : total size rest ≤ dppMaxQueueSizeBytes := by omega
          exact hle
        · exact forall_mem_append.mpr ⟨ha, forall_mem_singleton.mpr hx⟩
      · rename_i hx
        rw [not_or, not_lt, not_lt] at hx
        refine ⟨rfl, ?_, ?_, by simp [counted, hf], by simpa using ha⟩
        · simpa [counted] using hx.1
        · simpa [counted, total] using hx.2
  | getReport sz =>
    obtain ⟨taken, rest, rfl, hg, hp⟩ := getReport_counted packedSize hs hb sz
    simp only [step, hq, hg]
    rw [length_append] at hd
    rw [total, map_append, sum_append] at hb
    refine ⟨rfl, (Nat.le_add_left ..).trans hd, (Nat.le_add_left ..).trans hb, ?_, forall_mem_append.mpr ⟨ha, ?_⟩⟩
    · split <;> simp_all [counted, Departure.entries]
    · split
      · simp
      · exact forall_mem_singleton.mpr (hp ‹_›)

def started : State α := ⟨⟨[], 0, 0⟩, [], []⟩

end OpenSync.Dpp
