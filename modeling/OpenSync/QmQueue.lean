import OpenSync.Qm

/-!
# The queue of messages

`qm_queue.c` keeps messages in a list with counters for their number and their bytes, and drops the oldest ones to make
room for a new one. A counter is an `int`; next to a `size_t` it is one too.
-/

namespace OpenSync.Qm
open List

def qmMaxQueueDepth : ℕ := 200

def qmMaxQueueSizeBytes : ℕ := 2 * 1024 * 1024

/-- A message that is not a log; its size is the `data_size` of its request. -/
structure QmItem where
  topic : List Byte
  size : UInt32

structure QmQueue where
  queue : List QmItem
  length : ℤ
  size : ℤ

/-- The `int` that a sum with a `size_t` is stored as. -/
def asInt (n : ℤ) : ℤ := Int.bmod n (2 ^ 32)

def Full (qi : QmItem) (length size : ℤ) : Prop :=
  qmMaxQueueDepth ≤ length ∨ qmMaxQueueSizeBytes < (size + qi.size.toNat) % 2 ^ 64

instance (qi : QmItem) (length size : ℤ) : Decidable (Full qi length size) := inferInstanceAs (Decidable (_ ∨ _))

/-- The loop of `qm_queue_make_room` and how often it goes round. With nothing left to drop it would go round for ever. -/
def makeRoomLoop (qi : QmItem) : List QmItem → ℤ → ℤ → Option (QmQueue × ℕ)
  | [], length, size => if Full qi length size then none else some (⟨[], length, size⟩, 0)
  | item :: queue, length, size =>
    if Full qi length size then
      (makeRoomLoop qi queue (length - 1) (asInt (size - item.size.toNat))).map fun r => (r.1, r.2 + 1)
    else some (⟨item :: queue, length, size⟩, 0)

def qmQueueMakeRoom (q : QmQueue) (qi : QmItem) : Option (Bool × QmQueue × ℕ) :=
  if qmMaxQueueSizeBytes < qi.size.toNat then some (false, q, 0)
  else (makeRoomLoop qi q.queue q.length q.size).map (Prod.mk true)

/-- The result, the queue and the number of messages that were dropped. -/
def qmQueuePut (q : QmQueue) (qi : QmItem) : Option (Bool × QmQueue × ℕ) :=
  (qmQueueMakeRoom q qi).map fun r =>
    if r.1 then (true, ⟨r.2.1.queue ++ [qi], r.2.1.length + 1, asInt (r.2.1.size + qi.size.toNat)⟩, r.2.2) else r

/-- The message that is removed is given by its place. -/
def qmQueueRemove (q : QmQueue) (i : ℕ) : QmQueue :=
  match q.queue[i]? with
  | none => q
  | some item => ⟨q.queue.eraseIdx i, q.length - 1, asInt (q.size - item.size.toNat)⟩

def qmQueueGet (q : QmQueue) : Option QmItem × QmQueue := (q.queue.head?, qmQueueRemove q 0)

inductive QueueOp
  | put (qi : QmItem)
  | get
  | remove (i : ℕ)

def queueStep (q : QmQueue) : QueueOp → Option QmQueue
  | .put qi => (qmQueuePut q qi).map fun r => r.2.1
  | .get => some (qmQueueGet q).2
  | .remove i => some (qmQueueRemove q i)

/-! ## Messages and counters -/

def bytes (l : List QmItem) : ℕ := (l.map fun qi => qi.size.toNat).sum

/-- A queue whose counters are right. -/
def counted (l : List QmItem) : QmQueue := ⟨l, l.length, bytes l⟩

def Bounded (l : List QmItem) : Prop := l.length ≤ qmMaxQueueDepth ∧ bytes l ≤ qmMaxQueueSizeBytes

theorem bytes_cons (qi : QmItem) (l : List QmItem) : bytes (qi :: l) = qi.size.toNat + bytes l := by simp [bytes]

theorem asInt_of_le {n : ℤ} (hn : 0 ≤ n) (hle : n ≤ qmMaxQueueSizeBytes) : asInt n = n := by
  rw [qmMaxQueueSizeBytes] at hle
  exact Int.bmod_eq_of_le (by omega) (by omega)

variable {qi : QmItem} {l : List QmItem}

theorem bounded_append : Bounded (l ++ [qi]) ↔
    l.length + 1 ≤ qmMaxQueueDepth ∧ bytes l + qi.size.toNat ≤ qmMaxQueueSizeBytes := by
  simp [Bounded, bytes]

theorem full_iff (hs : qi.size.toNat ≤ qmMaxQueueSizeBytes) (hl : Bounded l) :
    Full qi l.length (bytes l) ↔ ¬ Bounded (l ++ [qi]) := by
  have hb := hl.2
  rw [bounded_append, Full]
  simp only [qmMaxQueueSizeBytes] at *
  omega

theorem makeRoomLoop_counted (hs : qi.size.toNat ≤ qmMaxQueueSizeBytes) (hl : Bounded l) :
    ∃ k, makeRoomLoop qi l l.length (bytes l) = some (counted (l.drop k), k) ∧ Bounded (l.drop k ++ [qi]) ∧
      ∀ j < k, ¬ Bounded (l.drop j ++ [qi]) := by
  induction l with
  | nil =>
    have hr : Bounded ([] ++ [qi]) := bounded_append.mpr ⟨by decide, by simpa [bytes] using hs⟩
    exact ⟨0, if_neg ((full_iff hs hl).not_left.mpr hr), hr, nofun⟩
  | cons item l ih =>
    by_cases hr : Bounded (item :: l ++ [qi])
    · exact ⟨0, if_neg ((full_iff hs hl).not_left.mpr hr), hr, nofun⟩
    have hc := bytes_cons item l
    have hl' : Bounded l := ⟨Nat.le_of_succ_le hl.1, by have := hl.2; omega⟩
    obtain ⟨k, hk, hr', hm⟩ := ih hl'
    refine ⟨k + 1, ?_, hr', fun j hj => ?_⟩
    · have hle : ((item :: l).length : ℤ) - 1 = l.length := by simp
      have hb : (bytes (item :: l) : ℤ) - item.size.toNat = bytes l := by omega
      rw [makeRoomLoop, if_pos ((full_iff hs hl).mpr hr), hle, hb,
        asInt_of_le (Int.natCast_nonneg _) (Int.ofNat_le.mpr hl'.2), hk]
      rfl
    · cases j with
      | zero => exact hr
      | succ j => exact hm j (Nat.lt_of_succ_lt_succ hj)

def PutFits (l : List QmItem) (qi : QmItem) : Prop :=
  if qi.size.toNat ≤ qmMaxQueueSizeBytes then
    ∃ k, qmQueuePut (counted l) qi = some (true, counted (l.drop k ++ [qi]), k) ∧ Bounded (l.drop k ++ [qi]) ∧
      ∀ j < k, ¬ Bounded (l.drop j ++ [qi])
  else qmQueuePut (counted l) qi = some (false, counted l, 0)

theorem putFits (hl : Bounded l) (qi : QmItem) : PutFits l qi := by
  rw [PutFits]
  split_ifs with hs
  · obtain ⟨k, hk, hr⟩ := makeRoomLoop_counted hs hl
    refine ⟨k, ?_, hr⟩
    have hlo : makeRoomLoop qi (counted l).queue (counted l).length (counted l).size = _ := hk
    have hsu : ((bytes (l.drop k) : ℤ) + qi.size.toNat) = bytes (l.drop k ++ [qi]) := by simp [bytes]
    rw [qmQueuePut, qmQueueMakeRoom, if_neg (by omega), hlo]
    simp only [Option.map_some, counted, hsu, if_true,
      asInt_of_le (Int.natCast_nonneg _) (Int.ofNat_le.mpr hr.1.2), length_append, length_singleton]
    rfl
  · rw [qmQueuePut, qmQueueMakeRoom, if_pos (by omega)]
    rfl

theorem qmQueueRemove_counted (hl : Bounded l) (i : ℕ) :
    qmQueueRemove (counted l) i = counted (l.eraseIdx i) ∧ Bounded (l.eraseIdx i) := by
  by_cases hi : i < l.length
  · have hp := getElem_cons_eraseIdx_perm hi
    have hb : bytes l = l[i].size.toNat + bytes (l.eraseIdx i) := by
      rw [← bytes_cons, bytes, bytes, (hp.map _).sum_nat]
    have hle := hp.length_eq
    rw [length_cons] at hle
    have hl' : Bounded (l.eraseIdx i) := ⟨by have := hl.1; omega, by have := hl.2; omega⟩
    have hs : (bytes l : ℤ) - l[i].size.toNat = bytes (l.eraseIdx i) := by omega
    refine ⟨?_, hl'⟩
    simp only [qmQueueRemove, counted, getElem?_eq_getElem hi, hs,
      asInt_of_le (Int.natCast_nonneg _) (Int.ofNat_le.mpr hl'.2), ← hle]
    simp
  · have hn : l[i]? = none := getElem?_eq_none (by omega)
    rw [eraseIdx_of_length_le (by omega)]
    exact ⟨by simp only [qmQueueRemove, counted, hn], hl⟩

theorem queueStep_counted (hl : Bounded l) (op : QueueOp) :
    ∃ l', queueStep (counted l) op = some (counted l') ∧ Bounded l' := by
  cases op with
  | put qi =>
    have hp := putFits hl qi
    rw [PutFits] at hp
    split_ifs at hp
    · obtain ⟨k, hk, hr, -⟩ := hp
      exact ⟨_, by rw [queueStep, hk]; rfl, hr⟩
    · exact ⟨l, by rw [queueStep, hp]; rfl, hl⟩
  | get =>
    obtain ⟨hq, hl'⟩ := qmQueueRemove_counted hl 0
    exact ⟨_, congrArg some hq, hl'⟩
  | remove i =>
    obtain ⟨hq, hl'⟩ := qmQueueRemove_counted hl i
    exact ⟨_, congrArg some hq, hl'⟩

/-- The queue is bounded and its counters are right after any operations; a message that is small enough is put into it
when the fewest possible of the oldest messages were dropped, and any other is refused. -/
theorem queue_bounded_fifo (ops : List QueueOp) :
    ∃ l, ops.foldlM queueStep (counted []) = some (counted l) ∧ Bounded l ∧ (∀ qi, PutFits l qi) ∧
      qmQueueGet (counted l) = (l.head?, counted l.tail) ∧
      ∀ i, qmQueueRemove (counted l) i = counted (l.eraseIdx i) := by
  suffices hr : ∃ l, ops.foldlM queueStep (counted []) = some (counted l) ∧ Bounded l by
    obtain ⟨l, hr, hl⟩ := hr
    refine ⟨l, hr, hl, putFits hl, ?_, fun i => (qmQueueRemove_counted hl i).1⟩
    rw [qmQueueGet, (qmQueueRemove_counted hl 0).1, eraseIdx_zero]
    rfl
  have hn : Bounded [] := ⟨by decide, by decide⟩
  generalize ([] : List QmItem) = l at hn ⊢
  induction ops generalizing l with
  | nil => exact ⟨l, rfl, hn⟩
  | cons op ops ih =>
    obtain ⟨l', hs, hl'⟩ := queueStep_counted hn op
    rw [foldlM_cons, hs]
    exact ih l' hl'

end OpenSync.Qm
