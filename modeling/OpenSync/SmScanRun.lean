import OpenSync.SmScan
import Mathlib.Data.List.Nodup

/-!
# Accepted requests are answered

As long as nothing is flushed that somebody waits for, every accepted request is answered once and in order, or it is still
in the list. The list is flushed when a scan has failed, when the next one cannot be started, and when the timer runs out;
in the last case even the request that was being served gets no answer.
-/

namespace OpenSync.SmScan
open List

/-! ## The log -/

def hasCb (ctx : Ctx) : Bool := ctx.request.scanCb.isSome

def waiting (list : List Ctx) : List Nat := (list.filter hasCb).map Ctx.id

def acceptedOf (log : List Entry) : List Nat :=
  log.filterMap fun
    | .accepted ctx => if hasCb ctx then some ctx.id else none
    | _ => none

def calledOf (log : List Entry) : List Nat :=
  log.filterMap fun
    | .called ctx _ => some ctx.id
    | _ => none

def startsOf (log : List Entry) : List Nat :=
  log.filterMap fun
    | .started ctx | .startFailed ctx => some ctx.id
    | _ => none

/-- What the driver works at, if it was never asked to start a scan during another one. -/
def track : Option (Option Ctx) → Entry → Option (Option Ctx)
  | some none, .started ctx => some (some ctx)
  | some (some _), .started _ => none
  | some (some _), .startFailed _ => none
  | some (some ctx), .completed ctx' _ => if ctx = ctx' then some none else none
  | some _, .stopped => some none
  | running, _ => running

def runningOf (log : List Entry) : Option (Option Ctx) := log.foldl track (some none)

@[simp] theorem acceptedOf_append (log log' : List Entry) : acceptedOf (log ++ log') = acceptedOf log ++ acceptedOf log' :=
  filterMap_append

@[simp] theorem calledOf_append (log log' : List Entry) : calledOf (log ++ log') = calledOf log ++ calledOf log' :=
  filterMap_append

@[simp] theorem startsOf_append (log log' : List Entry) : startsOf (log ++ log') = startsOf log ++ startsOf log' :=
  filterMap_append

theorem runningOf_append (log log' : List Entry) : runningOf (log ++ log') = log'.foldl track (runningOf log) :=
  foldl_append

@[simp] theorem waiting_append (l l' : List Ctx) : waiting (l ++ l') = waiting l ++ waiting l' := by
  simp [waiting]

theorem waiting_cons (ctx : Ctx) (l : List Ctx) : waiting (ctx :: l) = waiting [ctx] ++ waiting l :=
  waiting_append [ctx] l

/-- The requests that come one after another from a callback, with their numbers. -/
@[grind =] def numbered : Nat → List (Request × Bool) → List Ctx
  | _, [] => []
  | n, r :: requests => ⟨n, r.1⟩ :: numbered (n + 1) requests

theorem numbered_ids (n : Nat) (requests : List (Request × Bool)) :
    (numbered n requests).map Ctx.id = List.range' n requests.length := by
  induction requests generalizing n with
  | nil => rfl
  | cons r requests ih =>
    rw [numbered, map_cons, ih, length_cons, range'_succ]

variable (l : List Ctx)

theorem acceptedOf_map : acceptedOf (l.map .accepted) = waiting l := by
  induction l with
  | nil => rfl
  | cons ctx l ih =>
    rw [waiting_cons, ← ih, map_cons, ← singleton_append, acceptedOf_append]
    cases h : hasCb ctx <;> simp [acceptedOf, waiting, h]

theorem calledOf_map : calledOf (l.map .accepted) = [] := by
  simp [calledOf, filterMap_map]

theorem startsOf_map : startsOf (l.map .accepted) = [] := by
  simp [startsOf, filterMap_map]

theorem foldl_track_map (r : Option (Option Ctx)) (l : List Ctx) : (l.map Entry.accepted).foldl track r = r := by
  induction l with
  | nil => rfl
  | cons ctx l ih =>
    have ho : track r (.accepted ctx) = r := by
      rcases r with _ | _ | _ <;> rfl
    rw [map_cons, foldl_cons, ho, ih]

/-! ## Accounts -/

/-- Of the accepted requests, the first ones have been answered and those of the list are waiting. -/
structure Books (log : List Entry) (list : List Ctx) (nextId : Nat) : Prop where
  answered : acceptedOf log = calledOf log ++ waiting list
  increasing : (acceptedOf log).Pairwise (· < ·)
  below : ∀ i ∈ acceptedOf log, i < nextId
  honest : ∀ ctx status, .called ctx status ∈ log → status ≠ 0 → .completed ctx status ∈ log

/-- Scans are started in the order of the numbers, and those of `rest` are still to come. -/
structure InOrder (log : List Entry) (rest : List Ctx) (nextId : Nat) : Prop where
  increasing : (startsOf log ++ rest.map Ctx.id).Pairwise (· < ·)
  below : ∀ i ∈ startsOf log ++ rest.map Ctx.id, i < nextId

variable {log : List Entry} {list rest : List Ctx} {n : Nat}

theorem pairwise_append_range' {l : List Nat} (h : l.Pairwise (· < ·)) (hb : ∀ i ∈ l, i < n) (k : Nat) :
    (l ++ List.range' n k).Pairwise (· < ·) := by
  refine pairwise_append.mpr ⟨h, pairwise_lt_range', fun i hi j hj => ?_⟩
  have hij := hb i hi
  have hj' := (mem_range'_1.mp hj).1
  omega

theorem waiting_sublist : (waiting l).Sublist (l.map Ctx.id) := filter_sublist.map _

section

variable (h : Books log list n)
include h

theorem Books.appended (requests : List (Request × Bool)) :
    Books (log ++ (numbered n requests).map .accepted) (list ++ numbered n requests) (n + requests.length) where
  answered := by
    rw [acceptedOf_append, calledOf_append, acceptedOf_map, calledOf_map, waiting_append, h.answered]
    simp
  increasing := by
    rw [acceptedOf_append, acceptedOf_map]
    refine (pairwise_append_range' h.increasing h.below requests.length).sublist ?_
    rw [← numbered_ids]
    exact (Sublist.refl _).append (waiting_sublist _)
  below i hi := by
    rw [acceptedOf_append, acceptedOf_map] at hi
    rcases mem_append.mp hi with hi | hi
    · exact Nat.lt_add_right _ (h.below i hi)
    · have hm := (waiting_sublist _).subset hi
      rw [numbered_ids] at hm
      exact (mem_range'_1.mp hm).2
  honest ctx status hc hs := by
    refine mem_append_left _ (h.honest ctx status ?_ hs)
    simpa using hc

theorem Books.noted {e : Entry} (ha : acceptedOf [e] = []) (hc : calledOf [e] = []) : Books (log ++ [e]) list n where
  answered := by simp [ha, hc, h.answered]
  increasing := by simpa [ha] using h.increasing
  below := by simpa [ha] using h.below
  honest ctx status hm hs := by
    refine mem_append_left _ (h.honest ctx status ?_ hs)
    refine (mem_append.mp hm).resolve_right fun he => ?_
    rw [mem_singleton] at he
    simp [← he, calledOf] at hc

theorem Books.mono {m : Nat} (hm : n ≤ m) : Books log list m :=
  { h with below := fun i hi => Nat.lt_of_lt_of_le (h.below i hi) hm }

theorem Books.relist {list' : List Ctx} (hw : waiting list' = waiting list) : Books log list' n :=
  { h with answered := by rw [hw, h.answered] }

end

def answer (ctx : Ctx) (status : Int) : List Entry := if hasCb ctx then [.called ctx status] else []

theorem calledOf_answer (ctx : Ctx) (status : Int) : calledOf (answer ctx status) = waiting [ctx] := by
  cases h : hasCb ctx <;> simp [answer, waiting, calledOf, h]

variable {ctx : Ctx}

theorem Books.answered_head (h : Books log (ctx :: list) n) {status : Int}
    (hs : status ≠ 0 → .completed ctx status ∈ log) : Books (log ++ answer ctx status) list n := by
  have ha : acceptedOf (answer ctx status) = [] := by
    cases hcb : hasCb ctx <;> simp [answer, acceptedOf, hcb]
  refine ⟨?_, by simpa [ha] using h.increasing, by simpa [ha] using h.below, fun ctx' status' hc hs' => ?_⟩
  · rw [acceptedOf_append, ha, append_nil, h.answered, waiting_cons, calledOf_append, calledOf_answer, append_assoc]
  · refine mem_append_left _ ?_
    rcases mem_append.mp hc with hc | hc
    · exact h.honest ctx' status' hc hs'
    · have heq : ctx' = ctx ∧ status' = status := by
        cases hcb : hasCb ctx <;> simp [answer, hcb] at hc
        exact hc
      rw [heq.1, heq.2]
      exact hs (heq.2 ▸ hs')

theorem InOrder.appended (h : InOrder log rest n) (requests : List (Request × Bool)) :
    InOrder (log ++ (numbered n requests).map .accepted) (rest ++ numbered n requests) (n + requests.length) where
  increasing := by
    rw [startsOf_append, startsOf_map, append_nil, map_append, numbered_ids, ← append_assoc]
    exact pairwise_append_range' h.increasing h.below _
  below i hi := by
    rw [startsOf_append, startsOf_map, append_nil, map_append, numbered_ids, ← append_assoc] at hi
    rcases mem_append.mp hi with hi | hi
    · exact Nat.lt_add_right _ (h.below i hi)
    · exact (mem_range'_1.mp hi).2

theorem InOrder.noted (h : InOrder log rest n) (es : List Entry) (hs : startsOf es = []) : InOrder (log ++ es) rest n := by
  refine ⟨?_, ?_⟩
  · simpa [hs] using h.increasing
  · simpa [hs] using h.below

theorem InOrder.started (h : InOrder log (ctx :: rest) n) {e : Entry} (he : startsOf [e] = [ctx.id]) :
    InOrder (log ++ [e]) rest n := by
  refine ⟨?_, ?_⟩
  · simpa [he] using h.increasing
  · simpa [he] using h.below

theorem InOrder.fresh (h : InOrder log [] n) (request : Request) : InOrder log [⟨n, request⟩] (n + 1) := by
  have ho := h.increasing
  have hb := h.below
  rw [map_nil, append_nil] at ho hb
  refine ⟨?_, fun i hi => ?_⟩
  · simpa using pairwise_append_range' ho hb 1
  · rcases mem_append.mp hi with hi | hi
    · exact Nat.lt_succ_of_lt (hb i hi)
    · simp at hi
      omega

theorem InOrder.flushed (h : InOrder log rest n) : InOrder log [] n := by
  refine ⟨?_, fun i hi => h.below i (by simp at hi; simp [hi])⟩
  simpa using (pairwise_append.mp h.increasing).1

/-! ## Requests and answers -/

variable {s : State}

theorem schedule_busy (h : s.list ≠ []) (request : Request) (startOk : Bool) :
    schedule s request startOk = { s with
        list := s.list ++ [⟨s.nextId, request⟩]
        nextId := s.nextId + 1
        log := s.log ++ [.accepted ⟨s.nextId, request⟩] } := by
  obtain ⟨ctx, rest, hl⟩ := exists_cons_of_ne_nil h
  simp [schedule, smScanSchedule, hl, note]

theorem foldl_schedule (h : s.list ≠ []) (requests : List (Request × Bool)) :
    requests.foldl (fun s r => schedule s r.1 r.2) s = { s with
        list := s.list ++ numbered s.nextId requests
        nextId := s.nextId + requests.length
        log := s.log ++ (numbered s.nextId requests).map .accepted } := by
  induction requests generalizing s with
  | nil => simp [numbered]
  | cons r requests ih =>
    rw [foldl_cons, schedule_busy h, ih (by simp)]
    simp [numbered, Nat.add_assoc, Nat.add_comm 1]

def asked (ctx : Ctx) (requests : List (Request × Bool)) : List (Request × Bool) := if hasCb ctx then requests else []

theorem notify_eq (h : s.list ≠ []) (ctx : Ctx) (status : Int) (requests : List (Request × Bool)) :
    notify s ctx status requests = { s with
        list := s.list ++ numbered s.nextId (asked ctx requests)
        nextId := s.nextId + (asked ctx requests).length
        log := s.log ++ answer ctx status ++ (numbered s.nextId (asked ctx requests)).map .accepted } := by
  unfold notify
  cases hcb : ctx.request.scanCb.isSome with
  | true =>
    have hn : (note s (.called ctx status)).list ≠ [] := h
    rw [if_pos rfl, foldl_schedule hn]
    simp [asked, answer, hasCb, hcb, note]
  | false => simp [asked, answer, hasCb, hcb, numbered]

/-- The driver rests; `list` has neither been started nor answered. -/
structure Resting (log : List Entry) (list : List Ctx) (n : Nat) : Prop where
  books : Books log list n
  order : InOrder log list n
  alone : runningOf log = some none

/-- The driver is done with `ctx`, one way or the other, but nobody was told. -/
structure Done (log : List Entry) (ctx : Ctx) (rest : List Ctx) (n : Nat) : Prop where
  books : Books log (ctx :: rest) n
  order : InOrder log rest n
  alone : runningOf log = some none

theorem startsOf_answer (ctx : Ctx) (status : Int) : startsOf (answer ctx status) = [] := by
  cases h : hasCb ctx <;> simp [answer, startsOf, h]

theorem foldl_track_answer (r : Option (Option Ctx)) (ctx : Ctx) (status : Int) : (answer ctx status).foldl track r = r := by
  cases h : hasCb ctx
  · simp [answer, h]
  · rcases r with _ | _ | _ <;> simp [answer, h, track]

theorem Done.notified (h : Done log ctx rest n) (status : Int) (hs : status ≠ 0 → .completed ctx status ∈ log)
    (requests : List (Request × Bool)) :
    Resting (log ++ answer ctx status ++ (numbered n (asked ctx requests)).map .accepted)
      (rest ++ numbered n (asked ctx requests)) (n + (asked ctx requests).length) where
  books := (h.books.answered_head hs).appended _
  order := (h.order.noted _ (startsOf_answer ctx status)).appended _
  alone := by rw [runningOf_append, runningOf_append, h.alone, foldl_track_answer, foldl_track_map]

/-! ## Events -/

structure Inv (s : State) : Prop where
  books : Books s.log s.list s.nextId
  order : InOrder s.log s.list.tail s.nextId
  alone : runningOf s.log = some s.inProgress
  progress : s.inProgress = s.list.head?
  timer : s.timer = s.list.head?

theorem Resting.inv_nil (h : Resting s.log s.list s.nextId) (hl : s.list = []) (hp : s.inProgress = none)
    (ht : s.timer = none) : Inv s where
  books := h.books
  order := by simpa [hl] using h.order
  alone := by rw [hp, h.alone]
  progress := by rw [hl, hp]; rfl
  timer := by rw [hl, ht]; rfl

theorem Resting.inv_flush (h : Resting s.log list s.nextId) (hw : waiting list = []) (hp : s.inProgress = none)
    (ht : s.timer = none) : Inv (smScanScheduleQueueFlush s) where
  books := h.books.relist (by rw [hw]; rfl)
  order := h.order.flushed
  alone := h.alone.trans (congrArg some hp.symm)
  progress := hp
  timer := ht

theorem Resting.inv_started (h : Resting s.log s.list s.nextId) (hl : s.list = ctx :: rest) :
    Inv (smScanScheduleProcess s ctx true).2 := by
  obtain ⟨hb, ho, ha⟩ := h
  rw [hl] at hb ho
  simp only [smScanScheduleProcess, if_true, note]
  refine ⟨?_, ?_, ?_, by simp [hl], by simp [hl]⟩
  · rw [hl]
    exact hb.noted rfl rfl
  · rw [hl]
    exact ho.started rfl
  · rw [runningOf_append, ha]
    rfl

theorem Resting.done (h : Resting s.log (ctx :: rest) s.nextId) :
    Done (smScanScheduleProcess s ctx false).2.log ctx rest s.nextId where
  books := h.books.noted rfl rfl
  order := h.order.started rfl
  alone := by
    simp only [smScanScheduleProcess, note, Bool.false_eq_true, if_false]
    rw [runningOf_append, h.alone]
    rfl

theorem Inv.scheduled (h : Inv s) (request : Request) (startOk : Bool) : Inv (schedule s request startOk) := by
  cases hl : s.list with
  | cons ctx rest =>
    have hon : numbered s.nextId [(request, startOk)] = [⟨s.nextId, request⟩] := rfl
    have hb := h.books.appended [(request, startOk)]
    have ho := h.order.appended [(request, startOk)]
    rw [hon] at hb ho
    rw [schedule_busy (by simp [hl])]
    refine ⟨hb, ?_, ?_, ?_, ?_⟩
    · simpa [hl] using ho
    · simpa [runningOf_append] using (foldl_track_map (runningOf s.log) [⟨s.nextId, request⟩]).trans h.alone
    · simpa [hl] using h.progress
    · simpa [hl] using h.timer
  | nil =>
    have hbo := h.books
    have hor := h.order
    have ha := h.alone
    have hp : s.inProgress = none := by simpa [hl] using h.progress
    rw [hl] at hbo hor
    rw [hp] at ha
    cases startOk with
    | true =>
      have hs : schedule s request true = { s with
            list := [⟨s.nextId, request⟩]
            nextId := s.nextId + 1
            inProgress := some ⟨s.nextId, request⟩
            timer := some ⟨s.nextId, request⟩
            log := s.log ++ [.started ⟨s.nextId, request⟩] ++ [.accepted ⟨s.nextId, request⟩] } := by
        simp [schedule, smScanSchedule, smScanScheduleProcess, hl, note]
      rw [hs]
      refine ⟨(hbo.noted rfl rfl).appended [(request, true)], ?_, ?_, rfl, rfl⟩
      · exact ((hor.fresh request).started rfl).noted _ rfl
      · rw [runningOf_append, runningOf_append, ha]
        rfl
    | false =>
      have hs : schedule s request false = { s with
            nextId := s.nextId + 1
            timer := none
            log := s.log ++ [.startFailed ⟨s.nextId, request⟩] } := by
        simp [schedule, smScanSchedule, smScanScheduleProcess, hl, note]
      rw [hs]
      refine ⟨?_, ?_, ?_, ?_, ?_⟩
      · rw [hl]
        exact (hbo.noted rfl rfl).mono (Nat.le_succ _)
      · rw [hl]
        exact (hor.fresh request).started rfl
      · rw [runningOf_append, ha, hp]
        rfl
      · simpa [hl] using hp
      · simp [hl]

/-- What is in the list when the callback of a scan that has ended is done. -/
def after (s : State) (o : Outcome) : List Ctx :=
  match s.list with
  | [] => []
  | ctx :: rest => rest ++ numbered s.nextId (asked ctx o.requests)

/-- Nobody waits for what is flushed. -/
def EventSafe (s : State) : Event → Prop
  | .schedule _ _ => True
  | .timeout => waiting s.list = []
  | .completion status o =>
    if status = 0 then waiting (after s o) = []
    else o.startOk = true ∨ ∀ next ∈ (after s o).head?,
      waiting ((after s o).tail ++ numbered s.nextId (asked next o.failedRequests)) = []

instance (s : State) : (e : Event) → Decidable (EventSafe s e)
  | .schedule _ _ => .isTrue trivial
  | .timeout => inferInstanceAs (Decidable (waiting s.list = []))
  | .completion status o =>
    inferInstanceAs (Decidable (if status = 0 then waiting (after s o) = [] else _ ∨ ∀ _ ∈ _, _))

theorem waiting_numbered_eq_nil (n m : Nat) (requests : List (Request × Bool)) (h : waiting (numbered n requests) = []) :
    waiting (numbered m requests) = [] := by
  induction requests generalizing n m with
  | nil => rfl
  | cons r requests ih =>
    rw [numbered, waiting_cons, append_eq_nil_iff] at h ⊢
    refine ⟨?_, ih _ _ h.2⟩
    cases hcb : r.1.scanCb.isSome with
    | false => simp [waiting, hasCb, hcb]
    | true => simp [waiting, hasCb, hcb] at h

theorem Resting.inv_next {o : Outcome} (h : Resting s.log s.list s.nextId) (hp : s.inProgress = none)
    (ht : s.timer = none) (hs : o.startOk = true ∨ ∀ next ∈ s.list.head?,
      waiting (s.list.tail ++ numbered s.nextId (asked next o.failedRequests)) = []) : Inv (scheduleNext s o) := by
  unfold scheduleNext
  cases hl : s.list with
  | nil => exact h.inv_nil hl hp ht
  | cons next rest =>
    dsimp only [head?_cons]
    cases hok : o.startOk with
    | true => exact h.inv_started hl
    | false =>
      have hw := (hs.resolve_left (by simp [hok])) next (by simp [hl])
      rw [hl, tail_cons] at hw
      have hd := Resting.done (hl ▸ h)
      have hr := hd.notified 0 (fun hne => absurd rfl hne) o.failedRequests
      simp only [smScanScheduleProcess, note, Bool.false_eq_true, if_false] at hr ⊢
      rw [notify_eq (by simp [hl])]
      exact hr.inv_flush hw hp rfl

theorem Inv.completed (h : Inv s) {status : Int} {o : Outcome} (hs : EventSafe s (.completion status o)) :
    Inv (step s (.completion status o)) := by
  simp only [step]
  cases hl : s.list with
  | nil =>
    have hp : s.inProgress = none := by simpa [hl] using h.progress
    rw [hp]
    exact h
  | cons ctx rest =>
    have hp : s.inProgress = some ctx := by simpa [hl] using h.progress
    have hd : Done (s.log ++ [.completed ctx status]) ctx rest s.nextId := by
      refine ⟨hl ▸ h.books.noted rfl rfl, ?_, ?_⟩
      · simpa [hl] using h.order.noted [.completed ctx status] rfl
      · rw [runningOf_append, h.alone, hp]
        simp [track]
    have hr := hd.notified status (fun _ => by simp) o.requests
    have ha : after s o = rest ++ numbered s.nextId (asked ctx o.requests) := by rw [after, hl]
    rw [← ha] at hr
    rw [hp]
    simp only [smScanScheduleCb, note]
    rw [notify_eq (by simp)]
    simp only [EventSafe] at hs
    by_cases hst : status = 0
    · rw [if_pos hst] at hs ⊢
      exact hr.inv_flush hs rfl rfl
    rw [if_neg hst] at hs ⊢
    refine Resting.inv_next ?_ rfl rfl ?_
    · simpa [hl, ha] using hr
    · refine hs.imp_right fun hw next hn => ?_
      rw [ha] at hw
      have hsa := hw next hn
      rw [waiting_append, append_eq_nil_iff] at hsa ⊢
      exact ⟨hsa.1, waiting_numbered_eq_nil _ _ _ hsa.2⟩

theorem Inv.timedOut (h : Inv s) (hs : EventSafe s .timeout) : Inv (step s .timeout) := by
  simp only [step]
  split
  · exact h
  · simp only [smScanScheduleStop, smScanScheduleQueueFlush, note]
    refine ⟨(h.books.noted rfl rfl).relist hs.symm, ?_, ?_, rfl, rfl⟩
    · exact (h.order.noted _ rfl).flushed
    · rw [runningOf_append, h.alone]
      cases s.inProgress <;> rfl

theorem Inv.stepped (h : Inv s) {e : Event} (hs : EventSafe s e) : Inv (step s e) := by
  cases e with
  | schedule request startOk => exact h.scheduled request startOk
  | completion status o => exact h.completed hs
  | timeout => exact h.timedOut hs

/-! ## Runs -/

def RunSafe (s : State) : List Event → Prop
  | [] => True
  | e :: evs => EventSafe s e ∧ RunSafe (step s e) evs

def RunSafe.decide (s : State) : (evs : List Event) → Decidable (RunSafe s evs)
  | [] => .isTrue trivial
  | e :: evs => @instDecidableAnd _ _ inferInstance (RunSafe.decide (step s e) evs)

instance (s : State) (evs : List Event) : Decidable (RunSafe s evs) := RunSafe.decide s evs

theorem Inv.start : Inv start where
  books := ⟨rfl, List.Pairwise.nil, fun _ h => absurd h not_mem_nil, fun _ _ h => absurd h not_mem_nil⟩
  order := ⟨List.Pairwise.nil, fun _ h => absurd h not_mem_nil⟩
  alone := rfl
  progress := rfl
  timer := rfl

theorem Inv.ran (h : Inv s) {evs : List Event} (hs : RunSafe s evs) : Inv (run s evs) := by
  induction evs generalizing s with
  | nil => exact h
  | cons e evs ih => exact ih (h.stepped hs.1) hs.2

theorem RunSafe.of_append {evs more : List Event} (h : RunSafe s (evs ++ more)) : RunSafe s evs := by
  induction evs generalizing s with
  | nil => trivial
  | cons e evs ih => exact ⟨h.1, ih h.2⟩

/-- Of the accepted requests with a callback, the first ones have been answered, each once, and the others are in the list;
success is reported only of scans that had it. Scans run one at a time in the order of the requests, and the head of the
list is the one that runs, with the timer armed for it. -/
structure Answering (s : State) : Prop where
  answered : acceptedOf s.log = calledOf s.log ++ waiting s.list
  once : (calledOf s.log).Nodup
  honest : ∀ ctx status, .called ctx status ∈ s.log → status ≠ 0 → .completed ctx status ∈ s.log
  order : (startsOf s.log).Pairwise (· < ·)
  alone : runningOf s.log = some s.inProgress
  progress : s.inProgress = s.list.head?
  timer : s.timer = s.list.head?

theorem Inv.answering (h : Inv s) : Answering s where
  answered := h.books.answered
  once := by
    have hn : (calledOf s.log ++ waiting s.list).Nodup := by
      rw [← h.books.answered]
      exact h.books.increasing.imp fun hlt => Nat.ne_of_lt hlt
    exact hn.of_append_left
  honest := h.books.honest
  order := (pairwise_append.mp h.order.increasing).1
  alone := h.alone
  progress := h.progress
  timer := h.timer

/-- In every run in which nothing is flushed that somebody waits for, requests are answered. -/
theorem scans_answered (evs : List Event) (hs : RunSafe start evs) (before : List Event) (hb : before <+: evs) :
    Answering (run start before) := by
  obtain ⟨more, rfl⟩ := hb
  exact (Inv.start.ran hs.of_append).answering

/-! Two surveys of one radio. -/

def survey (channel : Nat) : Request := ⟨1, [channel], .onchan, 50, some 7⟩

/-- The second survey is asked for during the first, and a third by the callback of the second. -/
def threeSurveys : List Event :=
  [.schedule (survey 1) true, .schedule (survey 6) true, .completion 1 ⟨[], true, []⟩,
    .completion 1 ⟨[(survey 11, true)], true, []⟩, .completion 0 ⟨[], true, []⟩]

theorem threeSurveys_answered : RunSafe start threeSurveys ∧ Answering (run start threeSurveys) ∧
    calledOf (run start threeSurveys).log = [0, 1, 2] :=
  have hs : RunSafe start threeSurveys := by decide +kernel
  ⟨hs, scans_answered threeSurveys hs threeSurveys (prefix_refl _), by decide +kernel⟩

/-- The first survey fails; the second one was accepted, and nobody is told. -/
def firstFails : List Event := [.schedule (survey 1) true, .schedule (survey 6) true, .completion 0 ⟨[], true, []⟩]

def timesOut : List Event := [.schedule (survey 1) true, .timeout]

theorem accepted_not_answered :
    (acceptedOf (run start firstFails).log = [0, 1] ∧ calledOf (run start firstFails).log = [0] ∧
      (run start firstFails).list = [] ∧ ¬ Answering (run start firstFails)) ∧
    (acceptedOf (run start timesOut).log = [0] ∧ calledOf (run start timesOut).log = [] ∧
      (run start timesOut).list = [] ∧ ¬ Answering (run start timesOut)) := by
  refine ⟨⟨by decide +kernel, by decide +kernel, by decide +kernel, fun h => ?_⟩,
    ⟨by decide +kernel, by decide +kernel, by decide +kernel, fun h => ?_⟩⟩
  · exact absurd h.answered (by decide +kernel)
  · exact absurd h.answered (by decide +kernel)

end OpenSync.SmScan
