import OpenSync.QmFrame

/-!
# Whole connections

However the stream is split into reads, what is handed over are the requests of the format, in order. Messages are
requests of the format; any other stream is handled without a fault too, as long as no header announces a request larger
than memory can be had for.
-/

namespace OpenSync.Qm
open List

open Framing

variable {stream : List Byte} {ctx : Ctx} {c : Conn}

/-- Wherever a request begins in the stream, its header announces one that is not too large. -/
def StreamSafe (stream : List Byte) : Prop := ∀ xs, format.Reaches stream xs → HeaderSafe xs

theorem StreamSafe.of_append {xs ys : List Byte} (h : StreamSafe (xs ++ ys)) : StreamSafe xs := by
  intro zs hr
  exact (h (zs ++ ys) (hr.append ys)).of_append

theorem StreamSafe.reached {xs ys : List Byte} (h : StreamSafe xs) (hr : format.Reaches xs ys) : StreamSafe ys :=
  fun zs hr' => h zs (hr.trans hr')

theorem StreamSafe.of_short {xs : List Byte} (h : xs.length < requestSize) : StreamSafe xs := by
  intro ys hr
  cases hr with
  | refl => exact fun hl => absurd hl (not_le.mpr h)
  | step hn _ =>
    obtain ⟨⟨hl, -⟩, -⟩ := nextItem_eq_some.mp hn
    exact absurd hl (not_le.mpr h)

/-! ## One pass -/

structure Room (ctx : Ctx) : Prop where
  aligned : bufChunk ∣ ctx.allocated
  limit : ctx.allocated + bufChunk ≤ 2 ^ 31
  fits : ctx.buf.length ≤ ctx.allocated

theorem Room.freebuf (ctx : Ctx) : Room (qmCtxFreebuf ctx) :=
  ⟨⟨0, rfl⟩, by norm_num [qmCtxFreebuf, bufChunk], Nat.zero_le _⟩

variable {n : Nat}

theorem qmCtxShiftBuf_eq (hr : Room ctx) (hn : n ≤ ctx.buf.length) :
    ∃ ctx', qmCtxShiftBuf ctx n = .ok ctx' ∧ ctx'.buf = ctx.buf.drop n ∧ ctx'.used = ctx.used ∧ Room ctx' := by
  unfold qmCtxShiftBuf
  rw [if_neg (by omega), if_neg (by omega)]
  split_ifs with ha
  · refine ⟨_, rfl, ?_, rfl, .freebuf ctx⟩
    rw [drop_of_length_le (by omega)]
    rfl
  · refine ⟨_, rfl, by simp, rfl, hr.aligned, hr.limit, ?_⟩
    have hf := hr.fits
    simp only [length_drop]
    omega

open Format

theorem handleLoop_eq {fuel : Nat} (hr : Room ctx) (hs : StreamSafe ctx.buf) (hf : ctx.buf.length < fuel) :
    ∃ ctx', handleLoop fuel ctx = .ok (ctx', (format.drain ctx.buf).1) ∧ ctx'.buf = (format.drain ctx.buf).2 ∧
      ctx'.used = ctx.used ∧ Room ctx' := by
  induction fuel generalizing ctx with
  | zero => exact absurd hf (Nat.not_lt_zero _)
  | succ fuel ih =>
    rw [handleLoop, qmConnParseReq_eq (hs _ (.refl _)).lt]
    cases hn : format.next ctx.buf with
    | none =>
      rw [drain_none hn]
      exact ⟨ctx, rfl, rfl, rfl, hr⟩
    | some p =>
      obtain ⟨qi, n⟩ := p
      obtain ⟨⟨hh, hfi⟩, rfl, rfl⟩ := nextItem_eq_some.mp hn
      have hli := (hs _ (.refl _)).lt hh
      obtain ⟨ctx₁, hsh, hbuf₁, hused₁, hroom₁⟩ := qmCtxShiftBuf_eq hr hfi
      have hlt := format.drop_lt hn
      obtain ⟨ctx₂, hl, hbuf₂, hused₂, hroom₂⟩ :=
        ih hroom₁ (by rw [hbuf₁]; exact hs.reached (.step hn (.refl _))) (by rw [hbuf₁]; omega)
      rw [hbuf₁] at hl hbuf₂
      rw [drain_some hn]
      refine ⟨ctx₂, ?_, hbuf₂, hused₂.trans hused₁, hroom₂⟩
      have ht : (itemAt ctx.buf).req.total = (Request.ofBytes ctx.buf).frameSize := total_eq hli
      simp [ht, hsh, Except.bind, bind, hl]

/-! ## Runs -/

theorem grow_eq (hr : Room ctx) (hl : ctx.buf.length < frameLimit) :
    ∃ ctx', grow ctx = .ok ctx' ∧ ctx'.buf = ctx.buf ∧ ctx'.used = ctx.used ∧ Room ctx' := by
  obtain ⟨⟨k, hk⟩, hli, hf⟩ := hr
  unfold frameLimit at hl
  unfold bufChunk at hk hli hl
  unfold grow bufChunk
  split_ifs with hfr ho
  · refine ⟨_, rfl, rfl, rfl, ⟨k + 1, ?_⟩, ?_, ?_⟩ <;> simp only [bufChunk] <;> omega
  · omega
  · exact ⟨ctx, rfl, rfl, rfl, ⟨k, hk⟩, hli, hf⟩

/-- What has been read was cut into requests; those are handed over, and the rest waits in the buffer. -/
def Good (stream : List Byte) (c : Conn) : Prop :=
  ∃ got, stream = got ++ c.sock ∧ c.handed = (format.drain got).1 ∧
    (c.ctx.used = true → c.ctx.buf = (format.drain got).2 ∧ Room c.ctx)

theorem rest_lt {got : List Byte} (h : StreamSafe got) : (format.drain got).2.length < frameLimit := by
  have hr : nextItem (format.drain got).2 = none := drain_rest (F := format) got
  have hre : format.Reaches got (format.drain got).2 := by simpa using Format.Reaches.drain got []
  unfold nextItem at hr
  split_ifs at hr with hh hf
  · exact hh.trans (by norm_num [requestSize, frameLimit, bufChunk])
  · exact hf.trans_le (h _ hre (not_lt.mp hh))

theorem Good.stepped (h : Good stream c) (hsa : StreamSafe stream) (e : Event) :
    ∃ c', step c e = .ok c' ∧ Good stream c' := by
  obtain ⟨got, hs, hh, hct⟩ := h
  unfold step
  split_ifs with hu
  · obtain ⟨hb, hr⟩ := hct hu
    have hl : c.ctx.buf.length < frameLimit := hb ▸ rest_lt (hs ▸ hsa).of_append
    obtain ⟨ctx, hg, hb', hu', hr'⟩ := grow_eq hr hl
    cases e with
    | other => exact ⟨c, rfl, got, hs, hh, hct⟩
    | failed =>
      simp only [qmAsyncCallback, hg, bind, Except.bind]
      exact ⟨_, rfl, got, hs, hh, nofun⟩
    | read n =>
      simp only [qmAsyncCallback, hg, bind, Except.bind]
      set m := min n (ctx.allocated - ctx.buf.length)
      have hsp : stream = (got ++ c.sock.take m) ++ c.sock.drop m := by
        rw [append_assoc, take_append_drop, hs]
      split_ifs with hem
      · refine ⟨_, rfl, got, ?_, hh, nofun⟩
        rw [hsp, hem, append_nil]
      have hm : Room { ctx with buf := ctx.buf ++ c.sock.take m } := by
        refine ⟨hr'.aligned, hr'.limit, ?_⟩
        have hf := hr'.fits
        simp only [length_append, length_take]
        omega
      have hp : StreamSafe (ctx.buf ++ c.sock.take m) := by
        have ha : StreamSafe (ctx.buf ++ c.sock) := by
          rw [hb', hb]
          exact (hs ▸ hsa).reached (.drain got c.sock)
        rw [← take_append_drop m c.sock, ← append_assoc] at ha
        exact ha.of_append
      obtain ⟨ctx', hlo, hre, hu'', hr''⟩ := handleLoop_eq hm hp (Nat.lt_succ_self _)
      have hd := drain_append (F := format) got (c.sock.take m)
      rw [← hb, ← hb'] at hd
      simp only [qmAsyncHandleReq, hlo]
      refine ⟨_, rfl, got ++ c.sock.take m, hsp, ?_, fun _ => ⟨?_, hr''⟩⟩
      · rw [hd, hh]
      · rw [hd]
        exact hre
  · exact ⟨c, rfl, got, hs, hh, hct⟩

theorem Good.ran (h : Good stream c) (hs : StreamSafe stream) (events : List Event) :
    ∃ c', run c events = .ok c' ∧ Good stream c' := by
  induction events generalizing c with
  | nil => exact ⟨c, rfl, h⟩
  | cons e events ih =>
    obtain ⟨c₁, hst, h₁⟩ := h.stepped hs e
    obtain ⟨c₂, hr, h₂⟩ := ih h₁
    refine ⟨c₂, ?_, h₂⟩
    rw [run, foldlM_cons, hst]
    exact hr

theorem good_start (stream : List Byte) : Good stream (start stream) := by
  have hn : format.drain [] = ([], []) := drain_none rfl
  refine ⟨[], rfl, ?_, fun _ => ⟨?_, ?_⟩⟩
  · rw [hn]
    rfl
  · rw [hn]
    rfl
  · exact ⟨⟨0, rfl⟩, by norm_num [start, bufChunk], Nat.zero_le _⟩

/-! ## Messages -/

def Message.size (m : Message) : Nat := requestSize + m.topicBytes.length + m.data.length

def Message.sent (m : Message) : List Byte := (qmConnWriteReq m).flatten

def fieldOf (bytes : List Byte) : Option (List Byte) := if bytes = [] then none else some bytes

/-- What the queue manager is to get: an empty topic or no data is no field. -/
def Message.item (m : Message) : Item := ⟨m.header, fieldOf m.topicBytes, fieldOf m.data, m.data.length⟩

variable {m : Message}

open Message

section

variable (h : m.size < 2 ^ 31)
include h

theorem header_lengths :
    m.header.topicLen.toNat = m.topicBytes.length ∧ m.header.dataSize.toNat = m.data.length := by
  unfold size requestSize at h
  simp only [header, BitVec.toNat_ofNat]
  omega

theorem sent_eq : m.sent = m.header.bytes ++ m.topicBytes ++ m.data := by
  obtain ⟨ht, hd⟩ := header_lengths h
  unfold size requestSize at h
  unfold sent qmConnWriteReq
  rw [toInt_of_lt (by omega), toInt_of_lt (by omega), ht, hd]
  split_ifs with hc hz hz'
  all_goals simp_all

theorem frameSize_header : m.header.frameSize = m.size := by
  obtain ⟨ht, hd⟩ := header_lengths h
  rw [Request.frameSize, ht, hd, size]

theorem ofBytes_sent (rest : List Byte) : Request.ofBytes (m.sent ++ rest) = m.header := by
  rw [sent_eq h, append_assoc, append_assoc, ofBytes_append (length_bytes _).ge, ofBytes_bytes]

theorem length_sent : m.sent.length = m.size := by
  rw [sent_eq h, length_append, length_append, length_bytes, size]

omit h in
theorem fieldAt_eq {front bytes rest : List Byte} :
    fieldAt (front ++ (bytes ++ rest)) front.length bytes.length = fieldOf bytes := by
  unfold fieldAt fieldOf
  simp

theorem next_sent (rest : List Byte) : format.next (m.sent ++ rest) = some (m.item, m.size) := by
  have hr := ofBytes_sent h rest
  obtain ⟨ht, hd⟩ := header_lengths h
  refine nextItem_eq_some.mpr ⟨?_, ?_, ?_⟩
  · rw [hr, frameSize_header h, length_append, length_sent h, size]
    omega
  · simp only [itemAt, hr, ht, hd, item, Item.mk.injEq, true_and, and_true]
    rw [sent_eq h, ← length_bytes m.header]
    constructor
    · rw [append_assoc, append_assoc]
      exact fieldAt_eq
    · rw [append_assoc _ m.data, ← length_append]
      exact fieldAt_eq
  · rw [hr, frameSize_header h]

end

variable {msgs : List Message}

theorem drain_sent (h : ∀ m ∈ msgs, m.size < 2 ^ 31) :
    format.drain (msgs.flatMap Message.sent) = (msgs.map Message.item, []) := by
  induction msgs with
  | nil => exact drain_none rfl
  | cons m msgs ih =>
    have hm := h m mem_cons_self
    rw [flatMap_cons, drain_some (next_sent hm _), ← length_sent hm, drop_left, ih (forall_mem_cons.mp h).2]
    rfl

theorem lt_of_le_frameLimit (h : n ≤ frameLimit) : n < 2 ^ 31 := h.trans_lt (by norm_num [frameLimit, bufChunk])

theorem streamSafe_sent (h : ∀ m ∈ msgs, m.size ≤ frameLimit) : StreamSafe (msgs.flatMap Message.sent) := by
  induction msgs with
  | nil =>
    exact .of_short (by decide)
  | cons m msgs ih =>
    have hm := h m mem_cons_self
    have hlt := lt_of_le_frameLimit hm
    rw [flatMap_cons]
    intro xs hr
    cases hr with
    | refl =>
      intro _
      rwa [ofBytes_sent hlt, frameSize_header hlt]
    | step hn hr =>
      obtain ⟨-, rfl⟩ := Prod.mk.inj (Option.some.inj ((next_sent hlt _).symm.trans hn))
      rw [← length_sent hlt, drop_left] at hr
      exact ih (forall_mem_cons.mp h).2 xs hr

/-! ## All connections -/

/-- Messages are handed over as they were sent, in order and however they are read, and no stream with safe headers
leads to a fault. -/
theorem requests_handed_over (msgs : List Message) (hmsgs : ∀ m ∈ msgs, m.size ≤ frameLimit) (stream : List Byte)
    (hsafe : StreamSafe stream) (events : List Event) :
    (∃ c, run (start (msgs.flatMap Message.sent)) events = .ok c ∧ c.handed <+: msgs.map Message.item ∧
      (c.sock = [] → c.handed = msgs.map Message.item)) ∧
    ∃ c, run (start stream) events = .ok c := by
  constructor
  · obtain ⟨c, hr, got, hs, hh, -⟩ := (good_start _).ran (streamSafe_sent hmsgs) events
    have hd := drain_sent fun m hm => lt_of_le_frameLimit (hmsgs m hm)
    refine ⟨c, hr, ?_, fun hso => ?_⟩
    · rw [hs, drain_append] at hd
      rw [hh, ← (Prod.mk.inj hd).1]
      exact prefix_append _ _
    · rw [hs, hso, append_nil] at hd
      rw [hh, hd]
  · obtain ⟨c, hr, -⟩ := (good_start stream).ran hsafe events
    exact ⟨c, hr⟩

def plainRequest : Request := ⟨#v[81, 82, 69, 81], 2, 1, 1, 0, .replicate 16 0, 0, 0, 0, 0, 0, 0, 0, 0⟩

def plainMessage : Message := ⟨plainRequest, some ⟨[116], by decide⟩, [1, 2, 3]⟩

/-- Two messages, read in parts; and a stream that ends within a header. -/
theorem plainMessages_handed_over :
    (∃ c, run (start ([plainMessage, plainMessage].flatMap Message.sent)) [.read 60, .read 2, .read 100] = .ok c ∧
      c.handed <+: [plainMessage, plainMessage].map Message.item ∧
      (c.sock = [] → c.handed = [plainMessage, plainMessage].map Message.item)) ∧
    ∃ c, run (start [1, 2, 3]) [.read 60, .read 2, .read 100] = .ok c :=
  requests_handed_over _ (by decide) _ (.of_short (by decide)) _

/-- A header whose lengths add up to nothing. -/
def wrappingRequest : Request := { plainRequest with topicLen := 100, dataSize := .ofNat 32 (2 ^ 32 - 100) }

theorem wrappingRequest_overread : run (start wrappingRequest.bytes) [.read 56] = .error .overread := by
  decide +kernel

/-! ## Requests without room -/

theorem step_used {e : Event} (h : c.ctx.used = true) : step c e = qmAsyncCallback c e := if_pos h

theorem run_concat (events : List Event) (e : Event) : run c (events ++ [e]) = run c events >>= fun c => step c e := by
  rw [run, foldlM_append]
  congr 1
  funext c
  exact bind_pure _

theorem ofBytes_take (h : m.size < 2 ^ 31) (hn : requestSize ≤ (m.sent.take n).length) :
    Request.ofBytes (m.sent.take n) = m.header := by
  rw [← ofBytes_append hn (m.sent.drop n), take_append_drop, ← append_nil m.sent, ofBytes_sent h]

theorem next_sent_take (h : m.size < 2 ^ 31) (hn : n < m.size) : format.next (m.sent.take n) = none := by
  have hl : (m.sent.take n).length = n := by
    rw [length_take, length_sent h]
    omega
  change nextItem (m.sent.take n) = none
  unfold nextItem
  rw [hl]
  split_ifs with hh hf
  · rfl
  · rfl
  · rw [ofBytes_take h (by omega), frameSize_header h] at hf
    exact absurd hn hf

def partly (m : Message) (k : Nat) : Conn := ⟨⟨m.sent.take (k * bufChunk), k * bufChunk, true⟩, m.sent.drop (k * bufChunk), []⟩

theorem length_partly {k : Nat} (h : m.size < 2 ^ 31) (hk : k * bufChunk ≤ m.size) :
    (partly m k).ctx.buf.length = k * bufChunk := by
  rw [partly, length_take, length_sent h]
  omega

theorem step_partly {k : Nat} (h : m.size < 2 ^ 31) (hk : (k + 1) * bufChunk < m.size) :
    step (partly m k) (.read bufChunk) = .ok (partly m (k + 1)) := by
  rw [Nat.succ_mul] at hk
  have hl := length_partly h (k := k) (by omega)
  have hg : grow (partly m k).ctx = .ok ⟨m.sent.take (k * bufChunk), k * bufChunk + bufChunk, true⟩ := by
    have hpo : 0 < bufChunk := by decide
    rw [grow, hl, if_pos (by simpa [partly] using hpo), if_pos (by simp only [partly]; omega)]
    rfl
  have hb : m.sent.take (k * bufChunk) ++ (m.sent.drop (k * bufChunk)).take bufChunk =
      m.sent.take ((k + 1) * bufChunk) := by
    rw [Nat.succ_mul, take_add]
  have hp : qmConnParseReq (m.sent.take ((k + 1) * bufChunk)) = .ok none := by
    rw [qmConnParseReq_eq, next_sent_take h (by rw [Nat.succ_mul]; exact hk)]
    · rfl
    · intro hh
      rwa [ofBytes_take h hh, frameSize_header h]
  have hgo : (m.sent.drop (k * bufChunk)).take bufChunk ≠ [] := by
    apply ne_nil_of_length_pos
    rw [length_take, length_drop, length_sent h]
    have hpo : 0 < bufChunk := by decide
    omega
  have hf : min bufChunk (k * bufChunk + bufChunk - (m.sent.take (k * bufChunk)).length) = bufChunk := by
    rw [show (m.sent.take (k * bufChunk)).length = k * bufChunk from hl]
    omega
  rw [step_used rfl]
  simp only [qmAsyncCallback, hg, bind, Except.bind, hf]
  rw [if_neg (by exact hgo)]
  simp only [partly, hb, qmAsyncHandleReq, handleLoop, hp, drop_drop]
  rw [Nat.succ_mul]
  rfl

theorem run_partly {k : Nat} (h : m.size < 2 ^ 31) (hk : k * bufChunk < m.size) :
    run (start m.sent) (List.replicate k (.read bufChunk)) = .ok (partly m k) := by
  induction k with
  | zero =>
    rfl
  | succ k ih =>
    rw [replicate_succ', run_concat, ih (by rw [Nat.succ_mul] at hk; omega)]
    exact step_partly h hk

theorem request_without_room (h : m.size < 2 ^ 31) (hl : 2 ^ 31 - bufChunk < m.size) :
    run (start m.sent) (List.replicate (2 ^ 15) (.read bufChunk)) = .error .overflow := by
  have hk : (2 ^ 15 - 1) * bufChunk < m.size := by
    exact hl
  have hg : grow (partly m (2 ^ 15 - 1)).ctx = .error .overflow := by
    rw [grow, length_partly h hk.le, if_pos (by simp [partly, bufChunk]), if_neg (by norm_num [partly, bufChunk])]
  rw [show 2 ^ 15 = (2 ^ 15 - 1) + 1 from rfl, replicate_succ', run_concat, run_partly h hk]
  change step (partly m (2 ^ 15 - 1)) (.read bufChunk) = _
  rw [step_used rfl, qmAsyncCallback, hg]
  rfl

end OpenSync.Qm
