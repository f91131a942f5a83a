import OpenSync.OvsdbSplit

/-!
# Framing does not depend on cuts outside of escapes

However the stream of messages is cut, the objects that are complete have been handed over and the buffer holds the rest,
as long as no cut falls into an escape sequence. Such a cut closes the connection, and makes a synchronous call fail.
-/

namespace OpenSync.Ovsdb
open List Conn

variable {J : Type*} {js : Jansson J}

/-- An object the server sends, with what separates it from the one before. -/
structure Message (J : Type*) where
  blanks : Text
  text : Text
  value : J

def Message.piece (m : Message J) : Text := m.blanks ++ m.text

/-- The library accepts the object, nothing or one blank is in front of it, and it is not too long for the buffer. -/
structure Message.Valid (js : Jansson J) (m : Message J) : Prop where
  blanks : m.blanks = [] ∨ m.blanks = [' '] ∨ m.blanks = ['\t']
  object : IsObject m.text
  loads : js.loads m.text = some m.value
  short : m.text.length + 4 ≤ maxBufferSize

def stream (ms : List (Message J)) : Text := ms.flatMap Message.piece

variable {m : Message J}

theorem Message.Valid.isBlank (h : m.Valid js) : ∀ c ∈ m.blanks, isBlank c = true := by
  rcases h.blanks with hb | hb | hb <;> simp [hb, Ovsdb.isBlank]

theorem Message.Valid.isPiece (h : m.Valid js) : IsPiece m.piece := ⟨m.blanks, m.text, h.isBlank, h.object, rfl⟩

theorem Message.Valid.length_lt (h : m.Valid js) : m.piece.length + 3 ≤ maxBufferSize := by
  have hs := h.short
  have hbl : m.blanks.length ≤ 1 := by
    rcases h.blanks with hb | hb | hb <;> simp [hb]
  rw [Message.piece, length_append]
  omega

theorem loads_blanks (js : Jansson J) {blanks : Text} (h : ∀ c ∈ blanks, isBlank c = true) (t : Text) :
    js.loads (blanks ++ t) = js.loads t := by
  induction blanks with
  | nil => rfl
  | cons c blanks ih =>
    rw [cons_append, js.loads_blank c _ (h c mem_cons_self), ih (forall_mem_cons.mp h).2]

theorem Message.Valid.loads_piece (h : m.Valid js) : js.loads m.piece = some m.value :=
  (loads_blanks js h.isBlank m.text).trans h.loads

variable {ms : List (Message J)}

theorem lex_stream (h : ∀ m ∈ ms, m.Valid js) : Lex.run .outside (stream ms) = .outside := by
  induction ms with
  | nil => rfl
  | cons m ms ih =>
    have hm := h m mem_cons_self
    rw [stream, flatMap_cons, Lex.run_append, Message.piece, Lex.run_append, lex_blanks hm.isBlank, hm.object.lex]
    exact ih (forall_mem_cons.mp h).2

theorem zero_notMem_stream (h : ∀ m ∈ ms, m.Valid js) : '\x00' ∉ stream ms := by
  intro hme
  obtain ⟨m, hm, hc⟩ := mem_flatMap.mp hme
  exact (h m hm).isPiece.zero_notMem hc

theorem cString_append {t t' : Text} (h : '\x00' ∉ t) : cString (t ++ t') = t ++ cString t' := by
  rw [cString, takeWhile_append_of_pos]
  · rfl
  · intro c hc
    have hne : c ≠ '\x00' := fun he => h (he ▸ hc)
    simpa using hne

theorem cString_eq {t : Text} (h : '\x00' ∉ t) : cString t = t := by
  have ha : cString (t ++ []) = t ++ cString [] := cString_append h
  simpa [cString] using ha

theorem prefix_append_of_le {p a b : Text} (h : p <+: a ++ b) (hle : a.length ≤ p.length) :
    ∃ p', p = a ++ p' ∧ p' <+: b := by
  rcases prefix_append_cases h with hp | hp
  · have heq := hp.eq_of_length_le hle
    exact ⟨[], by simp [heq], nil_prefix⟩
  · exact hp

theorem before_append (t rest : Text) : before (t ++ rest) rest = t := by
  simp [before]

/-! ## One pass over the buffer -/

/-- A part of the stream of `ms` is the messages of `done` and a part of the next one. -/
structure Cut (ms done rest : List (Message J)) (p tail : Text) : Prop where
  messages : ms = done ++ rest
  text : p = stream done ++ tail
  next : tail <+: stream rest
  short : ∀ m ∈ rest.head?, tail.length < m.piece.length

theorem Cut.cons {ms done rest : List (Message J)} {p tail : Text} (h : Cut ms done rest p tail) :
    Cut (m :: ms) (m :: done) rest (m.piece ++ p) tail where
  messages := by rw [h.messages, cons_append]
  text := by rw [h.text, stream, stream, flatMap_cons, append_assoc]
  next := h.next
  short := h.short

theorem readLoop_stream (h : ∀ m ∈ ms, m.Valid js) {p : Text} (hp : p <+: stream ms) (fuel : Nat)
    (hf : p.length < fuel) (out : List J) :
    ∃ done rest tail, Cut ms done rest p tail ∧
      readLoop js fuel p out = (!midEscape tail, out ++ done.map Message.value, tail) := by
  induction ms generalizing p fuel out with
  | nil =>
    have hn := prefix_nil.mp hp
    subst hn
    refine ⟨[], [], [], ⟨rfl, rfl, hp, by simp⟩, ?_⟩
    obtain ⟨fuel, rfl⟩ := Nat.exists_eq_succ_of_ne_zero (Nat.ne_of_gt hf)
    simp [readLoop, jsonSplit, midEscape, Lex.isInside]
  | cons m ms ih =>
    obtain ⟨fuel, rfl⟩ := Nat.exists_eq_succ_of_ne_zero (Nat.ne_of_gt (Nat.lt_of_le_of_lt (Nat.zero_le _) hf))
    have hm := h m mem_cons_self
    have hs : stream (m :: ms) = m.piece ++ stream ms := rfl
    by_cases hlt : p.length < m.piece.length
    · have hpa : p <+: m.piece := by
        exact prefix_of_prefix_length_le hp (prefix_append _ _) (Nat.le_of_lt hlt)
      refine ⟨[], m :: ms, p, ⟨rfl, rfl, hp, by simpa using hlt⟩, ?_⟩
      rw [readLoop, jsonSplit_part hm.isPiece hpa hlt, cutShort, midEscape]
      cases (Lex.run .outside p).isInside <;> simp
    · obtain ⟨p', rfl, hp'⟩ := prefix_append_of_le (hs ▸ hp) (Nat.le_of_not_lt hlt)
      have hpo := length_pos_of_ne_nil hm.isPiece.ne_nil
      rw [length_append] at hf
      obtain ⟨done, rest, tail, hc, hl⟩ := ih (forall_mem_cons.mp h).2 hp' fuel (by omega) (out ++ [m.value])
      refine ⟨m :: done, rest, tail, hc.cons, ?_⟩
      rw [readLoop, jsonSplit_piece hm.isPiece]
      simp only [before_append, hm.loads_piece, hl]
      simp

/-! ## The connection -/

/-- Complete messages have been handed over, once each and in order, and the buffer holds the part of the next one that
has come already. -/
structure Framed (ms : List (Message J)) (c : Conn J) : Prop where
  isOpen : c.closed = false
  cut : ∃ done rest, ms = done ++ rest ∧ c.dispatched = done.map Message.value ∧ c.text ++ c.stream = stream rest ∧
    ∀ m ∈ rest.head?, c.text.length < m.piece.length
  complete : c.stream = [] → c.dispatched = ms.map Message.value ∧ c.text = []

theorem Framed.of_cut {ms done rest : List (Message J)} {c : Conn J} (ho : c.closed = false) (hms : ms = done ++ rest)
    (hd : c.dispatched = done.map Message.value) (hs : c.text ++ c.stream = stream rest)
    (ht : ∀ m ∈ rest.head?, c.text.length < m.piece.length) : Framed ms c where
  isOpen := ho
  cut := ⟨done, rest, hms, hd, hs, ht⟩
  complete hn := by
    rw [hn, append_nil] at hs
    cases rest with
    | nil => exact ⟨by rw [hd, hms, append_nil], hs⟩
    | cons m rest =>
      -- All of the next message would be in the buffer.
      have hlt := ht m rfl
      rw [hs, stream, flatMap_cons, length_append] at hlt
      omega

/-- Memory is had in chunks up to the limit, and a zero fits behind the text. -/
structure Room (c : Conn J) : Prop where
  chunks : chunkSize ∣ c.bufferSize
  limit : c.bufferSize ≤ maxBufferSize
  empty : c.buffer = none → c.bufferSize = 0
  fits : c.buffer ≠ none → c.text.length < c.bufferSize

theorem Room.start (s : Text) : Room (Ovsdb.start s : Conn J) :=
  ⟨Nat.dvd_zero _, Nat.zero_le _, fun _ => rfl, fun h => absurd rfl h⟩

variable (c : Conn J)

@[simp] theorem text_resize : (resize c).text = c.text := by
  unfold resize
  split <;> rfl

@[simp] theorem stream_resize : (resize c).stream = c.stream := by
  unfold resize
  split <;> rfl

@[simp] theorem dispatched_resize : (resize c).dispatched = c.dispatched := by
  unfold resize
  split <;> rfl

@[simp] theorem closed_resize : (resize c).closed = c.closed := by
  unfold resize
  split <;> rfl

theorem chunk_step {n : Nat} (h : chunkSize ∣ n) (hn : n < maxBufferSize) : n + chunkSize ≤ maxBufferSize := by
  obtain ⟨k, rfl⟩ := h
  simp only [chunkSize, maxBufferSize] at hn ⊢
  omega

theorem Room.resized {c : Conn J} (h : Room c) (ht : c.text.length + 4 ≤ maxBufferSize) :
    Room (resize c) ∧ c.text.length + 2 ≤ (resize c).bufferSize := by
  by_cases hn : c.buffer = none
  · have hs := h.empty hn
    have hte : c.text = [] := by simp [text, hn]
    have hr : resize c = { c with buffer := some c.text, bufferSize := c.bufferSize + chunkSize } := by
      simp [resize, hn]
    rw [hr, hs]
    refine ⟨⟨by simp, by simp [chunkSize, maxBufferSize], fun hc => absurd hc (by simp), fun _ => ?_⟩, ?_⟩
    · simp [text, hn, chunkSize]
    · simp [hte, chunkSize]
  · have hlt := h.fits hn
    by_cases hg : c.bufferSize - c.text.length < chunkSize ∧ c.bufferSize < maxBufferSize
    · have hr : resize c = { c with buffer := some c.text, bufferSize := c.bufferSize + chunkSize } := by
        simp [resize, hg]
      rw [hr]
      refine ⟨⟨Nat.dvd_add h.chunks (Nat.dvd_refl _), chunk_step h.chunks hg.2, fun hc => absurd hc (by simp),
        fun _ => ?_⟩, ?_⟩
      · simp only [text, Option.getD_some]
        have := hlt
        simp only [text] at this
        omega
      · dsimp only
        omega
    · have hr : resize c = c := by
        unfold resize
        rw [if_neg]
        simpa [hn] using hg
      rw [hr]
      refine ⟨h, ?_⟩
      rcases Nat.lt_or_ge c.bufferSize maxBufferSize with hm | hm
      · have hch : 2 ≤ chunkSize := by decide
        omega
      · omega

/-- The cut after the next read does not fall into an escape sequence. -/
def ReadSafe (c : Conn J) (n : Nat) : Prop := midEscape (c.text ++ nextChunk c n) = false

instance (c : Conn J) (n : Nat) : Decidable (ReadSafe c n) := inferInstanceAs (Decidable (_ = false))

theorem nextChunk_prefix (n : Nat) : nextChunk c n <+: c.stream := take_prefix _ _

theorem length_nextChunk_le (n : Nat) : (nextChunk c n).length ≤ (resize c).bufferSize - c.text.length - 1 := by
  rw [nextChunk, length_take]
  omega

theorem drop_nextChunk (n : Nat) : nextChunk c n ++ c.stream.drop (nextChunk c n).length = c.stream := by
  obtain ⟨t, ht⟩ := nextChunk_prefix c n
  rw [← ht, drop_left]

section

variable (hv : ∀ m ∈ ms, m.Valid js)
include hv

theorem Framed.text_le {c : Conn J} (h : Framed ms c) :
    c.text.length + 4 ≤ maxBufferSize := by
  obtain ⟨done, rest, rfl, -, hs, ht⟩ := h.cut
  cases rest with
  | nil =>
    have hn : c.text = [] := (append_eq_nil_iff.mp hs).1
    simp [hn, maxBufferSize]
  | cons m rest =>
    have hlt := ht m rfl
    have hm := (hv m (by simp)).length_lt
    omega

theorem Framed.handled {c : Conn J} (h : Framed ms c)
    (hro : Room (resize c)) (hf : c.text.length + 2 ≤ (resize c).bufferSize) (n : Nat) :
    let c' := received js (resize c) (nextChunk c n)
    (ReadSafe c n → Framed ms c' ∧ Room c') ∧ (¬ ReadSafe c n → c'.closed = true) := by
  obtain ⟨done, rest, rfl, hd, hs, ht⟩ := h.cut
  have hr : ∀ m ∈ rest, m.Valid js := fun m hm => hv m (mem_append_right _ hm)
  have hp : c.text ++ nextChunk c n <+: stream rest := by
    rw [← hs, prefix_append_right_inj]
    exact nextChunk_prefix c n
  have hz : '\x00' ∉ c.text ++ nextChunk c n := fun hc => zero_notMem_stream hr (hp.subset hc)
  obtain ⟨done', rest', tail, hcu, hl⟩ := readLoop_stream hr hp _ (Nat.lt_succ_self _) []
  have hmi : midEscape (c.text ++ nextChunk c n) = midEscape tail := by
    have hd' : ∀ m ∈ done', m.Valid js := fun m hm => hr m (hcu.messages ▸ mem_append_left _ hm)
    rw [hcu.text, midEscape, Lex.run_append, lex_stream hd', midEscape]
  have hre : cbOvsdbReadJson js (cString ((resize c).text ++ nextChunk c n)) =
      (!midEscape tail, done'.map Message.value, tail) := by
    rw [text_resize, cString_eq hz, cbOvsdbReadJson, hl, nil_append]
  constructor
  · intro hsa
    have hta : midEscape tail = false := hmi ▸ hsa
    -- What is left of the stream follows the tail.
    have ha : tail ++ c.stream.drop (nextChunk c n).length = stream rest' := by
      have hal : stream done' ++ (tail ++ c.stream.drop (nextChunk c n).length) = stream done' ++ stream rest' := by
        rw [← append_assoc, ← hcu.text, append_assoc, drop_nextChunk, hs, hcu.messages, stream, flatMap_append]
        rfl
      exact append_cancel_left hal
    have hms : done ++ rest = (done ++ done') ++ rest' := by rw [hcu.messages, append_assoc]
    have hsi : tail.length < (resize c).bufferSize := by
      have hle := congrArg length hcu.text
      have hch := length_nextChunk_le c n
      rw [length_append, length_append] at hle
      omega
    simp only [received, hre, hta, Bool.not_false, Bool.not_true, Bool.false_eq_true, if_false]
    split
    · next hn =>
      subst hn
      refine ⟨Framed.of_cut (by simpa using h.isOpen) hms (by simp [hd]) (by simpa [text] using ha)
        (by simpa [text] using hcu.short), ⟨Nat.dvd_zero _, Nat.zero_le _, fun _ => rfl, fun hc => absurd rfl hc⟩⟩
    · refine ⟨Framed.of_cut (by simpa using h.isOpen) hms (by simp [hd]) (by simpa [text] using ha)
        (by simpa [text] using hcu.short), ⟨hro.chunks, hro.limit, fun hc => absurd hc (by simp), fun _ => ?_⟩⟩
      simpa [text] using hsi
  · intro hsa
    have hta : midEscape tail = true := by
      rw [← hmi]
      simpa [ReadSafe] using hsa
    simp only [received, hre, hta, Bool.not_true, Bool.not_false, if_true, close]

theorem Framed.read {c : Conn J} (h : Framed ms c) (hr : Room c) {n : Nat} (hn : 1 ≤ n) :
    (ReadSafe c n → Framed ms (step js c (.bytes n)) ∧ Room (step js c (.bytes n))) ∧
      (¬ ReadSafe c n → (step js c (.bytes n)).closed = true) := by
  obtain ⟨hr', hf⟩ := hr.resized (h.text_le hv)
  have hst : step js c (.bytes n) =
      if nextChunk c n = [] then resize c else received js (resize c) (nextChunk c n) := by
    rw [step, if_neg (by simp [h.isOpen]), cbOvsdbRead, text_resize, if_neg (by omega)]
  rw [hst]
  split
  · next hni =>
    -- Everything has come; the part of a message that is in the buffer is all of it.
    have hstr : c.stream = [] := by
      have hl : (nextChunk c n).length = 0 := by rw [hni]; rfl
      rw [nextChunk, length_take] at hl
      exact length_eq_zero_iff.mp (by omega)
    have hte := (h.complete hstr).2
    refine ⟨fun _ => ⟨?_, hr'⟩, fun hsa => absurd ?_ hsa⟩
    · obtain ⟨done, rest, hms, hd, hs, ht⟩ := h.cut
      exact Framed.of_cut (by simpa using h.isOpen) hms (by simpa using hd) (by simpa using hs) (by simpa using ht)
    · rw [ReadSafe, hni, hte]
      rfl
  · exact h.handled hv hr' hf n

end

/-! ## Runs -/

def CutsSafe (js : Jansson J) (c : Conn J) : List Nat → Prop
  | [] => True
  | n :: cuts => ReadSafe c n ∧ CutsSafe js (step js c (.bytes n)) cuts

def CutsSafe.decide (js : Jansson J) (c : Conn J) : (cuts : List Nat) → Decidable (CutsSafe js c cuts)
  | [] => .isTrue trivial
  | n :: cuts => @instDecidableAnd _ _ inferInstance (CutsSafe.decide js (step js c (.bytes n)) cuts)

instance (js : Jansson J) (c : Conn J) (cuts : List Nat) : Decidable (CutsSafe js c cuts) := CutsSafe.decide js c cuts

theorem run_closed {c : Conn J} (h : c.closed = true) (recvs : List Recv) : run js c recvs = c := by
  induction recvs with
  | nil => rfl
  | cons r recvs ih =>
    have hs : step js c r = c := by simp [step, h]
    rw [run, foldl_cons, hs]
    exact ih

variable {cuts : List Nat}

theorem framed_iff_of (hv : ∀ m ∈ ms, m.Valid js) {c : Conn J} (h : Framed ms c) (hro : Room c)
    (hcu : ∀ n ∈ cuts, 1 ≤ n) : Framed ms (run js c (cuts.map .bytes)) ↔ CutsSafe js c cuts := by
  induction cuts generalizing c with
  | nil => exact iff_of_true h trivial
  | cons n cuts ih =>
    obtain ⟨hs, hb⟩ := h.read hv hro (hcu n mem_cons_self)
    have hru : run js c ((n :: cuts).map .bytes) = run js (step js c (.bytes n)) (cuts.map .bytes) := rfl
    rw [hru]
    by_cases hre : ReadSafe c n
    · obtain ⟨hf, hr⟩ := hs hre
      rw [ih hf hr (forall_mem_cons.mp hcu).2, CutsSafe]
      exact ⟨fun hc => ⟨hre, hc⟩, fun hc => hc.2⟩
    · rw [run_closed (hb hre)]
      refine iff_of_false (fun hf => ?_) fun hc => hre hc.1
      exact absurd hf.isOpen (by simp [hb hre])

/-! ## Synchronous calls -/

/-- No read that comes before the end of the first message stops within an escape sequence. -/
def SyncSafe (piece : Text) (cuts : List Nat) : Prop :=
  ∀ before, before <+: cuts → before.sum < piece.length → midEscape (piece.take before.sum) = false

theorem forall_prefix_cons {P : Nat → Prop} {n : Nat} :
    (∀ before, before <+: n :: cuts → P before.sum) ↔ P 0 ∧ ∀ before, before <+: cuts → P (n + before.sum) := by
  constructor
  · intro h
    refine ⟨h [] nil_prefix, fun before hb => ?_⟩
    exact h (n :: before) (cons_prefix_cons.mpr ⟨rfl, hb⟩)
  · rintro ⟨hn, hc⟩ before hb
    rcases before with _ | ⟨a, before⟩
    · exact hn
    · obtain ⟨rfl, hr⟩ := cons_prefix_cons.mp hb
      exact hc before hr

theorem syncLoop_iff (hm : m.Valid js) (more : Text) (hcu : ∀ n ∈ cuts, 1 ≤ n) {k : Nat}
    (hk : k < m.piece.length) (hmid : midEscape (m.piece.take k) = false) (hsu : m.piece.length ≤ k + cuts.sum) :
    syncLoop js (m.piece.take k) (m.piece.drop k ++ more) cuts = .ok m.value ↔
      ∀ before, before <+: cuts → k + before.sum < m.piece.length → midEscape (m.piece.take (k + before.sum)) = false := by
  have hl := hm.length_lt
  simp only [maxBufferSize] at hl
  induction cuts generalizing k with
  | nil => exact absurd hsu (by simp; omega)
  | cons n cuts ih =>
    have hn := hcu n mem_cons_self
    have hb : (m.piece.take k).length = k := by simp; omega
    have hr : ¬ writeBufSize - 1 ≤ (m.piece.take k).length := by
      simp only [writeBufSize]
      omega
    rw [sum_cons] at hsu
    by_cases hp : k + n < m.piece.length
    · have hmi : min n (writeBufSize - 1 - (m.piece.take k).length) = n := by
        simp only [writeBufSize]
        omega
      have hch : (m.piece.drop k ++ more).take n = (m.piece.drop k).take n :=
        take_append_of_le_length (by rw [length_drop]; omega)
      have hne : (m.piece.drop k).take n ≠ [] := by
        refine ne_nil_of_length_pos ?_
        rw [length_take, length_drop]
        omega
      have ht : m.piece.take k ++ (m.piece.drop k).take n = m.piece.take (k + n) := (take_add ..).symm
      have hz : '\x00' ∉ m.piece.take (k + n) := fun hc => hm.isPiece.zero_notMem (mem_of_mem_take hc)
      have hle : ((m.piece.drop k).take n).length = n := by
        rw [length_take, length_drop]
        omega
      have hd : (m.piece.drop k ++ more).drop n = m.piece.drop (k + n) ++ more := by
        rw [drop_append_of_le_length (by rw [length_drop]; omega), drop_drop]
      have hs := jsonSplit_part hm.isPiece (List.take_prefix (k + n) m.piece) (by rw [length_take]; omega)
      rw [syncLoop, if_neg hr, hmi]
      simp only [hch, if_neg hne, ht, cString_eq hz, hs, hle, hd]
      cases hcut : midEscape (m.piece.take (k + n)) with
      | true =>
        have her : cutShort (Lex.run .outside (m.piece.take (k + n))) = .error := by
          simp only [midEscape] at hcut
          simp [cutShort, hcut]
        rw [her]
        refine iff_of_false (by simp) fun ha => ?_
        have hba := ha [n] (by simp) (by simpa using hp)
        simp [hcut] at hba
      | false =>
        have hmo : cutShort (Lex.run .outside (m.piece.take (k + n))) = .incomplete := by
          simp only [midEscape] at hcut
          simp [cutShort, hcut]
        rw [hmo]
        refine (ih (forall_mem_cons.mp hcu).2 hp hcut (by omega)).trans ?_
        rw [forall_prefix_cons (P := fun i : Nat => k + i < m.piece.length → midEscape (m.piece.take (k + i)) = false)]
        simp only [← Nat.add_assoc]
        exact ⟨fun ha => ⟨fun _ => hmid, ha⟩, fun ha => ha.2⟩
    · -- This read brings the end of the message.
      have hmi : m.piece.length - k ≤ min n (writeBufSize - 1 - (m.piece.take k).length) := by
        rw [hb]
        simp only [writeBufSize]
        omega
      generalize hj : min n (writeBufSize - 1 - (m.piece.take k).length) = j at hmi
      have hch : (m.piece.drop k ++ more).take j = m.piece.drop k ++ more.take (j - (m.piece.length - k)) := by
        rw [take_append, take_of_length_le (by rw [length_drop]; omega), length_drop]
      have hne : m.piece.drop k ++ more.take (j - (m.piece.length - k)) ≠ [] := by
        refine append_ne_nil_of_left_ne_nil (ne_nil_of_length_pos ?_) _
        rw [length_drop]
        omega
      have ht : m.piece.take k ++ (m.piece.drop k ++ more.take (j - (m.piece.length - k))) =
          m.piece ++ more.take (j - (m.piece.length - k)) := by
        rw [← append_assoc, take_append_drop]
      rw [syncLoop, if_neg hr, hj]
      simp only [hch, if_neg hne, ht, cString_append hm.isPiece.zero_notMem, jsonSplit_piece hm.isPiece,
        before_append, finish, hm.loads_piece]
      refine iff_of_true trivial ?_
      rw [forall_prefix_cons (P := fun i : Nat => k + i < m.piece.length → midEscape (m.piece.take (k + i)) = false)]
      exact ⟨fun _ => hmid, fun before _ hlt => absurd hlt (by omega)⟩

/-- Messages are framed properly just if no cut falls into an escape sequence: by the callback for any number of messages,
and by a synchronous call for the first one. -/
theorem framing_iff (js : Jansson J) (ms : List (Message J)) (hv : ∀ m ∈ ms, m.Valid js) (cuts : List Nat)
    (hcuts : ∀ n ∈ cuts, 1 ≤ n) :
    (Framed ms (run js (start (stream ms)) (cuts.map .bytes)) ↔ CutsSafe js (start (stream ms)) cuts) ∧
    ∀ m ∈ ms.head?, m.piece.length ≤ cuts.sum →
      (ovsdbWriteS js (stream ms) cuts = .ok m.value ↔ SyncSafe m.piece cuts) := by
  constructor
  · have hs : Framed ms (start (stream ms)) := by
      refine @Framed.of_cut _ ms [] ms _ rfl rfl rfl rfl fun m hm => ?_
      have hme : m ∈ ms := mem_of_mem_head? hm
      exact length_pos_of_ne_nil (hv m hme).isPiece.ne_nil
    exact framed_iff_of hv hs (Room.start _) hcuts
  · intro m hm hsu
    obtain ⟨rest, rfl⟩ : ∃ rest, ms = m :: rest := head?_eq_some_iff.mp hm
    have hvm := hv m mem_cons_self
    have hl := syncLoop_iff hvm (stream rest) hcuts (length_pos_of_ne_nil hvm.isPiece.ne_nil) rfl (by simpa using hsu)
    simpa [SyncSafe, ovsdbWriteS, stream] using hl

/-! A library whose values are texts, a message with an escape in it, and an empty one. -/

def trimming : Jansson Text where
  loads str := some (str.dropWhile isBlank)
  loads_blank c str h := by rw [List.dropWhile_cons_of_pos h]

def quote : Message Text where
  blanks := []
  text := "\x7b\"a\":\"\\\"\"\x7d".toList
  value := "\x7b\"a\":\"\\\"\"\x7d".toList

def nothing : Message Text := ⟨[' '], "\x7b\x7d".toList, "\x7b\x7d".toList⟩

theorem quote_valid : quote.Valid trimming := by
  refine ⟨.inl rfl, ?_, by decide, by decide⟩
  have hk : Json .members (stringText [.plain 'a' (by decide)] ++ [':'] ++ stringText [.escape '"' (by decide)]) := by
    simpa using @Json.member [] [] [] [] _ [.plain 'a' (by decide)] (by simp) (.string [.escape '"' (by decide)])
  exact ⟨_, hk, by decide⟩

theorem nothing_valid : nothing.Valid trimming :=
  ⟨.inr (.inl rfl), ⟨[], .noMembers (by simp), by decide⟩, by decide, by decide⟩

theorem two_valid : ∀ m ∈ [quote, nothing], m.Valid trimming := by
  exact forall_mem_cons.mpr ⟨quote_valid, forall_mem_singleton.mpr nothing_valid⟩

/-- The cuts fall on both sides of the escape, and in front of the second object. -/
theorem two_framed : (∀ m ∈ [quote, nothing], m.Valid trimming) ∧ (∀ n ∈ [6, 3, 2, 2], 1 ≤ n) ∧
    Framed [quote, nothing] (run trimming (start (stream [quote, nothing])) ([6, 3, 2, 2].map .bytes)) ∧
    (run trimming (start (stream [quote, nothing])) ([6, 3, 2, 2].map .bytes)).dispatched = [quote.value, nothing.value] ∧
    (ovsdbWriteS trimming (stream [quote, nothing]) [6, 3, 2, 2] = .ok quote.value ↔ SyncSafe quote.piece [6, 3, 2, 2]) :=
  have hc : ∀ n ∈ [6, 3, 2, 2], 1 ≤ n := by decide
  have h := framing_iff trimming [quote, nothing] two_valid [6, 3, 2, 2] hc
  ⟨two_valid, hc, h.1.mpr (by decide +kernel), by decide +kernel, h.2 quote rfl (by decide +kernel)⟩

/-- A cut behind the backslash closes the connection, and makes a synchronous call fail. -/
theorem cut_in_escape_closes :
    quote.Valid trimming ∧ (run trimming (start (stream [quote])) ([7, 3].map .bytes)).closed = true ∧
    ¬ Framed [quote] (run trimming (start (stream [quote])) ([7, 3].map .bytes)) ∧
    ovsdbWriteS trimming (stream [quote]) [7, 3] = .failed := by
  refine ⟨quote_valid, by decide +kernel, fun h => ?_, by decide +kernel⟩
  exact absurd h.isOpen (by decide +kernel)

end OpenSync.Ovsdb
