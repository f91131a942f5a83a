import OpenSync.Qm

/-!
# The format of requests

What a request is, without any limit of the arithmetic: the code recognises the same requests as long as none of them
takes too much room.
-/

namespace OpenSync.Qm
open List Request

open Framing

variable {buf : List Byte} {r : Request}

/-! ## Headers -/

variable {xs : List Byte}

theorem byteAt_append {i : Nat} (h : i < xs.length) (ys : List Byte) : byteAt (xs ++ ys) i = byteAt xs i := by
  simp [byteAt, getElem?_append_left h]

theorem wordAt_append {i : Nat} (h : i + 3 < xs.length) (ys : List Byte) : wordAt (xs ++ ys) i = wordAt xs i := by
  rw [wordAt, byteAt_append h, byteAt_append (by omega), byteAt_append (by omega), byteAt_append (by omega)]
  rfl

theorem ofBytes_append (h : requestSize ≤ xs.length) (ys : List Byte) :
    Request.ofBytes (xs ++ ys) = Request.ofBytes xs := by
  unfold requestSize at h
  have hb : ∀ i < 56, byteAt (xs ++ ys) i = byteAt xs i := fun i hi => byteAt_append (by omega) ys
  have hw : ∀ i < 53, wordAt (xs ++ ys) i = wordAt xs i := fun i hi => wordAt_append (by omega) ys
  simp only [ofBytes, mk.injEq]
  refine ⟨?_, hw _ (by omega), hw _ (by omega), hw _ (by omega), hw _ (by omega), ?_, hb _ (by omega),
    hb _ (by omega), hb _ (by omega), hb _ (by omega), hw _ (by omega), hw _ (by omega),
    hw _ (by omega), hw _ (by omega)⟩
  · congr 1
    funext i
    exact hb i (by omega)
  · congr 1
    funext i
    exact hb (20 + i) (by omega)

theorem wordBytes_append (x : BitVec 32) :
    x.extractLsb' 24 8 ++ x.extractLsb' 16 8 ++ x.extractLsb' 8 8 ++ x.extractLsb' 0 8 = x := by
  ext i hi
  simp only [BitVec.getElem_append, BitVec.getElem_extractLsb']
  split_ifs <;> (rw [BitVec.getLsbD_eq_getElem (by omega)]; congr 1; omega)

theorem length_bytes (r : Request) : r.bytes.length = requestSize := by
  simp [bytes, wordBytes, requestSize]

theorem byteAt_sender (r : Request) (i : Fin 16) : byteAt r.bytes (20 + i) = r.sender[i] := by
  have hf : (r.tag.toList ++ wordBytes r.ver ++ wordBytes r.seq ++ wordBytes r.cmd ++ wordBytes r.flags).length = 20 := by
    simp [wordBytes]
  have hs : r.bytes = (r.tag.toList ++ wordBytes r.ver ++ wordBytes r.seq ++ wordBytes r.cmd ++ wordBytes r.flags) ++
      (r.sender.toList ++ r.bytes.drop 36) := by
    simp [bytes, wordBytes, drop_append]
  rw [hs, byteAt, getD_eq_getElem?_getD, getElem?_append_right (by omega), hf,
    Nat.add_sub_cancel_left, getElem?_append_left (by simp)]
  simp

theorem ofBytes_bytes (r : Request) : Request.ofBytes r.bytes = r := by
  have hs : Vector.ofFn (fun i : Fin 16 => byteAt r.bytes (20 + i)) = r.sender := by
    apply Vector.ext
    intro i hi
    rw [Vector.getElem_ofFn]
    exact byteAt_sender r ⟨i, hi⟩
  obtain ⟨tag, ver, seq, cmd, flags, sender, setQos, qosVal, compress, dataType, interval, topicLen, dataSize, reserved⟩ := r
  simp only [ofBytes, mk.injEq, hs]
  simp [bytes, wordBytes, wordAt, byteAt, getElem?_append, wordBytes_append]

/-! ## The format -/

def Request.frameSize (r : Request) : Nat := requestSize + r.topicLen.toNat + r.dataSize.toNat

def fieldAt (buf : List Byte) (offset len : Nat) : Option (List Byte) :=
  if len = 0 then none else some ((buf.drop offset).take len)

def itemAt (buf : List Byte) : Item :=
  let req := Request.ofBytes buf
  ⟨req, fieldAt buf requestSize req.topicLen.toNat, fieldAt buf (requestSize + req.topicLen.toNat) req.dataSize.toNat,
    req.dataSize.toNat⟩

def nextItem (buf : List Byte) : Option (Item × Nat) :=
  if buf.length < requestSize then none
  else if buf.length < (Request.ofBytes buf).frameSize then none
  else some (itemAt buf, (Request.ofBytes buf).frameSize)

theorem nextItem_eq_some {qi : Item} {n : Nat} :
    nextItem buf = some (qi, n) ↔ (requestSize ≤ buf.length ∧ (Request.ofBytes buf).frameSize ≤ buf.length) ∧
      itemAt buf = qi ∧ (Request.ofBytes buf).frameSize = n := by
  unfold nextItem
  split_ifs with h₁ h₂
  · simp [h₁.not_ge]
  · simp [h₂.not_ge]
  · simp [not_lt.mp h₁, not_lt.mp h₂]

theorem fieldAt_append {offset len : Nat} (h : offset + len ≤ buf.length) (ys : List Byte) :
    fieldAt (buf ++ ys) offset len = fieldAt buf offset len := by
  unfold fieldAt
  rw [drop_append_of_le_length (by omega), take_append_of_le_length (by rw [length_drop]; omega)]

theorem itemAt_append (h : requestSize ≤ buf.length) (hf : (Request.ofBytes buf).frameSize ≤ buf.length)
    (ys : List Byte) : itemAt (buf ++ ys) = itemAt buf := by
  unfold frameSize at hf
  simp only [itemAt, ofBytes_append h]
  rw [fieldAt_append (by omega), fieldAt_append (by omega)]

def format : Format Byte Item where
  next := nextItem
  pos h := by
    obtain ⟨-, -, rfl⟩ := nextItem_eq_some.mp h
    rw [Request.frameSize, requestSize]
    omega
  fits h := by
    obtain ⟨⟨-, hfits⟩, -, rfl⟩ := nextItem_eq_some.mp h
    exact hfits
  extend ys h := by
    obtain ⟨⟨hheader, hfits⟩, rfl, rfl⟩ := nextItem_eq_some.mp h
    rw [nextItem_eq_some, ofBytes_append hheader, itemAt_append hheader hfits, List.length_append]
    exact ⟨⟨by omega, by omega⟩, rfl, rfl⟩

/-! ## The code recognises it -/

/-- The largest request for which memory can be had, whatever its parts are read in. -/
def frameLimit : Nat := 2 ^ 31 - 2 * bufChunk + 1

def HeaderSafe (buf : List Byte) : Prop := requestSize ≤ buf.length → (Request.ofBytes buf).frameSize ≤ frameLimit

theorem HeaderSafe.lt (h : HeaderSafe buf) (hl : requestSize ≤ buf.length) :
    (Request.ofBytes buf).frameSize < 2 ^ 31 := (h hl).trans_lt (by norm_num [frameLimit, bufChunk])

theorem HeaderSafe.of_append {xs ys : List Byte} (h : HeaderSafe (xs ++ ys)) : HeaderSafe xs := by
  intro hl
  have hs := h (by rw [length_append]; omega)
  rwa [ofBytes_append hl] at hs

theorem toInt_of_lt {x : BitVec 32} (h : x.toNat < 2 ^ 31) : x.toInt = x.toNat := BitVec.toInt_eq_toNat_of_lt (by omega)

theorem total_eq (h : r.frameSize < 2 ^ 31) : r.total = r.frameSize := by
  unfold frameSize requestSize at h
  have hs : (BitVec.ofNat 32 requestSize + r.topicLen + r.dataSize).toNat = r.frameSize := by
    simp only [BitVec.toNat_add, BitVec.toNat_ofNat, frameSize, requestSize]
    omega
  rw [total, toInt_of_lt (by rw [hs]; exact h), hs]

theorem copyField_eq {offset : Nat} {len spare : BitVec 32} (hl : len.toNat + spare.toNat < 2 ^ 31)
    (hf : offset + len.toNat ≤ buf.length) : copyField buf offset len spare = .ok (fieldAt buf offset len.toNat) := by
  have hs : (len + spare).toNat = len.toNat + spare.toNat := by
    rw [BitVec.toNat_add]
    omega
  unfold copyField fieldAt
  rw [toInt_of_lt (by omega), toInt_of_lt (by omega)]
  by_cases hz : len.toNat = 0
  · rw [if_pos (by omega), if_pos hz]
  · rw [if_neg (by omega), if_neg (by omega), if_neg (by omega), if_neg hz]

theorem qmConnParseReq_eq (h : requestSize ≤ buf.length → (Request.ofBytes buf).frameSize < 2 ^ 31) :
    qmConnParseReq buf = .ok ((format.next buf).map Prod.fst) := by
  change qmConnParseReq buf = .ok ((nextItem buf).map Prod.fst)
  unfold qmConnParseReq nextItem
  by_cases hh : buf.length < requestSize
  · rw [if_pos hh, if_pos hh]
    rfl
  rw [if_neg hh, if_neg hh]
  have hlt := h (not_lt.mp hh)
  simp only [total_eq hlt, Nat.cast_lt]
  by_cases hf : buf.length < (ofBytes buf).frameSize
  · rw [if_pos hf, if_pos hf]
    rfl
  · rw [if_neg hf, if_neg hf]
    unfold frameSize requestSize at hlt hf
    rw [copyField_eq (by simp; omega) (by rw [requestSize]; omega),
      copyField_eq (by simp; omega) (by rw [requestSize]; omega)]
    rfl

end OpenSync.Qm
