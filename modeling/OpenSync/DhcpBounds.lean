import OpenSync.DhcpBuffer
import Mathlib.Data.List.GetD

/-!
# Bounds of a DHCP message

The buffers of a lease and the parameter list are never overrun. What can go wrong are the reads of a header, of values
with a fixed size and of a domain search, and the buffer of a domain name. Each option tells by its length and its bytes
whether it does.
-/

namespace OpenSync.Dhcp.Raw
open List Buffer

/-! ## Specification -/

structure Fine (size : ℕ) (b : Buffer UInt8) : Prop where
  size_eq : b.size = size
  inside : b.overrun = false
  terminated : 0 ∈ b.cells

structure Sound (st : State) : Prop where
  fin : Fine finSize st.fin
  hostname : Fine fieldSize st.hostname
  vendorClass : Fine fieldSize st.vendorClass
  fingerprint : Fine fieldSize st.fingerprint

def Inside (size : ℕ) (reads : List Read) : Prop := ∀ r ∈ reads, r.1 < r.2 ∧ r.2 ≤ size

structure Search.Clean (size : ℕ) (s : Search) : Prop where
  reads : Inside size s.reads
  fqdn : s.fqdn.overrun = false
  domains : ∀ name ∈ s.domains, 0 ∈ name

/-- What is there when a message comes: the texts of its lease, the names of the session, and what happens to be on the
stack. -/
structure Start where
  state : State
  sound : Sound state
  clean : state.search.Clean 0
  kept : state.discarded = false

structure InBounds (x : Payload) (start : Start) : Prop where
  sound : Sound (dhcpProcessMessage x start.state)
  clean : (dhcpProcessMessage x start.state).search.Clean x.size

/-- A name that ends fits with the character that ends it. -/
def NameFits (name : Bytes) : Prop := name.length < maxDnLen ∨ name.length = maxDnLen ∧ 0 ∈ name

/-- Behind the start of a name come labels, each with its length before it; a zero ends the name, and other names may
follow. -/
def NamesFit (name : Bytes) (value : Bytes) : Prop :=
  match value with
  | [] => True
  | labelLen :: rest =>
    labelLen.toNat < rest.length ∧ if rest.getD labelLen.toNat 0 ≠ 0 then
        (name ++ rest.take labelLen.toNat).length < maxDnLen ∧
          NamesFit (name ++ rest.take labelLen.toNat ++ [dot]) (rest.drop labelLen.toNat)
      else NameFits (name ++ rest.take labelLen.toNat) ∧ NamesFit [] (rest.drop (labelLen.toNat + 1))
  termination_by value.length
  decreasing_by
    all_goals
      simp only [List.length_drop, List.length_cons]
      omega

structure ValueFits (optid : UInt8) (value : Bytes) : Prop where
  word : optid = optionAddressRequest ∨ optid = optionLeaseTime → 4 ≤ value.length
  type : optid = optionMsgType → value ≠ []
  names : optid = optionDomainSearch → NamesFit [] value

def options (opts : Bytes) : List (UInt8 × Bytes) :=
  match opts with
  | [] => []
  | optid :: rest =>
    if optid = 255 then []
    else if optid = 0 then options rest
    else
      match rest with
      | [] => []
      | optlen :: popt =>
        if popt.length < optlen.toNat then []
        else
          (optid, popt.take optlen.toNat) ::
            if optid = optionHostname ∧ fieldSize - 1 ≤ optlen.toNat then [] else options (popt.drop optlen.toNat)
  termination_by opts.length
  decreasing_by
    · simp
    · simp only [List.length_drop, List.length_cons]
      omega

def Fits (x : Payload) : Prop :=
  optionsOffset ≤ x.size ∧ (x.ntohl 236 = dhcpMagic → ∀ o ∈ options (x.bytes.drop optionsOffset), ValueFits o.1 o.2)

/-! ## Reads -/

theorem inside_append {size : ℕ} {reads more : List Read} :
    Inside size (reads ++ more) ↔ Inside size reads ∧ Inside size more := forall_mem_append

theorem inside_reading_of_le {size off n stop : ℕ} (hle : off + n ≤ stop) (hs : stop ≤ size) :
    Inside size (reading off n stop) := by
  rintro r hr
  obtain ⟨i, hi, rfl⟩ := mem_map.1 hr
  have hlt := mem_range.1 hi
  dsimp only
  omega

theorem inside_reading {size off n stop : ℕ} (hn : 0 < n) :
    Inside size (reading off n stop) ↔ off + n ≤ stop ∧ stop ≤ size := by
  refine ⟨fun h => ?_, fun h => inside_reading_of_le h.1 h.2⟩
  have hl := h (off + (n - 1), stop) (mem_map.2 ⟨n - 1, mem_range.2 (by omega), rfl⟩)
  dsimp only at hl
  omega

namespace Payload

variable (x : Payload)

@[simp] theorem length_slice (off n : ℕ) : (x.slice off n).length = n := by simp [slice]

theorem slice_eq {off n : ℕ} (h : off + n ≤ x.size) : x.slice off n = (x.bytes.drop off).take n := by
  apply ext_getElem
  · simp only [length_slice, length_take, length_drop]
    unfold size at h
    omega
  · intro i hi _
    rw [length_slice] at hi
    unfold size at h
    simp only [slice, byte, getElem_map, getElem_range, getElem_take, getElem_drop]
    exact getD_eq_getElem _ _ (by omega)

theorem slice_cons {off n : ℕ} (hn : 0 < n) : x.slice off n = x.byte off :: x.slice (off + 1) (n - 1) := by
  obtain ⟨n, rfl⟩ := Nat.exists_eq_succ_of_ne_zero hn.ne'
  simp [slice, range_succ_eq_map, Nat.add_comm, Nat.add_left_comm]

theorem slice_take {off n k : ℕ} (hk : k ≤ n) : (x.slice off n).take k = x.slice off k := by
  rw [slice, ← map_take, take_range, Nat.min_eq_left hk]
  rfl

theorem slice_drop {off n k : ℕ} : (x.slice off n).drop k = x.slice (off + k) (n - k) := by
  apply ext_getElem
  · simp
  · intro i _ _
    simp [slice, Nat.add_assoc]

theorem slice_getD {off n i : ℕ} (hi : i < n) : (x.slice off n).getD i 0 = x.byte (off + i) := by
  rw [getD_eq_getElem _ _ (by rw [length_slice]; exact hi)]
  simp [slice]

theorem drop_eq_cons {off : ℕ} (h : off < x.size) : x.bytes.drop off = x.byte off :: x.bytes.drop (off + 1) := by
  rw [drop_eq_getElem_cons h, byte, getD_eq_getElem _ _ h]

end Payload

open Payload

/-! ## Domain names -/

namespace Search

structure Holds (s : Search) (name : Bytes) : Prop where
  length_le : name.length ≤ maxDnLen
  fqdn : s.fqdn = .ofCells (name ++ List.replicate (maxDnLen - name.length) 0)
  pfqdn : s.pfqdn = name.length

variable {s : Search} {name : Bytes}

theorem Holds.size_eq (h : s.Holds name) : s.fqdn.size = maxDnLen := by
  have hle := h.length_le
  rw [h.fqdn]
  simp only [Buffer.ofCells, Buffer.size, length_append, length_replicate]
  omega

variable {bytes : Bytes}

section

variable (h : s.Holds name)
include h

theorem Holds.append (hle : name.length + bytes.length ≤ maxDnLen) :
    (s.append bytes).Holds (name ++ bytes) := by
  have hr : s.pfqdn + bytes.length ≤ s.fqdn.size := by
    rw [h.size_eq, h.pfqdn]
    exact hle
  refine ⟨by rw [length_append]; exact hle, ?_, by simp [Search.append, h.pfqdn]⟩
  have hc := Buffer.cells_put bytes hr
  have hin := Buffer.overrun_put_of_le bytes (by rw [h.fqdn]; rfl) hr
  have hre : maxDnLen - name.length - bytes.length = maxDnLen - (name ++ bytes).length := by
    rw [length_append]
    omega
  have hp : (s.append bytes).fqdn = ⟨(s.fqdn.put s.pfqdn bytes).cells, (s.fqdn.put s.pfqdn bytes).overrun⟩ := rfl
  rw [hp, hc, hin, h.fqdn, h.pfqdn]
  simp only [Buffer.ofCells, take_left', drop_append, drop_replicate, Nat.add_sub_cancel_left, hre]
  simp

theorem Holds.overrun (hlt : maxDnLen < name.length + bytes.length) :
    (s.append bytes).fqdn.overrun = true := by
  have hne : bytes ≠ [] := by
    rintro rfl
    have := h.length_le
    simp only [length_nil] at hlt
    omega
  rw [Search.append, Buffer.overrun_put, h.size_eq, h.pfqdn]
  simp [hne, hlt]

theorem Holds.endName : s.endName.Holds [] :=
  ⟨Nat.zero_le _, by simp [Search.endName, Search.clear, h.fqdn, Buffer.ofCells], rfl⟩

theorem Holds.zero_mem_iff : 0 ∈ s.fqdn.cells ↔ NameFits name := by
  have hle := h.length_le
  rw [h.fqdn]
  simp only [Buffer.ofCells, mem_append, mem_replicate, and_true]
  unfold NameFits
  by_cases hlt : name.length < maxDnLen
  · simp only [hlt, true_or, iff_true]
    right
    omega
  · have heq : name.length = maxDnLen := by omega
    simp [heq]

end

variable {size : ℕ}

theorem clean_read {off n stop : ℕ} :
    (s.read off n stop).Clean size ↔ s.Clean size ∧ Inside size (reading off n stop) :=
  ⟨fun h => ⟨⟨(inside_append.1 h.reads).1, h.fqdn, h.domains⟩, (inside_append.1 h.reads).2⟩,
    fun h => ⟨inside_append.2 ⟨h.1.reads, h.2⟩, h.1.fqdn, h.1.domains⟩⟩

theorem Holds.read (h : s.Holds name) (off n stop : ℕ) : (s.read off n stop).Holds name :=
  ⟨h.length_le, h.fqdn, h.pfqdn⟩

theorem Clean.of_read {off n stop : ℕ} (h : (s.read off n stop).Clean size) : s.Clean size := (clean_read.1 h).1

theorem Clean.of_append (h : (s.append bytes).Clean size) : s.Clean size := by
  refine ⟨h.reads, ?_, h.domains⟩
  have hp : (s.fqdn.put s.pfqdn bytes).overrun = false := h.fqdn
  rw [Buffer.overrun_put, Bool.or_eq_false_iff] at hp
  exact hp.1

theorem clean_append_iff (hh : s.Holds name) :
    (s.append bytes).Clean size ↔ s.Clean size ∧ name.length + bytes.length ≤ maxDnLen := by
  constructor
  · intro h
    refine ⟨h.of_append, ?_⟩
    by_contra hlt
    have hf := h.fqdn
    rw [hh.overrun (not_le.1 hlt)] at hf
    cases hf
  · rintro ⟨h, hle⟩
    have hfq := (hh.append hle).fqdn
    exact ⟨h.reads, by rw [hfq]; rfl, h.domains⟩

theorem clean_endName_iff : s.endName.Clean size ↔ s.Clean size ∧ 0 ∈ s.fqdn.cells := by
  unfold endName clear
  by_cases hm : s.fqdn.cells ∈ s.domains
  · simp only [if_pos hm]
    exact ⟨fun h => ⟨⟨h.reads, h.fqdn, h.domains⟩, h.domains _ hm⟩, fun h => ⟨h.1.reads, h.1.fqdn, h.1.domains⟩⟩
  simp only [if_neg hm]
  constructor
  · intro h
    have ha := forall_mem_cons.1 h.domains
    exact ⟨⟨h.reads, h.fqdn, ha.2⟩, ha.1⟩
  · intro h
    exact ⟨h.1.reads, h.1.fqdn, forall_mem_cons.2 ⟨h.2, h.1.domains⟩⟩

end Search

open Search

variable {x : Payload} {s : Search} {popt optlen npos : ℕ}

theorem Search.Clean.of_copyLabel (h : (copyLabel x popt optlen npos s).Clean x.size) : s.Clean x.size :=
  h.of_read.of_append.of_read.of_read

theorem Search.Clean.of_processing
    (h : (dhcpLocalDomainOptionProcessing x popt optlen npos s).Clean x.size) : s.Clean x.size := by
  fun_induction dhcpLocalDomainOptionProcessing x popt optlen npos s
  case case1 ih => exact (ih h).of_append.of_copyLabel
  case case2 ih => exact (clean_endName_iff.1 (ih h)).1.of_copyLabel
  case case3 => exact h

theorem clean_copyLabel_iff {name : Bytes} (hh : s.Holds name) (ho : popt + optlen ≤ x.size) :
    (copyLabel x popt optlen npos s).Clean x.size ↔ s.Clean x.size ∧ npos + 1 + (x.byte (popt + npos)).toNat < optlen ∧
      name.length + (x.byte (popt + npos)).toNat ≤ maxDnLen := by
  unfold copyLabel
  rw [clean_read, clean_append_iff ((hh.read ..).read ..), clean_read, clean_read,
    inside_reading Nat.one_pos, inside_reading Nat.one_pos, length_slice]
  constructor
  · rintro ⟨⟨⟨⟨hc, -⟩, -⟩, hn⟩, hne⟩
    exact ⟨hc, by omega, hn⟩
  · rintro ⟨hc, hne, hn⟩
    exact ⟨⟨⟨⟨hc, by omega⟩, inside_reading_of_le (by omega) ho⟩, hn⟩, by omega⟩

theorem holds_copyLabel {name : Bytes} (hh : s.Holds name)
    (hn : name.length + (x.byte (popt + npos)).toNat ≤ maxDnLen) :
    (copyLabel x popt optlen npos s).Holds
      (name ++ x.slice (popt + (npos + 1)) (x.byte (popt + npos)).toNat) := by
  have hr : name.length + (x.slice (popt + (npos + 1)) (x.byte (popt + npos)).toNat).length ≤ maxDnLen := by
    rw [length_slice]
    exact hn
  exact (((hh.read ..).read ..).append hr).read ..

theorem clean_processing_iff {name : Bytes} (hh : s.Holds name) (hc : s.Clean x.size) (ho : popt + optlen ≤ x.size) :
    (dhcpLocalDomainOptionProcessing x popt optlen npos s).Clean x.size ↔
      NamesFit name (x.slice (popt + npos) (optlen - npos)) := by
  induction hk : optlen - npos using Nat.strong_induction_on generalizing npos s name with
  | _ k ih =>
    rw [dhcpLocalDomainOptionProcessing]
    by_cases hlt : npos < optlen
    · rw [if_pos hlt, x.slice_cons (by omega), NamesFit]
      dsimp only
      have hl : (copyLabel x popt optlen npos s).Clean x.size ↔ _ := clean_copyLabel_iff hh ho
      have hh' (hn : name.length + (x.byte (popt + npos)).toNat ≤ maxDnLen) :
          (copyLabel x popt optlen npos s).Holds _ := holds_copyLabel hh hn
      generalize (x.byte (popt + npos)).toNat = labelLen at hl hh' ⊢
      rw [length_slice]
      by_cases hne : npos + 1 + labelLen < optlen
      · have hof : popt + npos + 1 + labelLen = popt + (npos + 1 + labelLen) := by omega
        have ht : (x.slice (popt + npos + 1) (k - 1)).take labelLen = x.slice (popt + (npos + 1)) labelLen := by
          rw [x.slice_take (by omega), Nat.add_assoc]
        have hlo : (name ++ x.slice (popt + (npos + 1)) labelLen).length = name.length + labelLen := by
          rw [length_append, length_slice]
        rw [x.slice_getD (by omega), x.slice_drop, x.slice_drop, ht, hof]
        simp only [hc, hne, true_and] at hl
        by_cases hz : x.byte (popt + (npos + 1 + labelLen)) = 0
        · rw [if_neg (not_not.2 hz), if_neg (not_not.2 hz)]
          have hre : popt + npos + 1 + (labelLen + 1) = popt + (npos + 1 + labelLen + 1) := by omega
          have hlef : k - 1 - (labelLen + 1) = optlen - (npos + 1 + labelLen + 1) := by omega
          rw [hre, hlef]
          constructor
          · intro h
            have hen := clean_endName_iff.1 h.of_processing
            have hn := hh' (hl.1 hen.1)
            exact ⟨by omega, hn.zero_mem_iff.1 hen.2, (ih _ (by omega) hn.endName h.of_processing rfl).1 h⟩
          · rintro ⟨-, hf, hna⟩
            have hle : name.length + labelLen ≤ maxDnLen := by
              unfold NameFits at hf
              omega
            have hn := hh' hle
            have hen := clean_endName_iff.2 ⟨hl.2 hle, hn.zero_mem_iff.2 hf⟩
            exact (ih _ (by omega) hn.endName hen rfl).2 hna
        · rw [if_pos hz, if_pos hz]
          have hlef : k - 1 - labelLen = optlen - (npos + 1 + labelLen) := by omega
          rw [hlef]
          constructor
          · intro h
            have hn := hh' (hl.1 h.of_processing.of_append)
            have hr := ((clean_append_iff hn).1 h.of_processing).2
            exact ⟨by omega, hr, (ih _ (by omega) (hn.append hr) h.of_processing rfl).1 h⟩
          · rintro ⟨-, hd, hna⟩
            have hle : name.length + labelLen ≤ maxDnLen := by omega
            have hn := hh' hle
            have hr : (name ++ x.slice (popt + (npos + 1)) labelLen).length + [dot].length ≤ maxDnLen := hd
            have ha := (clean_append_iff hn).2 ⟨hl.2 hle, hr⟩
            exact (ih _ (by omega) (hn.append hr) ha rfl).2 hna
      · have hno : ¬ labelLen < k - 1 := by omega
        simp only [hno, false_and, iff_false]
        intro h
        have hco : (copyLabel x popt optlen npos s).Clean x.size := by
          split_ifs at h
          · exact h.of_processing.of_append
          · exact (clean_endName_iff.1 h.of_processing).1
        exact hne (hl.1 hco).2.1
    · have hz : k = 0 := by omega
      rw [if_neg hlt, hz]
      simp only [slice, range_zero, map_nil]
      rw [NamesFit]
      exact iff_true_intro hc

/-! ## Texts of a lease -/

theorem fine_write {size i : ℕ} {b : Buffer UInt8} (hs : b.size = size) (hin : b.overrun = false)
    (hi : i < size) : Fine size (b.write i 0) := by
  have hlt : i < b.size := by omega
  refine ⟨by rw [size_write, hs], ?_, ?_⟩
  · rw [overrun_write, hin]
    simp [not_le.2 hlt]
  · rw [cells_write hlt]
    exact mem_set hlt 0

theorem paramListLoop_inside (fin : Buffer UInt8) (pfin : ℕ) (bs : Bytes) (hs : fin.size = finSize)
    (hin : fin.overrun = false) (hle : pfin + bs.length < finSize) :
    (paramListLoop fin pfin bs).1.size = finSize ∧ (paramListLoop fin pfin bs).1.overrun = false ∧
      (paramListLoop fin pfin bs).2 < finSize := by
  induction bs generalizing fin pfin with
  | nil => exact ⟨hs, hin, hle⟩
  | cons b bs ih =>
    simp only [length_cons] at hle
    unfold paramListLoop
    split_ifs
    · exact ih fin pfin hs hin (by omega)
    · exact ⟨hs, hin, by omega⟩
    · refine ih _ _ (by rw [size_write, hs]) ?_ (by omega)
      rw [overrun_write, hin, hs]
      simp only [Bool.false_or, decide_eq_false_iff_not]
      omega

theorem fine_paramList {fin : Buffer UInt8} (h : Fine finSize fin) {bs : Bytes} (hl : bs.length < finSize) :
    Fine finSize (paramList fin bs) := by
  obtain ⟨hs, hin, hlt⟩ := paramListLoop_inside fin 0 bs h.size_eq h.inside (by omega)
  exact fine_write hs hin hlt

theorem fine_copyText {size : ℕ} {field : Buffer UInt8} (h : Fine size field) {bs : Bytes} (hl : bs.length < size) :
    Fine size (copyText field bs) := by
  have hr : 0 + bs.length ≤ field.size := by
    rw [h.size_eq]
    omega
  exact fine_write (by rw [size_put, h.size_eq]) (Buffer.overrun_put_of_le bs h.inside hr) hl

theorem fine_snprintf {sz len : ℕ} {s : Buffer UInt8} (h : Fine sz s) (hl : len < sz) (text : Bytes) :
    Fine sz (snprintf s len (sz - len) text) := by
  have hne : ¬ sz - len = 0 := by omega
  have hr : len + (text.take (sz - len - 1) ++ [0]).length ≤ s.size := by
    rw [h.size_eq, length_append, length_take, length_singleton]
    omega
  unfold snprintf
  rw [if_neg hne]
  exact ⟨by rw [size_put, h.size_eq], Buffer.overrun_put_of_le _ h.inside hr,
    mem_cells_put _ (mem_append_right _ mem_cons_self) hr⟩

theorem fine_fingerprintLoop {sz len : ℕ} {s : Buffer UInt8} (h : Fine sz s) (hl : len < sz) {finger : Bytes}
    (hz : 0 ∈ finger) : Fine sz (fingerprintLoop sz s len finger).1 := by
  induction finger generalizing s len with
  | nil => cases hz
  | cons b bs ih =>
    unfold fingerprintLoop
    by_cases hb : b = 0
    · rw [if_pos hb]
      exact h
    rw [if_neg hb]
    dsimp only
    generalize (if len = 0 then decBytes b else comma :: decBytes b) = text
    have hp := fine_snprintf h hl text
    split_ifs with hf
    · exact fine_write hp.size_eq hp.inside hl
    · exact ih hp (by omega) ((mem_cons.1 hz).resolve_left (Ne.symm hb))

variable {st : State}

theorem fine_setFingerprint (h : Sound st) : Fine fieldSize (setFingerprint st).fingerprint := by
  have hs : Fine fieldSize (st.fingerprint.write 0 0) :=
    fine_write h.fingerprint.size_eq h.fingerprint.inside (by decide)
  have hl : Fine fieldSize (dpFingerprintToStr st.fin.cells st.fingerprint fieldSize).1 :=
    fine_fingerprintLoop hs (by decide) h.fin.terminated
  unfold setFingerprint
  dsimp only
  split_ifs
  · exact hl
  · exact fine_write hl.size_eq hl.inside (by decide)

theorem sound_setFingerprint (h : Sound st) : Sound (setFingerprint st) :=
  ⟨h.fin, h.hostname, h.vendorClass, fine_setFingerprint h⟩

/-! ## Options -/

theorem Sound.read (h : Sound st) (off n stop : ℕ) : Sound (st.read off n stop) :=
  ⟨h.fin, h.hostname, h.vendorClass, h.fingerprint⟩

theorem sound_processOption (h : Sound st) (optid : UInt8) (hl : optlen < finSize) :
    Sound (processOption x optid popt optlen st) := by
  unfold processOption
  split_ifs
  all_goals try exact ⟨h.fin, h.hostname, h.vendorClass, h.fingerprint⟩
  · exact ⟨fine_paramList h.fin (by rw [length_slice]; exact hl), h.hostname, h.vendorClass, h.fingerprint⟩
  · exact ⟨h.fin, fine_copyText h.hostname (by rw [length_slice]; omega), h.vendorClass, h.fingerprint⟩
  · exact ⟨h.fin, h.hostname, fine_copyText h.vendorClass (by rw [length_slice]; omega), h.fingerprint⟩

theorem search_read (st : State) (off n stop : ℕ) : (st.read off n stop).search = st.search.read off n stop := rfl

variable {optid : UInt8}

theorem Search.Clean.of_processOption
    (h : (processOption x optid popt optlen st).search.Clean x.size) : st.search.Clean x.size := by
  unfold processOption at h
  split_ifs at h
  any_goals exact h
  any_goals exact of_read h
  have hs := of_processing h
  exact ⟨hs.reads, hs.fqdn, hs.domains⟩

variable {value : Bytes}

theorem valueFits_word (h : optid = optionAddressRequest ∨ optid = optionLeaseTime) :
    ValueFits optid value ↔ 4 ≤ value.length := by
  refine ⟨fun hf => hf.word h, fun hl => ⟨fun _ => hl, fun ht => ?_, fun hn => ?_⟩⟩
  · rcases h with rfl | rfl <;> exact absurd ht (by decide)
  · rcases h with rfl | rfl <;> exact absurd hn (by decide)

theorem valueFits_type : ValueFits optionMsgType value ↔ value ≠ [] :=
  ⟨fun hf => hf.type rfl, fun hne => ⟨fun h => absurd h (by decide), fun _ => hne, fun h => absurd h (by decide)⟩⟩

theorem valueFits_names : ValueFits optionDomainSearch value ↔ NamesFit [] value :=
  ⟨fun hf => hf.names rfl, fun hn => ⟨fun h => absurd h (by decide), fun h => absurd h (by decide), fun _ => hn⟩⟩

theorem holds_clear (h : s.fqdn.overrun = false) : s.clear.Holds [] :=
  ⟨Nat.zero_le _, by simp [Search.clear, Buffer.ofCells, h], rfl⟩

theorem valueFits_of_ne (h1 : optid ≠ optionAddressRequest) (h2 : optid ≠ optionLeaseTime)
    (h3 : optid ≠ optionMsgType) (h7 : optid ≠ optionDomainSearch) (value : Bytes) : ValueFits optid value :=
  ⟨fun h => (h.elim h1 h2).elim, fun h => (h3 h).elim, fun h => (h7 h).elim⟩

theorem clean_processOption_iff (h : st.search.Clean x.size) (optid : UInt8) (ho : popt + optlen ≤ x.size) :
    (processOption x optid popt optlen st).search.Clean x.size ↔ ValueFits optid (x.slice popt optlen) := by
  have hr {n : ℕ} (hn : 0 < n) : (st.read popt n (popt + optlen)).search.Clean x.size ↔ n ≤ optlen := by
    rw [search_read, clean_read, inside_reading hn]
    simp only [h, true_and]
    omega
  have ha : (st.read popt optlen (popt + optlen)).search.Clean x.size :=
    clean_read.2 ⟨h, inside_reading_of_le le_rfl ho⟩
  have hp : optionParamList ≠ optionDomainSearch := by decide
  have hh : optionHostname ≠ optionDomainSearch := by decide
  have hv : optionVendorClass ≠ optionDomainSearch := by decide
  unfold processOption
  split_ifs with h1 h2 h3 h4 h5 _ _ h6 _ _ h7
  · rw [valueFits_word (.inl h1), length_slice]
    exact hr (by decide)
  · rw [valueFits_word (.inr h2), length_slice]
    exact hr (by decide)
  · rw [h3, valueFits_type, ← length_pos_iff, length_slice]
    exact hr Nat.one_pos
  · exact iff_of_true ha (valueFits_of_ne h1 h2 h3 (h4 ▸ hp) _)
  · exact iff_of_true h (valueFits_of_ne h1 h2 h3 (h5 ▸ hh) _)
  · exact iff_of_true h (valueFits_of_ne h1 h2 h3 (h5 ▸ hh) _)
  · exact iff_of_true ha (valueFits_of_ne h1 h2 h3 (h5 ▸ hh) _)
  · exact iff_of_true h (valueFits_of_ne h1 h2 h3 (h6 ▸ hv) _)
  · exact iff_of_true h (valueFits_of_ne h1 h2 h3 (h6 ▸ hv) _)
  · exact iff_of_true ha (valueFits_of_ne h1 h2 h3 (h6 ▸ hv) _)
  · rw [h7, valueFits_names]
    have hs : (dhcpLocalDomainOptionProcessing x popt optlen 0 st.search.clear).Clean x.size ↔ _ :=
      clean_processing_iff (holds_clear h.fqdn) ⟨h.reads, h.fqdn, h.domains⟩ ho
    exact hs
  · exact iff_of_true h (valueFits_of_ne h1 h2 h3 h7 _)

theorem discarded_processOption (st : State) (optid : UInt8) (popt optlen : ℕ) :
    (processOption x optid popt optlen st).discarded =
      if optid = optionHostname ∧ fieldSize - 1 ≤ optlen then true else st.discarded := by
  unfold processOption
  by_cases hh : optid = optionHostname
  · have ha : optionHostname ≠ optionAddressRequest := by decide
    have hl : optionHostname ≠ optionLeaseTime := by decide
    have ht : optionHostname ≠ optionMsgType := by decide
    have hp : optionHostname ≠ optionParamList := by decide
    simp only [hh, ha, hl, ht, hp, if_false, if_true, true_and]
    by_cases hz : optlen = 0
    · simp only [hz, if_true]
      rfl
    · rw [if_neg hz]
      split_ifs <;> rfl
  · simp only [hh, if_false, false_and]
    split_ifs <;> rfl

theorem sound_processOptions (h : Sound st) : Sound (processOptions x popt st) := by
  fun_induction processOptions x popt st
  case case2 ih => exact ih (h.read ..)
  case case4 => exact (h.read ..).read ..
  case case5 => exact sound_processOption ((h.read ..).read ..) _ (x.byte _).toNat_lt
  case case6 ih => exact ih (sound_processOption ((h.read ..).read ..) _ (x.byte _).toNat_lt)
  case case7 => exact h
  all_goals exact h.read ..

theorem Search.Clean.of_processOptions (h : (processOptions x popt st).search.Clean x.size) :
    st.search.Clean x.size := by
  fun_induction processOptions x popt st
  case case2 ih => exact of_read (ih h)
  case case4 => exact of_read (of_read h)
  case case5 => exact of_read (of_read h.of_processOption)
  case case6 ih => exact of_read (of_read (ih h).of_processOption)
  case case7 => exact h
  all_goals exact of_read h

theorem clean_processOptions_iff (h : st.search.Clean x.size) (hke : st.discarded = false) :
    (processOptions x popt st).search.Clean x.size ↔ ∀ o ∈ options (x.bytes.drop popt), ValueFits o.1 o.2 := by
  induction hk : x.size - popt using Nat.strong_induction_on generalizing popt st with
  | _ k ih =>
    rw [processOptions]
    dsimp only
    by_cases hlt : popt < x.size
    · have hon : (st.read popt 1 x.size).search.Clean x.size := clean_read.2 ⟨h, inside_reading_of_le (by omega) le_rfl⟩
      rw [if_pos hlt, x.drop_eq_cons hlt]
      by_cases hen : x.byte popt = 255
      · rw [options.eq_def]
        simp [hen, hon]
      by_cases hp : x.byte popt = 0
      · rw [if_neg hen, if_pos hp, options.eq_def]
        simp only [if_neg hen, if_pos hp]
        exact ih _ (by omega) hon hke rfl
      rw [if_neg hen, if_neg hp]
      by_cases hs : x.size < popt + 2
      · have hn : x.bytes.drop (popt + 1) = [] := drop_eq_nil_of_le (by unfold Payload.size at hs; omega)
        rw [if_pos hs, hn, options.eq_def]
        simp [hen, hp, hon]
      have ht : ((st.read popt 1 x.size).read (popt + 1) 1 x.size).search.Clean x.size :=
        clean_read.2 ⟨hon, inside_reading_of_le (by omega) le_rfl⟩
      rw [if_neg hs, x.drop_eq_cons (by omega), options.eq_def]
      simp only [if_neg hen, if_neg hp]
      have hle : (x.bytes.drop (popt + 1 + 1)).length = x.size - (popt + 2) := length_drop
      generalize ho : (x.byte (popt + 1)).toNat = optlen
      by_cases hr : x.size < popt + 2 + optlen
      · rw [if_pos hr, if_pos (by omega)]
        simp [ht]
      have hfe : ¬ (x.bytes.drop (popt + 1 + 1)).length < optlen := by omega
      rw [if_neg hr, if_neg hfe, ← x.slice_eq (by omega), drop_drop, forall_mem_cons]
      have hv := clean_processOption_iff ht (x.byte popt) (not_lt.1 hr)
      by_cases hl : x.byte popt = optionHostname ∧ fieldSize - 1 ≤ optlen
      · have hst : (processOption x (x.byte popt) (popt + 2) optlen
            ((st.read popt 1 x.size).read (popt + 1) 1 x.size)).discarded = true := by
          rw [discarded_processOption, if_pos hl]
        rw [if_pos hst, if_pos hl]
        simpa using hv
      · have hg : (processOption x (x.byte popt) (popt + 2) optlen
            ((st.read popt 1 x.size).read (popt + 1) 1 x.size)).discarded = false := by
          rw [discarded_processOption, if_neg hl]
          exact hke
        rw [if_neg (Bool.eq_false_iff.1 hg), if_neg hl]
        constructor
        · intro ha
          have hc := ha.of_processOptions
          exact ⟨hv.1 hc, (ih _ (by omega) hc hg rfl).1 ha⟩
        · rintro ⟨hf, hre⟩
          exact (ih _ (by omega) (hv.2 hf) hg rfl).2 hre
    · have hn : x.bytes.drop popt = [] := drop_eq_nil_of_le (not_lt.1 hlt)
      rw [if_neg hlt, hn, options.eq_def]
      simp [h]

/-! ## Messages -/

theorem sound_processPhase (h : Sound st) : Sound (processPhase x st) := by
  unfold processPhase readYiaddr
  split_ifs
  any_goals exact sound_setFingerprint h
  any_goals exact h
  all_goals exact h.read ..

theorem clean_processPhase_iff : (processPhase x st).search.Clean x.size ↔
      st.search.Clean x.size ∧ (st.msgType = msgOffer ∨ st.msgType = msgAck → Inside x.size (reading 16 4 x.size)) := by
  have hr : (readYiaddr x st).search.Clean x.size ↔ _ := clean_read
  have hof : msgDiscover ≠ msgOffer ∧ msgRequest ≠ msgOffer := by decide
  have hac : msgDiscover ≠ msgAck ∧ msgRequest ≠ msgAck := by decide
  unfold processPhase
  split_ifs with hd hre _ ho ha
  · simp only [hd, hof.1, hac.1, or_self, false_imp_iff, and_true]
    exact Iff.rfl
  · simp only [hre, hof.2, hac.2, or_self, false_imp_iff, and_true]
    exact Iff.rfl
  · simp [hre, hof.2, hac.2]
  · simp [hr, ho]
  · simp [hr, ha]
  · simp [ho, ha]

theorem Sound.readHeader (h : Sound st) : Sound (readHeader x st) := ⟨h.fin, h.hostname, h.vendorClass, h.fingerprint⟩

theorem clean_readHeader (h : st.search.Clean x.size) (hs : 240 ≤ x.size) : (readHeader x st).search.Clean x.size := by
  have hr (off n : ℕ) (hle : off + n ≤ 240) : Inside x.size (reading off n x.size) :=
    inside_reading_of_le (by omega) le_rfl
  unfold readHeader
  simp only [search_read, clean_read]
  exact ⟨⟨⟨⟨h, hr 1 2 (by decide)⟩, hr 4 4 (by decide)⟩, hr 16 4 (by decide)⟩, hr 28 6 (by decide)⟩

theorem Search.Clean.of_readHeader (h : (readHeader x st).search.Clean x.size) : st.search.Clean x.size := by
  unfold readHeader at h
  simp only [search_read, clean_read] at h
  exact h.1.1.1.1

theorem sound_dhcpProcessMessage (h : Sound st) : Sound (dhcpProcessMessage x st) := by
  have hs : Sound (processOptions x optionsOffset (readHeader x (st.read 236 4 x.size))) :=
    sound_processOptions (h.read 236 4 x.size).readHeader
  unfold dhcpProcessMessage
  dsimp only
  split_ifs
  · exact h.read _ _ _
  · exact hs
  · exact sound_processPhase hs

/-- Parsing a message stays in bounds exactly if its header is there and its options fit. The loops are defined for each
message, so that they end. -/
theorem options_in_bounds_iff (x : Payload) (start : Start) : InBounds x start ↔ Fits x := by
  have hso : Sound (dhcpProcessMessage x start.state) := sound_dhcpProcessMessage start.sound
  have hc : start.state.search.Clean x.size :=
    ⟨fun r hr => absurd (start.clean.reads r hr) (by omega), start.clean.fqdn, start.clean.domains⟩
  have hif : InBounds x start ↔ (dhcpProcessMessage x start.state).search.Clean x.size :=
    ⟨fun h => h.clean, fun h => ⟨hso, h⟩⟩
  have hf : (start.state.read 236 4 x.size).search.Clean x.size ↔ 240 ≤ x.size := by
    rw [search_read, clean_read, inside_reading (by decide)]
    simp [hc]
  rw [hif]
  unfold dhcpProcessMessage Fits
  by_cases hm : x.ntohl 236 = dhcpMagic
  · simp only [hm, ne_eq, not_true_eq_false, if_false, true_imp_iff]
    generalize hst : processOptions x optionsOffset (readHeader x (start.state.read 236 4 x.size)) = st
    constructor
    · intro h
      have ho : st.search.Clean x.size := by
        split_ifs at h
        · exact h
        · exact (clean_processPhase_iff.1 h).1
      rw [← hst] at ho
      have hs := hf.1 ho.of_processOptions.of_readHeader
      exact ⟨hs, (clean_processOptions_iff ho.of_processOptions start.kept).1 ho⟩
    · rintro ⟨hs, hfi⟩
      have hsta := clean_readHeader (hf.2 hs) hs
      have ho : st.search.Clean x.size := by
        rw [← hst]
        exact (clean_processOptions_iff hsta start.kept).2 hfi
      split_ifs
      · exact ho
      · exact clean_processPhase_iff.2 ⟨ho, fun _ => inside_reading_of_le (by unfold optionsOffset at hs; omega) le_rfl⟩
  · simp only [hm, ne_eq, not_false_eq_true, if_true, false_imp_iff, and_true]
    exact hf

def blank (size : ℕ) : Buffer UInt8 := .ofCells (List.replicate size 0)

theorem fine_blank {size : ℕ} (h : size ≠ 0) : Fine size (blank size) :=
  ⟨length_replicate, rfl, mem_replicate.2 ⟨h, rfl⟩⟩

def newStart : Start where
  state :=
    { search := ⟨[], blank maxDnLen, 0, []⟩, fin := blank finSize, hostname := blank fieldSize
      vendorClass := blank fieldSize, fingerprint := blank fieldSize, leaseTime := 0, msgType := 0, discarded := false }
  sound := ⟨fine_blank (by decide), fine_blank (by decide), fine_blank (by decide), fine_blank (by decide)⟩
  clean := ⟨fun _ hr => (List.not_mem_nil hr).elim, rfl, fun _ hname => (List.not_mem_nil hname).elim⟩
  kept := rfl

/-- The magic number is read behind a message of one byte, and a label of 255 bytes behind the option of one byte that
has its length. -/
theorem short_message_outside : (236, 1) ∈ (dhcpProcessMessage ⟨[1], fun _ => 0⟩ newStart.state).search.reads ∧
      (dhcpLocalDomainOptionProcessing ⟨[255], fun _ => 0⟩ 0 1 0 newStart.state.search).fqdn.overrun = true ∧
      ¬ InBounds ⟨[1], fun _ => 0⟩ newStart := by
  have hr : (236, 1) ∈ (dhcpProcessMessage ⟨[1], fun _ => 0⟩ newStart.state).search.reads := by decide
  refine ⟨hr, ?_, fun h => absurd (h.clean.reads _ hr).1 (by decide)⟩
  rw [dhcpLocalDomainOptionProcessing, if_pos (by decide)]
  dsimp only
  rw [if_neg (by decide), dhcpLocalDomainOptionProcessing, if_neg (by decide)]
  decide +kernel

end OpenSync.Dhcp.Raw
