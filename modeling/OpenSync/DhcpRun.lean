import OpenSync.Dhcp

/-!
# Leases over runs

Each client should have a record of its own, and a row for the address that it was last granted. Clients whose addresses
begin with the same two octets have one record between them. A release or a refusal carries no lease time, so the row is
written once more instead of deleted, and a row for an address that a client no longer has stays.
-/

namespace OpenSync.Dhcp
open List Keyed

open Tags (Text strLt strLt_irrefl)

/-! ## Addresses as text -/

theorem hexDigit_inj {m n : Nat} (hm : m < 16) (hn : n < 16) (h : hexDigit m = hexDigit n) : m = n := by
  have ha : ∀ m < 16, ∀ n < 16, hexDigit m = hexDigit n → m = n := by decide
  exact ha m hm n hn h

theorem hexStr_inj {a b : UInt8} (h : hexStr a = hexStr b) : a = b := by
  have ha := a.toNat_lt
  have hb := b.toNat_lt
  simp only [hexStr, cons.injEq, and_true] at h
  have hh := hexDigit_inj (by omega) (by omega) h.1
  have hl := hexDigit_inj (by omega) (by omega) h.2
  apply UInt8.toNat_inj.mp
  omega

theorem macStr_inj {m n : Mac} (h : macStr m = macStr n) : m = n := by
  simp only [macStr, hexStr, cons_append, nil_append, cons.injEq, true_and, and_true] at h
  obtain ⟨h0, h0', h1, h1', h2, h2', h3, h3', h4, h4', h5, h5'⟩ := h
  have ho {i : Fin 6} (hh : hexDigit ((m i).toNat / 16) = hexDigit ((n i).toNat / 16))
      (hl : hexDigit ((m i).toNat % 16) = hexDigit ((n i).toNat % 16)) : m i = n i :=
    hexStr_inj (by rw [hexStr, hexStr, hh, hl])
  funext i
  fin_cases i
  · exact ho h0 h0'
  · exact ho h1 h1'
  · exact ho h2 h2'
  · exact ho h3 h3'
  · exact ho h4 h4'
  · exact ho h5 h5'

theorem decStr_inj {a b : UInt8} (h : decStr a = decStr b) : a = b := by
  have hv : ∀ n < 256, (Nat.toDigits 10 n).foldl (fun m c => m * 10 + (c.toNat - 48)) 0 = n := by decide +kernel
  apply UInt8.toNat_inj.mp
  rw [← hv a.toNat a.toNat_lt, ← hv b.toNat b.toNat_lt]
  exact congrArg _ h

theorem dot_notMem_decStr (b : UInt8) : '.' ∉ decStr b := fun h =>
  absurd (Nat.isDigit_of_mem_toDigits (by decide) (by decide) h) (by decide)

theorem before_separator_inj {c : Char} {x y s t : Text} (hx : c ∉ x) (hy : c ∉ y) (h : x ++ c :: s = y ++ c :: t) :
    x = y ∧ s = t := by
  rcases append_eq_append_iff.mp h with ⟨z, rfl, hz⟩ | ⟨z, rfl, hz⟩
  · cases z with
    | nil => exact ⟨(append_nil _).symm, (cons.inj hz).2⟩
    | cons d z => exact absurd ((cons.inj hz).1 ▸ mem_append_right x mem_cons_self) hy
  · cases z with
    | nil => exact ⟨append_nil _, (cons.inj hz).2.symm⟩
    | cons d z => exact absurd ((cons.inj hz).1 ▸ mem_append_right y mem_cons_self) hx

theorem ipStr_inj {a b : Ip} (h : ipStr a = ipStr b) : a = b := by
  have hc {x y : UInt8} {s t : Text} (h : decStr x ++ '.' :: s = decStr y ++ '.' :: t) : x = y ∧ s = t := by
    obtain ⟨hx, ht⟩ := before_separator_inj (dot_notMem_decStr x) (dot_notMem_decStr y) h
    exact ⟨decStr_inj hx, ht⟩
  obtain ⟨h0, h⟩ := hc h
  obtain ⟨h1, h⟩ := hc h
  obtain ⟨h2, h⟩ := hc h
  funext i
  fin_cases i
  · exact h0
  · exact h1
  · exact h2
  · exact decStr_inj h

/-! ## Well-formed messages -/

inductive Opt
  | pad
  | leaseTime (t : BitVec 32)
  | msgType (t : UInt8)
  | field (id : UInt8) (value : Bytes)

def Opt.WellFormed : Opt → Prop
  | .field id value => id ≠ 0 ∧ id ≠ 255 ∧ id ≠ optionLeaseTime ∧ id ≠ optionMsgType ∧ value.length ≤ 255
  | _ => True

def htonl (t : BitVec 32) : Bytes :=
  [.ofNat (t.toNat / 16777216), .ofNat (t.toNat / 65536), .ofNat (t.toNat / 256), .ofNat t.toNat]

def Opt.encode : Opt → Bytes
  | .pad => [0]
  | .leaseTime t => optionLeaseTime :: 4 :: htonl t
  | .msgType t => [optionMsgType, 1, t]
  | .field id value => id :: .ofNat value.length :: value

structure Message where
  chaddr : Mac
  yiaddr : Ip
  opts : List Opt
  padding : Bytes
  wellFormed : ∀ o ∈ opts, o.WellFormed

def encodeOpts (opts : List Opt) (padding : Bytes) : Bytes := opts.flatMap Opt.encode ++ 255 :: padding

def Message.hdr (m : Message) : DhcpHdr := ⟨m.yiaddr, m.chaddr, dhcpMagic, encodeOpts m.opts m.padding⟩

/-- Hostnames that do not fit a row have the message thrown away. -/
def Opt.discards : Opt → Bool
  | .field id value => id = optionHostname && fieldSize - 1 ≤ value.length
  | _ => false

def Message.discarded (m : Message) : Bool := m.opts.any Opt.discards

def typeIn (opts : List Opt) (type : UInt8) : UInt8 :=
  opts.foldl (fun type o => match o with
    | .msgType t => t
    | _ => type) type

def Message.type (m : Message) : UInt8 := typeIn m.opts 0

def leaseTimeIn (opts : List Opt) (time : Option (BitVec 32)) : Option (BitVec 32) :=
  opts.foldl (fun time o => match o with
    | .leaseTime t => some t
    | _ => time) time

def Message.leaseTime (m : Message) : Option (BitVec 32) := leaseTimeIn m.opts none

/-! ## Options -/

theorem ntohl_htonl (t : BitVec 32) (rest : Bytes) : ntohl (htonl t ++ rest) = t := by
  apply BitVec.eq_of_toNat_eq
  simp [ntohl, htonl]
  omega

def Opt.apply (s : Scan) : Opt → Scan
  | .pad => s
  | .leaseTime t => { s with lease.dlip.leaseTime := t }
  | .msgType t => { s with msgType := t, lease.dhcpMsgType := t }
  | .field id value => processOption id value.length value s

def applyOpts : List Opt → Scan → Scan
  | [], s => s
  | o :: opts, s => if (o.apply s).discarded then o.apply s else applyOpts opts (o.apply s)

theorem processOption_append {id : UInt8} {value rest : Bytes} {s : Scan} (ht : id ≠ optionLeaseTime)
    (hty : id ≠ optionMsgType) : processOption id value.length (value ++ rest) s = processOption id value.length value s := by
  simp [processOption, ht, hty]

theorem processOptions_cons {id len : UInt8} {popt : Bytes} {s : Scan} (hz : id ≠ 0) (hen : id ≠ 255)
    (hl : len.toNat ≤ popt.length) :
    processOptions (id :: len :: popt) s =
      if (processOption id len.toNat popt s).discarded then processOption id len.toNat popt s
      else processOptions (popt.drop len.toNat) (processOption id len.toNat popt s) := by
  rw [processOptions.eq_def]
  simp [hen, hz, if_neg (not_lt.mpr hl)]

theorem processOptions_end (rest : Bytes) (s : Scan) : processOptions (255 :: rest) s = s := by
  rw [processOptions.eq_def]
  exact if_pos rfl

open Opt

theorem processOptions_opt {o : Opt} (ho : o.WellFormed) (rest : Bytes) {s : Scan} (hs : s.discarded = false) :
    processOptions (o.encode ++ rest) s =
      if (o.apply s).discarded then o.apply s else processOptions rest (o.apply s) := by
  cases o with
  | pad =>
    rw [apply, hs, if_neg Bool.false_ne_true, encode, singleton_append, processOptions.eq_def]
    exact (if_neg (by decide)).trans (if_pos rfl)
  | leaseTime t =>
    have hb : processOption optionLeaseTime 4 (htonl t ++ rest) s = apply s (.leaseTime t) := by
      rw [processOption, if_pos rfl, ntohl_htonl]
      rfl
    have hl : (4 : UInt8).toNat ≤ (htonl t ++ rest).length := by simp [htonl]
    rw [encode, cons_append, cons_append, processOptions_cons (by decide) (by decide) hl, ← hb]
    rfl
  | msgType t =>
    have hl : (1 : UInt8).toNat ≤ (t :: rest).length := by simp
    exact processOptions_cons (by decide) (by decide) hl
  | field id value =>
    obtain ⟨hz, hen, ht, hty, hsi⟩ := ho
    have hl : (UInt8.ofNat value.length).toNat = value.length := by
      rw [UInt8.toNat_ofNat', Nat.mod_eq_of_lt (by omega)]
    rw [encode, cons_append, cons_append, processOptions_cons hz hen (by rw [hl]; simp), hl,
      drop_left, processOption_append ht hty]
    rfl

variable {opts : List Opt}

theorem processOptions_encode (h : ∀ o ∈ opts, o.WellFormed) {padding : Bytes} {s : Scan}
    (hs : s.discarded = false) : processOptions (encodeOpts opts padding) s = applyOpts opts s := by
  induction opts generalizing s with
  | nil => exact processOptions_end padding s
  | cons o opts ih =>
    have hc : encodeOpts (o :: opts) padding = o.encode ++ encodeOpts opts padding := by
      rw [encodeOpts, flatMap_cons, append_assoc]
      rfl
    rw [hc, processOptions_opt (h o mem_cons_self) _ hs, applyOpts]
    split_ifs with hd
    · rfl
    · exact ih (forall_mem_cons.mp h).2 (Bool.eq_false_of_not_eq_true hd)

structure Read (opts : List Opt) (s s' : Scan) : Prop where
  hwaddr : s'.lease.dlip.hwaddr = s.lease.dlip.hwaddr
  inetAddr : s'.lease.dlip.inetAddr = s.lease.dlip.inetAddr
  discarded : s'.discarded = opts.any Opt.discards
  type : s'.discarded = false → s'.msgType = typeIn opts s.msgType
  leaseTime : s'.discarded = false → s'.lease.dlip.leaseTime = (leaseTimeIn opts none).getD s.lease.dlip.leaseTime

theorem leaseTimeIn_getD (opts : List Opt) (time : Option (BitVec 32)) (t : BitVec 32) :
    (leaseTimeIn opts time).getD t = (leaseTimeIn opts none).getD (time.getD t) := by
  induction opts generalizing time t with
  | nil => rfl
  | cons o opts ih =>
    cases o with
    | leaseTime u => exact (ih (some u) t).trans (ih (some u) (time.getD t)).symm
    | pad | msgType u | field id value => exact ih time t

theorem Opt.apply_read {o : Opt} (ho : o.WellFormed) {s : Scan} (hs : s.discarded = false) : Read [o] s (o.apply s) := by
  cases o with
  | pad | leaseTime t | msgType t => exact ⟨rfl, rfl, hs, fun _ => rfl, fun _ => rfl⟩
  | field id value =>
    obtain ⟨-, -, ht, hty, -⟩ := ho
    have hd : [field id value].any discards = (id = optionHostname && fieldSize - 1 ≤ value.length) := by
      simp [discards]
    simp only [apply, processOption, if_neg ht, if_neg hty]
    split_ifs with hp hh hem hl hv hn hb
    · exact ⟨rfl, rfl, by rw [hd, hp]; exact hs, fun _ => rfl, fun _ => rfl⟩
    · exact ⟨rfl, rfl, by rw [hd, hem]; exact hs.trans (Bool.and_false _).symm, fun _ => rfl, fun _ => rfl⟩
    · exact ⟨rfl, rfl, by rw [hd]; simp [hh, hl], fun _ => rfl, fun _ => rfl⟩
    · exact ⟨rfl, rfl, by rw [hd]; simp [hl, hs], fun _ => rfl, fun _ => rfl⟩
    all_goals exact ⟨rfl, rfl, by rw [hd]; simp [hh, hs], fun _ => rfl, fun _ => rfl⟩

theorem Read.cons {o : Opt} {s s₁ s₂ : Scan} (h : Read [o] s s₁) (hs₁ : s₁.discarded = false)
    (h' : Read opts s₁ s₂) : Read (o :: opts) s s₂ := by
  have ha : (o :: opts).any discards = opts.any discards := by
    have hno := h.discarded.symm.trans hs₁
    rw [any_cons, any_nil, Bool.or_false] at hno
    rw [any_cons, hno, Bool.false_or]
  refine ⟨h'.hwaddr.trans h.hwaddr, h'.inetAddr.trans h.inetAddr, h'.discarded.trans ha.symm, fun hs₂ => ?_, fun hs₂ => ?_⟩
  · rw [h'.type hs₂, h.type hs₁]
    rfl
  · rw [h'.leaseTime hs₂, h.leaseTime hs₁, ← leaseTimeIn_getD opts (leaseTimeIn [o] none)]
    rfl

theorem applyOpts_read (h : ∀ o ∈ opts, o.WellFormed) {s : Scan} (hs : s.discarded = false) :
    Read opts s (applyOpts opts s) := by
  induction opts generalizing s with
  | nil => exact ⟨rfl, rfl, hs, fun _ => rfl, fun _ => rfl⟩
  | cons o opts ih =>
    have ho := apply_read (h o mem_cons_self) hs
    rw [applyOpts]
    split_ifs with hd
    · have ha : (o :: opts).any discards = true := by
        have hy := ho.discarded.symm.trans hd
        rw [any_cons, any_nil, Bool.or_false] at hy
        rw [any_cons, hy, Bool.true_or]
      exact ⟨ho.hwaddr, ho.inetAddr, hd.trans ha.symm, fun hno => absurd (hd.symm.trans hno) (by decide),
        fun hno => absurd (hd.symm.trans hno) (by decide)⟩
    · have hk := Bool.eq_false_of_not_eq_true hd
      exact ho.cons hk (ih (forall_mem_cons.mp h).2 hk)

/-! ## The table -/

def HasRow (table : List Dlip) (hwaddr inetAddr : Text) : Prop :=
  ∃ row ∈ table, row.hwaddr = hwaddr ∧ row.inetAddr = inetAddr

variable {hwaddr inetAddr : Text}

theorem sameRow_iff {row : Dlip} :
    row.sameRow hwaddr inetAddr = true ↔ row.hwaddr = hwaddr ∧ row.inetAddr = inetAddr := by
  rw [Dlip.sameRow, Bool.and_eq_true, decide_eq_true_eq, decide_eq_true_eq]

variable {table : List Dlip}

theorem hasRow_delete {hwaddr inetAddr hwaddr' inetAddr' : Text} :
    HasRow (ovsdbSyncDeleteWhere hwaddr inetAddr table) hwaddr' inetAddr' ↔
      HasRow table hwaddr' inetAddr' ∧ ¬ (hwaddr' = hwaddr ∧ inetAddr' = inetAddr) := by
  simp only [HasRow, ovsdbSyncDeleteWhere, mem_filter, Bool.not_eq_true', Bool.eq_false_iff, ne_eq, sameRow_iff]
  constructor
  · rintro ⟨row, ⟨hr, ho⟩, rfl, rfl⟩
    exact ⟨⟨row, hr, rfl, rfl⟩, ho⟩
  · rintro ⟨⟨row, hr, rfl, rfl⟩, ho⟩
    exact ⟨row, ⟨hr, ho⟩, rfl, rfl⟩

theorem hasRow_upsert {dlip : Dlip} :
    HasRow (ovsdbSyncUpsertWhere dlip.hwaddr dlip.inetAddr dlip table) hwaddr inetAddr ↔
      HasRow table hwaddr inetAddr ∨ (hwaddr = dlip.hwaddr ∧ inetAddr = dlip.inetAddr) := by
  have ht : table.countP (Dlip.sameRow dlip.hwaddr dlip.inetAddr) ≠ 0 → HasRow table dlip.hwaddr dlip.inetAddr := by
    intro hne
    obtain ⟨row, hr, hs⟩ := countP_pos_iff.mp (Nat.pos_of_ne_zero hne)
    exact ⟨row, hr, sameRow_iff.mp hs⟩
  have ha (hne : table.countP (Dlip.sameRow dlip.hwaddr dlip.inetAddr) ≠ 0) :
      HasRow table hwaddr inetAddr ↔ HasRow table hwaddr inetAddr ∨ (hwaddr = dlip.hwaddr ∧ inetAddr = dlip.inetAddr) :=
    ⟨.inl, fun h => h.elim id fun heq => heq.1 ▸ heq.2 ▸ ht hne⟩
  unfold ovsdbSyncUpsertWhere
  split
  case h_1 =>
    simp only [HasRow, exists_mem_cons_iff]
    rw [or_comm, eq_comm (a := hwaddr), eq_comm (a := inetAddr)]
  case h_2 hc =>
    rw [← ha (by omega)]
    simp only [HasRow, mem_map, exists_exists_and_eq_and]
    refine exists_congr fun row => and_congr_right fun _ => ?_
    by_cases hs : row.sameRow dlip.hwaddr dlip.inetAddr = true
    · rw [if_pos hs, (sameRow_iff.mp hs).1, (sameRow_iff.mp hs).2]
    · rw [if_neg hs]
  case h_3 hz _ => exact ha hz

def enabled : Config := ⟨true, some "true".toList⟩

theorem hasRow_update {dlip : Dlip} : HasRow (dhcpLeaseUpdateTable enabled dlip table) hwaddr inetAddr ↔
      if dlip.leaseTime = 0 then HasRow table hwaddr inetAddr ∧ ¬ (hwaddr = dlip.hwaddr ∧ inetAddr = dlip.inetAddr)
      else HasRow table hwaddr inetAddr ∨ (hwaddr = dlip.hwaddr ∧ inetAddr = dlip.inetAddr) := by
  have hin : ¬ ((!enabled.tableInit) = true ∧ dlip.leaseTime = 0) := fun h => absurd h.1 (by decide)
  have hon : ¬ enabled.updateOvsdb ≠ some "true".toList := fun h => h rfl
  rw [dhcpLeaseUpdateTable, if_neg hin, if_neg hon]
  split_ifs
  · exact hasRow_delete
  · exact hasRow_upsert

/-! ## Records -/

section

variable {s : Session} {mac : Mac} {m : Message}

/-- What the tree tells a client by. -/
def keyOf (mac : Mac) : Text := (macStr mac).take macSize

theorem leaseKey_leaseOf (s : Session) (mac : Mac) : leaseKey (leaseOf s mac) = keyOf mac := by
  rw [leaseOf]
  cases hf : find leaseKey ((macStr mac).take macSize) s.leases with
  | none => rfl
  | some lease => exact key_of_find hf

theorem find_withLease (s : Session) (mac : Mac) (k : Text) : find leaseKey k (withLease s mac) =
      if k = keyOf mac then some (leaseOf s mac) else find leaseKey k s.leases := by
  rw [withLease, leaseOf]
  cases hf : find leaseKey ((macStr mac).take macSize) s.leases with
  | none =>
    rw [if_neg (by simp), find_insert strLt_irrefl]
    rfl
  | some lease =>
    rw [if_pos (by simp)]
    split_ifs with hk
    · rw [hk]
      exact hf
    · rfl

theorem unique_withLease (h : Unique leaseKey s.leases) : Unique leaseKey (withLease s mac) := by
  rw [withLease]
  split_ifs with hf
  · exact h
  · exact h.insert strLt (Option.not_isSome_iff_eq_none.mp hf)

theorem find_replace_withLease {lease : Lease} (hk : leaseKey lease = keyOf mac) (k : Text) :
    find leaseKey k (replace leaseKey lease (withLease s mac)) =
      if k = keyOf mac then some lease else find leaseKey k s.leases := by
  rw [find_replace, find_withLease, hk]
  split_ifs <;> rfl

theorem find_drop_withLease {lease : Lease} (hk : leaseKey lease = keyOf mac) (k : Text) :
    find leaseKey k (drop leaseKey (leaseKey lease) (withLease s mac)) =
      if k = keyOf mac then none else find leaseKey k s.leases := by
  rw [find_drop, find_withLease, hk]
  split_ifs <;> rfl

/-! ## One message -/

def Message.Settles (m : Message) : Prop := m.type = msgAck ∨ m.type = msgNack ∨ m.type = msgRelease

def Message.Leaves (m : Message) : Prop := m.type = msgNack ∨ m.type = msgRelease

instance (m : Message) : Decidable m.Settles := inferInstanceAs (Decidable (_ ∨ _))

instance (m : Message) : Decidable m.Leaves := inferInstanceAs (Decidable (_ ∨ _))

def scanOf (s : Session) (m : Message) : Scan :=
  processOptions m.hdr.options ⟨leaseOf s m.chaddr, 0, [], false⟩

theorem scanOf_read (s : Session) (m : Message) : Read m.opts ⟨leaseOf s m.chaddr, 0, [], false⟩ (scanOf s m) := by
  have hs : scanOf s m = applyOpts m.opts ⟨leaseOf s m.chaddr, 0, [], false⟩ := processOptions_encode m.wellFormed rfl
  rw [hs]
  exact applyOpts_read m.wellFormed rfl

theorem leaseKey_scanOf (s : Session) (m : Message) : leaseKey (scanOf s m).lease = keyOf m.chaddr := by
  rw [leaseKey, (scanOf_read s m).hwaddr]
  exact leaseKey_leaseOf s m.chaddr

def step (s : Session) (m : Message) : Session := dhcpProcessMessage enabled s m.hdr

theorem step_eq (s : Session) (m : Message) : step s m =
    if (scanOf s m).discarded then ⟨replace leaseKey (scanOf s m).lease (withLease s m.chaddr), s.table⟩
    else processPhase enabled m.yiaddr (scanOf s m) ⟨withLease s m.chaddr, s.table⟩ := by
  have hm : ¬ m.hdr.magic ≠ dhcpMagic := fun h => h rfl
  rfl

theorem processPhase_leases (yiaddr : Ip) (scan : Scan) (s : Session) :
    (∃ lease, lease.dlip.hwaddr = scan.lease.dlip.hwaddr ∧
        (processPhase enabled yiaddr scan s).leases = replace leaseKey lease s.leases) ∨
      ((scan.msgType = msgNack ∨ scan.msgType = msgRelease) ∧
        (processPhase enabled yiaddr scan s).leases = drop leaseKey (leaseKey scan.lease) s.leases) := by
  rw [processPhase]
  by_cases hl : scan.msgType = msgNack ∨ scan.msgType = msgRelease
  · refine .inr ⟨hl, ?_⟩
    rcases hl with heq | heq
    all_goals
      rw [heq]
      rfl
  · left
    split_ifs
    all_goals
      refine ⟨_, ?_, rfl⟩
      rfl

theorem processPhase_table (yiaddr : Ip) (scan : Scan) (s : Session) :
    (processPhase enabled yiaddr scan s).table = if scan.msgType = msgAck then
        dhcpLeaseUpdateTable enabled { scan.lease.dlip with inetAddr := ipStr yiaddr } s.table
      else if scan.msgType = msgNack ∨ scan.msgType = msgRelease then dhcpLeaseUpdateTable enabled scan.lease.dlip s.table
      else s.table := by
  rw [processPhase]
  by_cases ha : scan.msgType = msgAck
  · rw [if_pos ha, ha]
    rfl
  by_cases hl : scan.msgType = msgNack ∨ scan.msgType = msgRelease
  · rcases hl with heq | heq
    all_goals
      rw [heq]
      rfl
  · split_ifs <;> rfl

theorem step_leases (s : Session) (m : Message) : (∃ lease, lease.dlip.hwaddr = (leaseOf s m.chaddr).dlip.hwaddr ∧
        (step s m).leases = replace leaseKey lease (withLease s m.chaddr)) ∨
      (m.Leaves ∧ (step s m).leases = drop leaseKey (leaseKey (scanOf s m).lease) (withLease s m.chaddr)) := by
  have hr := scanOf_read s m
  rw [step_eq]
  split_ifs with hd
  · exact .inl ⟨_, hr.hwaddr, rfl⟩
  · have ht : (scanOf s m).msgType = m.type := hr.type (Bool.eq_false_of_not_eq_true hd)
    rcases processPhase_leases m.yiaddr (scanOf s m) ⟨withLease s m.chaddr, s.table⟩ with ⟨lease, hle, heq⟩ | ⟨hl, heq⟩
    · exact .inl ⟨lease, hle.trans hr.hwaddr, heq⟩
    · rw [ht] at hl
      exact .inr ⟨hl, heq⟩

/-- The address and the lease time in effect when the message is through. -/
def addressOf (s : Session) (m : Message) : Text :=
  if m.type = msgAck then ipStr m.yiaddr else (leaseOf s m.chaddr).dlip.inetAddr

def timeOf (s : Session) (m : Message) : BitVec 32 := m.leaseTime.getD (leaseOf s m.chaddr).dlip.leaseTime

theorem step_rows (ho : (leaseOf s m.chaddr).dlip.hwaddr = macStr m.chaddr) (hwaddr inetAddr : Text) :
    HasRow (step s m).table hwaddr inetAddr ↔ if m.discarded = false ∧ m.Settles then
        if timeOf s m = 0 then
          HasRow s.table hwaddr inetAddr ∧ ¬ (hwaddr = macStr m.chaddr ∧ inetAddr = addressOf s m)
        else HasRow s.table hwaddr inetAddr ∨ (hwaddr = macStr m.chaddr ∧ inetAddr = addressOf s m)
      else HasRow s.table hwaddr inetAddr := by
  have hr := scanOf_read s m
  have hdi : (scanOf s m).discarded = m.discarded := hr.discarded
  rw [step_eq, hdi]
  cases hd : m.discarded with
  | true => rw [if_pos rfl, if_neg fun h => absurd h.1 (by decide)]
  | false =>
    rw [hd] at hdi
    have hty : (scanOf s m).msgType = m.type := hr.type hdi
    have ht : (scanOf s m).lease.dlip.leaseTime = timeOf s m := hr.leaseTime hdi
    have hhw : (scanOf s m).lease.dlip.hwaddr = macStr m.chaddr := hr.hwaddr.trans ho
    rw [if_neg Bool.false_ne_true, processPhase_table, hty]
    by_cases hac : m.type = msgAck
    · have ha : addressOf s m = ipStr m.yiaddr := if_pos hac
      rw [if_pos hac, if_pos ⟨rfl, .inl hac⟩, hasRow_update, ht, hhw, ha]
    · have ha : addressOf s m = (scanOf s m).lease.dlip.inetAddr := (if_neg hac).trans hr.inetAddr.symm
      rw [if_neg hac]
      by_cases hl : m.type = msgNack ∨ m.type = msgRelease
      · rw [if_pos hl, if_pos ⟨rfl, .inr hl⟩, hasRow_update, ht, hhw, ha]
      · rw [if_neg hl, if_neg fun h => h.2.elim hac hl]

/-! ## Runs -/

def Message.grant (m : Message) : Option Ip :=
  if m.type = msgAck ∧ m.leaseTime.getD 0 ≠ 0 then some m.yiaddr else none

/-- The address granted by the last message of the client that settles whether it has one. -/
def granted (history : List Message) (mac : Mac) : Option Ip :=
  ((history.filter fun m => m.chaddr = mac ∧ m.Settles).getLast?).bind Message.grant

/-- The last message of the client does not have it forgotten. -/
def Active (history : List Message) (mac : Mac) : Prop :=
  ∃ m, (history.filter fun m => m.chaddr = mac).getLast? = some m ∧ ¬ m.Leaves

def run (history : List Message) : Session := history.foldl step ⟨[], []⟩

theorem run_snoc (history : List Message) (m : Message) : run (history ++ [m]) = step (run history) m := by
  rw [run, foldl_append]
  rfl

theorem granted_snoc (history : List Message) (m : Message) (mac : Mac) :
    granted (history ++ [m]) mac = if m.chaddr = mac ∧ m.Settles then m.grant else granted history mac := by
  rw [granted, filter_append]
  by_cases h : m.chaddr = mac ∧ m.Settles
  · rw [if_pos h, filter_cons_of_pos (by simpa using h), filter_nil, getLast?_append]
    rfl
  · rw [if_neg h, filter_cons_of_neg (by simpa using h), filter_nil, append_nil]
    rfl

variable {history : List Message}

theorem active_snoc_self (h : Active (history ++ [m]) m.chaddr) : ¬ m.Leaves := by
  obtain ⟨m', hl, hs⟩ := h
  rw [filter_append, filter_cons_of_pos (by simp), filter_nil, getLast?_concat, Option.some.injEq] at hl
  exact hl ▸ hs

theorem active_snoc_other (hne : m.chaddr ≠ mac) (h : Active (history ++ [m]) mac) : Active history mac := by
  obtain ⟨m', hl, hs⟩ := h
  rw [filter_append, filter_cons_of_neg (by simpa using hne), filter_nil, append_nil] at hl
  exact ⟨m', hl, hs⟩

/-- Each client has a record of its own, and rows are for the addresses that clients were granted last. -/
structure Tracked (history : List Message) (s : Session) : Prop where
  records : ∀ mac, Active history mac → ∃ lease ∈ s.leases, lease.dlip.hwaddr = macStr mac
  distinct : (s.leases.map fun lease => lease.dlip.hwaddr).Nodup
  rows : ∀ mac ip, HasRow s.table (macStr mac) (ipStr ip) ↔ granted history mac = some ip
  addresses : ∀ mac inetAddr, HasRow s.table (macStr mac) inetAddr → ∃ ip, inetAddr = ipStr ip

/-- No other client whose address begins with the same two octets has a record. A message that settles whether the client
has an address comes when the client has no row for another address than the one in effect, and unless it grants an
address no lease time is in effect. If its hostname is too long, the rows of the client are already as they should be. -/
structure MessageSafe (s : Session) (m : Message) : Prop where
  apart : ∀ lease ∈ s.leases, leaseKey lease = keyOf m.chaddr → lease.dlip.hwaddr = macStr m.chaddr
  settled : m.Settles → m.discarded = false →
    (m.grant = none → timeOf s m = 0) ∧ ∀ row ∈ s.table, row.hwaddr = macStr m.chaddr → row.inetAddr = addressOf s m
  thrown : m.Settles → m.discarded = true →
    ∀ inetAddr, HasRow s.table (macStr m.chaddr) inetAddr ↔ m.grant.map ipStr = some inetAddr

structure Inv (history : List Message) (s : Session) : Prop where
  unique : Keyed.Unique leaseKey s.leases
  records : ∀ mac, Active history mac → ∃ lease, Keyed.find leaseKey (keyOf mac) s.leases = some lease ∧
    lease.dlip.hwaddr = macStr mac
  rows : ∀ mac inetAddr, HasRow s.table (macStr mac) inetAddr ↔ (granted history mac).map ipStr = some inetAddr

theorem leaseOf_own (h : MessageSafe s m) : (leaseOf s m.chaddr).dlip.hwaddr = macStr m.chaddr := by
  rw [leaseOf]
  cases hf : find leaseKey ((macStr m.chaddr).take macSize) s.leases with
  | none => rfl
  | some lease => exact h.apart lease (mem_of_find hf) (key_of_find hf)

theorem Inv.start : Inv [] ⟨[], []⟩ := by
  refine ⟨nodup_nil, ?_, ?_⟩
  · rintro mac ⟨m, hl, -⟩
    exact nomatch hl
  · intro mac inetAddr
    simp [HasRow, granted]

section

variable (h : Inv history s)
include h

theorem Inv.record_other (hs : MessageSafe s m) (ha : Active history mac)
    (hne : m.chaddr ≠ mac) : keyOf mac ≠ keyOf m.chaddr := by
  intro hk
  obtain ⟨lease, hf, hhw⟩ := h.records mac ha
  have ho := hs.apart lease (mem_of_find hf) ((key_of_find hf).trans hk)
  exact hne (macStr_inj (ho.symm.trans hhw))

theorem Inv.stepped_records (hs : MessageSafe s m) (mac : Mac) (ha : Active (history ++ [m]) mac) :
    ∃ lease, find leaseKey (keyOf mac) (step s m).leases = some lease ∧ lease.dlip.hwaddr = macStr mac := by
  have ho := leaseOf_own hs
  by_cases hm : m.chaddr = mac
  · subst hm
    rcases step_leases s m with ⟨lease, hl, heq⟩ | ⟨hle, -⟩
    · have hke : leaseKey lease = keyOf m.chaddr := by rw [leaseKey, hl, ho]; rfl
      refine ⟨lease, ?_, hl.trans ho⟩
      rw [heq, find_replace_withLease hke, if_pos rfl]
    · exact absurd hle (active_snoc_self ha)
  · have hb := active_snoc_other hm ha
    have hk := h.record_other hs hb hm
    obtain ⟨lease', hf, hhw⟩ := h.records mac hb
    refine ⟨lease', ?_, hhw⟩
    rcases step_leases s m with ⟨lease, hl, heq⟩ | ⟨-, heq⟩
    · have hke : leaseKey lease = keyOf m.chaddr := by rw [leaseKey, hl, ho]; rfl
      rw [heq, find_replace_withLease hke, if_neg hk, hf]
    · rw [heq, find_drop_withLease (leaseKey_scanOf s m), if_neg hk, hf]

omit h in
theorem grant_eq_some {ip : Ip} (h : m.grant = some ip) : timeOf s m ≠ 0 ∧ addressOf s m = ipStr ip := by
  rw [Message.grant] at h
  split_ifs at h with hg
  obtain ⟨ha, ht⟩ := hg
  refine ⟨?_, ?_⟩
  · rw [timeOf]
    cases hl : m.leaseTime with
    | none => exact absurd (by rw [hl]; rfl) ht
    | some t => rwa [hl] at ht
  · rw [addressOf, if_pos ha, Option.some.inj h]

omit h in
/-- Rows come out right after a message that settles exactly if they were fit for it. -/
theorem settled_iff : ((m.grant = none → timeOf s m = 0) ∧
      ∀ row ∈ s.table, row.hwaddr = macStr m.chaddr → row.inetAddr = addressOf s m) ↔
    ∀ inetAddr, (if timeOf s m = 0 then HasRow s.table (macStr m.chaddr) inetAddr ∧ ¬ inetAddr = addressOf s m
      else HasRow s.table (macStr m.chaddr) inetAddr ∨ inetAddr = addressOf s m) ↔ m.grant.map ipStr = some inetAddr := by
  constructor
  · rintro ⟨hti, ha⟩ inetAddr
    have hr : HasRow s.table (macStr m.chaddr) inetAddr → inetAddr = addressOf s m := by
      rintro ⟨row, hm, hhw, rfl⟩
      exact ha row hm hhw
    cases hg : m.grant with
    | none =>
      rw [if_pos (hti hg)]
      constructor
      · exact fun hb => absurd (hr hb.1) hb.2
      · exact fun hn => nomatch hn
    | some ip =>
      obtain ⟨hl, hef⟩ := grant_eq_some (s := s) hg
      rw [if_neg hl, hef, Option.map_some, Option.some.injEq]
      rw [hef] at hr
      constructor
      · exact fun hei => hei.elim (fun h => (hr h).symm) Eq.symm
      · exact fun heq => .inr heq.symm
  · refine fun hb => ⟨fun hg => ?_, fun row hr hhw => ?_⟩
    · by_contra hl
      have hef := (hb (addressOf s m)).mp (by rw [if_neg hl]; exact .inr rfl)
      rw [hg] at hef
      exact nomatch hef
    · have ht : HasRow s.table (macStr m.chaddr) row.inetAddr := ⟨row, hr, hhw, rfl⟩
      by_cases hl : timeOf s m = 0
      · by_contra ho
        have hef := (hb row.inetAddr).mp (by rw [if_pos hl]; exact ⟨ht, ho⟩)
        obtain ⟨ip, hg, -⟩ := Option.map_eq_some_iff.mp hef
        exact (grant_eq_some hg).1 hl
      · have hef := (hb row.inetAddr).mp (by rw [if_neg hl]; exact .inl ht)
        obtain ⟨ip, hg, hip⟩ := Option.map_eq_some_iff.mp hef
        exact hip.symm.trans (grant_eq_some hg).2.symm

theorem Inv.stepped_rows (hsa : MessageSafe s m) (mac : Mac) (inetAddr : Text) :
    HasRow (step s m).table (macStr mac) inetAddr ↔ (granted (history ++ [m]) mac).map ipStr = some inetAddr := by
  rw [step_rows (leaseOf_own hsa), granted_snoc]
  by_cases hm : m.chaddr = mac
  · subst hm
    simp only [true_and]
    by_cases hs : m.Settles
    · cases hd : m.discarded with
      | true =>
        rw [if_neg fun hno => absurd hno.1 (by decide), if_pos hs]
        exact hsa.thrown hs hd inetAddr
      | false =>
        rw [if_pos ⟨rfl, hs⟩, if_pos hs]
        exact settled_iff.mp (hsa.settled hs hd) inetAddr
    · rw [if_neg fun hy => hs hy.2, if_neg hs]
      exact h.rows _ _
  · have hhw : macStr mac ≠ macStr m.chaddr := fun heq => hm (macStr_inj heq).symm
    simp only [hhw, hm, false_and, not_false_eq_true, and_true, or_false, ite_self, if_false]
    exact h.rows mac inetAddr

theorem Inv.stepped (hs : MessageSafe s m) : Inv (history ++ [m]) (step s m) := by
  refine ⟨?_, h.stepped_records hs, h.stepped_rows hs⟩
  rcases step_leases s m with ⟨lease, -, heq⟩ | ⟨-, heq⟩
  · rw [heq]
    exact (unique_withLease h.unique).replace lease
  · rw [heq]
    exact (unique_withLease h.unique).drop _

theorem Inv.tracked : Tracked history s := by
  refine ⟨fun mac ha => ?_, ?_, fun mac ip => ?_, fun mac inetAddr hr => ?_⟩
  · obtain ⟨lease, hf, hhw⟩ := h.records mac ha
    exact ⟨lease, mem_of_find hf, hhw⟩
  · have hu := h.unique
    rw [Keyed.Unique] at hu
    have hm : s.leases.map leaseKey = (s.leases.map fun lease => lease.dlip.hwaddr).map (take macSize) := by
      rw [map_map]
      rfl
    rw [hm] at hu
    exact hu.of_map _
  · rw [h.rows, Option.map_eq_some_iff]
    constructor
    · rintro ⟨ip', hip', heq⟩
      exact ipStr_inj heq ▸ hip'
    · exact fun hip => ⟨ip, hip, rfl⟩
  · obtain ⟨ip, -, heq⟩ := Option.map_eq_some_iff.mp ((h.rows mac inetAddr).mp hr)
    exact ⟨ip, heq.symm⟩

omit h in
theorem Tracked.hasRow_iff (h : Tracked history s) (mac : Mac) (inetAddr : Text) :
    HasRow s.table (macStr mac) inetAddr ↔ (granted history mac).map ipStr = some inetAddr := by
  rw [Option.map_eq_some_iff]
  constructor
  · intro hr
    obtain ⟨ip, rfl⟩ := h.addresses mac inetAddr hr
    exact ⟨ip, (h.rows mac ip).mp hr, rfl⟩
  · rintro ⟨ip, hip, rfl⟩
    exact (h.rows mac ip).mpr hip

theorem Inv.safe_of_tracked
    (ho : (leaseOf s m.chaddr).dlip.hwaddr = macStr m.chaddr) (ha : Tracked (history ++ [m]) (step s m)) :
    MessageSafe s m := by
  have hr (inetAddr : Text) (hs : m.Settles) :
      HasRow (step s m).table (macStr m.chaddr) inetAddr ↔ m.grant.map ipStr = some inetAddr := by
    rw [ha.hasRow_iff, granted_snoc, if_pos ⟨rfl, hs⟩]
  refine ⟨fun lease hl hk => ?_, fun hs hd => ?_, fun hs hd inetAddr => ?_⟩
  · have hf := find_of_mem h.unique hl
    rw [hk] at hf
    rw [← ho, leaseOf]
    exact congrArg (fun found => (found.getD (newLease m.chaddr)).dlip.hwaddr) hf.symm
  · refine settled_iff.mpr fun inetAddr => ?_
    rw [← hr inetAddr hs, step_rows ho]
    simp [hd, hs]
  · rw [← hr inetAddr hs, step_rows ho, if_neg]
    exact fun hno => Bool.false_ne_true (hno.1.symm.trans hd)

end

end

def RunSafe (history : List Message) : Prop :=
  ∀ before m after, history = before ++ m :: after → MessageSafe (run before) m

theorem RunSafe.inv {history : List Message} (h : RunSafe history) : Inv history (run history) := by
  induction history using reverseRecOn with
  | nil => exact Inv.start
  | append_singleton history m ih =>
    have hb : RunSafe history := by
      rintro before m' after rfl
      exact h before m' (after ++ [m]) (by rw [append_assoc, cons_append])
    rw [run_snoc]
    exact (ih hb).stepped (h history m [] rfl)

/-- Each message goes into a record of its client's own and after each of them records and table are as the messages say,
exactly in the runs of safe messages. -/
theorem leases_tracked_iff (history : List Message) :
    (∀ before after, history = before ++ after → Tracked before (run before) ∧
        ∀ m ∈ after.head?, (leaseOf (run before) m.chaddr).dlip.hwaddr = macStr m.chaddr) ↔
      RunSafe history := by
  constructor
  · -- the invariant is carried along, since each message is seen to be safe from what it led to
    intro h
    induction history using reverseRecOn with
    | nil =>
      rintro before m after heq
      exact absurd heq (by simp)
    | append_singleton history m ih =>
      have hb : RunSafe history := by
        refine ih fun before after heq => ?_
        obtain ⟨ht, ho⟩ := h before (after ++ [m]) (by rw [heq, append_assoc])
        exact ⟨ht, fun m' hm' => ho m' (by rw [head?_append, hm']; rfl)⟩
      have ho := (h history [m] rfl).2 m rfl
      have ha := (h (history ++ [m]) [] (append_nil _).symm).1
      rw [run_snoc] at ha
      have hl := hb.inv.safe_of_tracked ho ha
      rintro before m' after heq
      rcases eq_nil_or_concat after with rfl | ⟨after, m'', rfl⟩
      · obtain ⟨rfl, hm⟩ := append_inj' heq rfl
        exact (cons.inj hm).1 ▸ hl
      · rw [concat_eq_append, ← cons_append, ← append_assoc] at heq
        obtain ⟨rfl, -⟩ := append_inj' heq rfl
        exact hb before m' after rfl
  · intro h before after heq
    have hb : RunSafe before := by
      rintro before' m after' rfl
      exact h before' m (after' ++ after) (by rw [heq, append_assoc, cons_append])
    refine ⟨hb.inv.tracked, ?_⟩
    intro m hm
    cases after with
    | nil => exact nomatch hm
    | cons m' after' =>
      rw [Option.mem_def, head?_cons, Option.some.injEq] at hm
      exact leaseOf_own (h before m after' (hm ▸ heq))

instance (table : List Dlip) (hwaddr inetAddr : Text) : Decidable (HasRow table hwaddr inetAddr) :=
  inferInstanceAs (Decidable (∃ row ∈ table, row.hwaddr = hwaddr ∧ row.inetAddr = inetAddr))

def phone : Mac := ![0xaa, 0xbb, 0, 0, 0, 1]

def laptop : Mac := ![0xaa, 0xbb, 0, 0, 0, 2]

def lowIp : Ip := ![10, 0, 0, 1]

def highIp : Ip := ![10, 0, 0, 2]

def ackFor (mac : Mac) (ip : Ip) : Message :=
  ⟨mac, ip, [.msgType msgAck, .leaseTime 3600], [], by simp [Opt.WellFormed]⟩

def releaseOf (mac : Mac) : Message := ⟨mac, 0, [.msgType msgRelease], [], by simp [Opt.WellFormed]⟩

theorem leases_confused :
    ((run [ackFor phone lowIp, ackFor laptop highIp]).leases.map (fun lease => lease.dlip.hwaddr) = [macStr phone] ∧
      HasRow (run [ackFor phone lowIp, ackFor laptop highIp]).table (macStr phone) (ipStr highIp)) ∧
    (HasRow (run [ackFor phone lowIp, releaseOf phone]).table (macStr phone) (ipStr lowIp) ∧
      granted [ackFor phone lowIp, releaseOf phone] phone = none) ∧
    HasRow (run [ackFor phone lowIp, ackFor phone highIp]).table (macStr phone) (ipStr lowIp) ∧
      granted [ackFor phone lowIp, ackFor phone highIp] phone = some highIp := by
  decide +kernel

end OpenSync.Dhcp
