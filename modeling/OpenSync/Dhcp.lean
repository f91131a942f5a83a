import OpenSync.TagList

/-!
# DHCP messages and leases

`dhcp_parse.c` keeps a record for each client in a tree and copies it to the table `DHCP_leased_IP`. The tree compares
the first six characters of an address as text, the size of an address in octets. The options of a message change the
record as they come, and what is left of them decides whether the table is written or deleted from.

What lies behind the end of a packet is read as zeros. The domain search option has its own list, which is left out.
-/

namespace OpenSync.Dhcp

open Tags (Text strLt)

abbrev Bytes := List UInt8

abbrev Mac := Fin 6 → UInt8

abbrev Ip := Fin 4 → UInt8

/-! ## Addresses as text -/

def hexDigit (n : Nat) : Char := "0123456789abcdef".toList.getD n '0'

/-- `%02x` -/
def hexStr (b : UInt8) : Text := [hexDigit (b.toNat / 16), hexDigit (b.toNat % 16)]

/-- `PRI(os_macaddr_lower_t)` -/
def macStr (m : Mac) : Text :=
  hexStr (m 0) ++ ':' :: (hexStr (m 1) ++ ':' :: (hexStr (m 2) ++ ':' :: (hexStr (m 3) ++ ':' :: (hexStr (m 4) ++ ':' ::
    hexStr (m 5)))))

/-- `%d` -/
def decStr (b : UInt8) : Text := Nat.toDigits 10 b.toNat

def ipStr (a : Ip) : Text := decStr (a 0) ++ '.' :: (decStr (a 1) ++ '.' :: (decStr (a 2) ++ '.' :: decStr (a 3)))

/-! ## Records -/

structure Dlip where
  hwaddr : Text
  inetAddr : Text
  hostname : Bytes
  vendorClass : Bytes
  fingerprint : Text
  leaseTime : BitVec 32
  deriving DecidableEq

structure Lease where
  dhcpMsgType : UInt8
  dlip : Dlip
  deriving DecidableEq

/-- `sizeof(os_macaddr_t)` -/
def macSize : Nat := 6

/-- What `dhcp_lease_cmp` compares of an address. -/
def leaseKey (lease : Lease) : Text := lease.dlip.hwaddr.take macSize

structure Session where
  leases : List Lease
  table : List Dlip
  deriving DecidableEq

structure Config where
  tableInit : Bool
  updateOvsdb : Option Text

/-! ## Options -/

def optionHostname : UInt8 := 12
def optionLeaseTime : UInt8 := 51
def optionMsgType : UInt8 := 53
def optionParamList : UInt8 := 55
def optionVendorClass : UInt8 := 60

/-- `sizeof(lease->dlip.hostname)`, which the vendor class and the fingerprint have too. -/
def fieldSize : Nat := 129

structure Scan where
  lease : Lease
  msgType : UInt8
  fin : Bytes
  discarded : Bool

def ntohl (popt : Bytes) : BitVec 32 :=
  BitVec.ofNat 32 (((popt.getD 0 0).toNat * 256 + (popt.getD 1 0).toNat) * 65536 +
    ((popt.getD 2 0).toNat * 256 + (popt.getD 3 0).toNat))

def cString (bs : Bytes) : Bytes := bs.takeWhile (· ≠ 0)

/-- The body of an option starts at `popt`, which goes on to the end of the packet. -/
def processOption (optid : UInt8) (optlen : Nat) (popt : Bytes) (s : Scan) : Scan :=
  if optid = optionLeaseTime then { s with lease.dlip.leaseTime := ntohl popt }
  else if optid = optionMsgType then { s with msgType := popt.getD 0 0, lease.dhcpMsgType := popt.getD 0 0 }
  else if optid = optionParamList then { s with fin := (popt.take optlen).filter (· ≠ 0) }
  else if optid = optionHostname then
    if optlen = 0 then s
    else if fieldSize - 1 ≤ optlen then { s with discarded := true }
    else { s with lease.dlip.hostname := cString (popt.take optlen) }
  else if optid = optionVendorClass then
    if optlen = 0 then s
    else if fieldSize - 1 ≤ optlen then s
    else { s with lease.dlip.vendorClass := cString (popt.take optlen) }
  else s

@[grind =] def processOptions (opts : Bytes) (s : Scan) : Scan :=
  match opts with
  | [] => s
  | optid :: rest =>
    if optid = 255 then s
    else if optid = 0 then processOptions rest s
    else
      match rest with
      | [] => s
      | optlen :: popt =>
        if popt.length < optlen.toNat then s
        else
          let s := processOption optid optlen.toNat popt s
          if s.discarded then s else processOptions (popt.drop optlen.toNat) s
  termination_by opts.length
  decreasing_by
    · simp
    · simp only [List.length_drop, List.length_cons]
      omega

def fingerprintStep (size : Nat) (s : Option Text) (b : UInt8) : Option Text :=
  s.bind fun s =>
    let t := if s = [] then decStr b else s ++ ',' :: decStr b
    if size ≤ t.length then none else some t

/-- `dp_fingerprint_to_str`; the caller clears a fingerprint that does not fit. -/
def dpFingerprintToStr (fin : Bytes) : Text := (fin.foldl (fingerprintStep fieldSize) (some [])).getD []

/-! ## The table -/

def Dlip.sameRow (hwaddr inetAddr : Text) (row : Dlip) : Bool := row.hwaddr = hwaddr && row.inetAddr = inetAddr

def ovsdbSyncDeleteWhere (hwaddr inetAddr : Text) (table : List Dlip) : List Dlip :=
  table.filter fun row => !row.sameRow hwaddr inetAddr

/-- One row is updated, a missing row is inserted; several are an error. -/
def ovsdbSyncUpsertWhere (hwaddr inetAddr : Text) (dlip : Dlip) (table : List Dlip) : List Dlip :=
  match table.countP (Dlip.sameRow hwaddr inetAddr) with
  | 0 => dlip :: table
  | 1 => table.map fun row => if row.sameRow hwaddr inetAddr then dlip else row
  | _ => table

def dhcpLeaseUpdateTable (config : Config) (dlip : Dlip) (table : List Dlip) : List Dlip :=
  if !config.tableInit ∧ dlip.leaseTime = 0 then table
  else if config.updateOvsdb ≠ some "true".toList then table
  else if dlip.leaseTime = 0 then ovsdbSyncDeleteWhere dlip.hwaddr dlip.inetAddr table
  else ovsdbSyncUpsertWhere dlip.hwaddr dlip.inetAddr dlip table

/-! ## Messages -/

def dhcpMagic : Nat := 0x63825363

def msgDiscover : UInt8 := 1
def msgOffer : UInt8 := 2
def msgRequest : UInt8 := 3
def msgAck : UInt8 := 5
def msgNack : UInt8 := 6
def msgRelease : UInt8 := 7

structure DhcpHdr where
  yiaddr : Ip
  chaddr : Mac
  magic : Nat
  options : Bytes

def newLease (mac : Mac) : Lease := ⟨0, ⟨macStr mac, [], [], [], [], 0⟩⟩

def leaseOf (s : Session) (mac : Mac) : Lease :=
  (Keyed.find leaseKey ((macStr mac).take macSize) s.leases).getD (newLease mac)

def withLease (s : Session) (mac : Mac) : List Lease :=
  if (Keyed.find leaseKey ((macStr mac).take macSize) s.leases).isSome then s.leases
  else Keyed.insert leaseKey strLt (newLease mac) s.leases

def processPhase (config : Config) (yiaddr : Ip) (scan : Scan) (s : Session) : Session :=
  let lease := scan.lease
  if scan.msgType = msgDiscover then
    { s with leases := Keyed.replace leaseKey { lease with dlip.fingerprint := dpFingerprintToStr scan.fin } s.leases }
  else if scan.msgType = msgRequest then
    let fingerprint := if lease.dlip.fingerprint = [] then dpFingerprintToStr scan.fin else lease.dlip.fingerprint
    { s with leases := Keyed.replace leaseKey { lease with dlip.fingerprint := fingerprint } s.leases }
  else if scan.msgType = msgOffer then
    { s with leases := Keyed.replace leaseKey { lease with dlip.inetAddr := ipStr yiaddr } s.leases }
  else if scan.msgType = msgAck then
    let lease := { lease with dlip.inetAddr := ipStr yiaddr }
    ⟨Keyed.replace leaseKey lease s.leases, dhcpLeaseUpdateTable config lease.dlip s.table⟩
  else if scan.msgType = msgNack ∨ scan.msgType = msgRelease then
    ⟨Keyed.drop leaseKey (leaseKey lease) s.leases, dhcpLeaseUpdateTable config lease.dlip s.table⟩
  else { s with leases := Keyed.replace leaseKey lease s.leases }

def dhcpProcessMessage (config : Config) (s : Session) (dhcp : DhcpHdr) : Session :=
  if dhcp.magic ≠ dhcpMagic then s
  else
    let scan := processOptions dhcp.options ⟨leaseOf s dhcp.chaddr, 0, [], false⟩
    let s := { s with leases := withLease s dhcp.chaddr }
    if scan.discarded then { s with leases := Keyed.replace leaseKey scan.lease s.leases }
    else processPhase config dhcp.yiaddr scan s

end OpenSync.Dhcp
