import OpenSync.Buffer
import OpenSync.Dhcp

/-!
# Bytes and buffers of a DHCP message

`dhcp_process_message` once more, this time by the bytes it reads and the buffers it fills. Each read is noted with the
end of what it belongs to, the packet or an option. Behind the payload comes some memory.
-/

namespace OpenSync.Dhcp.Raw

/-- What `dhcp_process_message` is given, and what is behind it. -/
structure Payload where
  bytes : Bytes
  memory : ℕ → UInt8

namespace Payload

variable (x : Payload)

def size : ℕ := x.bytes.length

def byte (off : ℕ) : UInt8 := x.bytes.getD off (x.memory off)

def slice (off n : ℕ) : Bytes := (List.range n).map fun i => x.byte (off + i)

def ntohl (off : ℕ) : ℕ :=
  (((x.byte off).toNat * 256 + (x.byte (off + 1)).toNat) * 256 + (x.byte (off + 2)).toNat) * 256 +
    (x.byte (off + 3)).toNat

end Payload

/-- An offset, and the end of what is read there. -/
abbrev Read := ℕ × ℕ

def reading (off n stop : ℕ) : List Read := (List.range n).map fun i => (off + i, stop)

variable (x : Payload)

/-! ## Domain search -/

def maxDnLen : ℕ := 253

/-- What was read, and what `dhcp_local_domain_option_processing` works on: the name so far, where it ends, and the names
of the session. -/
structure Search where
  reads : List Read
  fqdn : Buffer UInt8
  pfqdn : ℕ
  domains : List Bytes

namespace Search

variable (s : Search)

def read (off n stop : ℕ) : Search := { s with reads := s.reads ++ reading off n stop }

def append (bytes : Bytes) : Search := { s with fqdn := s.fqdn.put s.pfqdn bytes, pfqdn := s.pfqdn + bytes.length }

def clear : Search := { s with fqdn := { s.fqdn with cells := List.replicate maxDnLen 0 }, pfqdn := 0 }

def endName : Search :=
  { s.clear with domains := if s.fqdn.cells ∈ s.domains then s.domains else s.fqdn.cells :: s.domains }

end Search

def dot : UInt8 := 46

def copyLabel (popt optlen npos : ℕ) (s : Search) : Search :=
  let labelLen := (x.byte (popt + npos)).toNat
  let s := (s.read (popt + npos) 1 (popt + optlen)).read (popt + (npos + 1)) labelLen (popt + optlen)
  (s.append (x.slice (popt + (npos + 1)) labelLen)).read (popt + (npos + 1 + labelLen)) 1 (popt + optlen)

@[grind =] def dhcpLocalDomainOptionProcessing (popt optlen npos : ℕ) (s : Search) : Search :=
  if npos < optlen then
    let next := npos + 1 + (x.byte (popt + npos)).toNat
    let s := copyLabel x popt optlen npos s
    if x.byte (popt + next) ≠ 0 then dhcpLocalDomainOptionProcessing popt optlen next (s.append [dot])
    else dhcpLocalDomainOptionProcessing popt optlen (next + 1) s.endName
  else s
  termination_by optlen - npos

/-! ## Options -/

def optionAddressRequest : UInt8 := 50
def optionDomainSearch : UInt8 := 119

structure State where
  search : Search
  fin : Buffer UInt8
  hostname : Buffer UInt8
  vendorClass : Buffer UInt8
  fingerprint : Buffer UInt8
  leaseTime : BitVec 32
  msgType : UInt8
  discarded : Bool

def State.read (st : State) (off n stop : ℕ) : State := { st with search := st.search.read off n stop }

def finSize : ℕ := 256

/-- The loop over a parameter list, and where it ends in the buffer. -/
def paramListLoop (fin : Buffer UInt8) (pfin : ℕ) : Bytes → Buffer UInt8 × ℕ
  | [] => (fin, pfin)
  | b :: bs =>
    if b = 0 then paramListLoop fin pfin bs
    else if finSize - 1 < pfin then (fin, pfin)
    else paramListLoop (fin.write pfin b) (pfin + 1) bs

def paramList (fin : Buffer UInt8) (bs : Bytes) : Buffer UInt8 :=
  let (fin, pfin) := paramListLoop fin 0 bs
  fin.write pfin 0

def copyText (field : Buffer UInt8) (bs : Bytes) : Buffer UInt8 := (field.put 0 bs).write bs.length 0

def processOption (optid : UInt8) (popt optlen : ℕ) (st : State) : State :=
  let stop := popt + optlen
  if optid = optionAddressRequest then st.read popt 4 stop
  else if optid = optionLeaseTime then { st.read popt 4 stop with leaseTime := BitVec.ofNat 32 (x.ntohl popt) }
  else if optid = optionMsgType then { st.read popt 1 stop with msgType := x.byte popt }
  else if optid = optionParamList then { st.read popt optlen stop with fin := paramList st.fin (x.slice popt optlen) }
  else if optid = optionHostname then
    if optlen = 0 then st
    else if fieldSize - 1 ≤ optlen then { st with discarded := true }
    else { st.read popt optlen stop with hostname := copyText st.hostname (x.slice popt optlen) }
  else if optid = optionVendorClass then
    if optlen = 0 then st
    else if fieldSize - 1 ≤ optlen then st
    else { st.read popt optlen stop with vendorClass := copyText st.vendorClass (x.slice popt optlen) }
  else if optid = optionDomainSearch then
    { st with search := dhcpLocalDomainOptionProcessing x popt optlen 0 st.search.clear }
  else st

@[grind =] def processOptions (popt : ℕ) (st : State) : State :=
  if popt < x.size then
    let st := st.read popt 1 x.size
    let optid := x.byte popt
    if optid = 255 then st
    else if optid = 0 then processOptions (popt + 1) st
    else if x.size < popt + 2 then st
    else
      let st := st.read (popt + 1) 1 x.size
      let optlen := (x.byte (popt + 1)).toNat
      if x.size < popt + 2 + optlen then st
      else
        let st := processOption x optid (popt + 2) optlen st
        if st.discarded then st else processOptions (popt + 2 + optlen) st
  else st
  termination_by x.size - popt

/-! ## Fingerprint -/

def decBytes (b : UInt8) : Bytes := (decStr b).map fun c => UInt8.ofNat c.toNat

def comma : UInt8 := 44

def snprintf (s : Buffer UInt8) (len room : ℕ) (text : Bytes) : Buffer UInt8 :=
  if room = 0 then s else s.put len (text.take (room - 1) ++ [0])

/-- The numbers up to a zero. A list without one is left behind. -/
def fingerprintLoop (sz : ℕ) (s : Buffer UInt8) (len : ℕ) : Bytes → Buffer UInt8 × Bool
  | [] => ({ s with overrun := true }, false)
  | b :: bs =>
    if b = 0 then (s, true)
    else
      let text := if len = 0 then decBytes b else comma :: decBytes b
      let s := snprintf s len (sz - len) text
      if sz ≤ len + text.length then (s.write len 0, false) else fingerprintLoop sz s (len + text.length) bs

def dpFingerprintToStr (finger : Bytes) (s : Buffer UInt8) (sz : ℕ) : Buffer UInt8 × Bool :=
  fingerprintLoop sz (s.write 0 0) 0 finger

/-- The caller clears a fingerprint that could not be printed. -/
def setFingerprint (st : State) : State :=
  let (fingerprint, printed) := dpFingerprintToStr st.fin.cells st.fingerprint fieldSize
  { st with fingerprint := if printed then fingerprint else fingerprint.write 0 0 }

/-! ## Messages -/

def optionsOffset : ℕ := 240

def readYiaddr (st : State) : State := st.read 16 4 x.size

def processPhase (st : State) : State :=
  if st.msgType = msgDiscover then setFingerprint st
  else if st.msgType = msgRequest then
    if st.fingerprint.cells.headD 0 = 0 then setFingerprint st else st
  else if st.msgType = msgOffer then readYiaddr x st
  else if st.msgType = msgAck then readYiaddr x st
  else st

def readHeader (st : State) : State :=
  (((st.read 1 2 x.size).read 4 4 x.size).read 16 4 x.size).read 28 6 x.size

def dhcpProcessMessage (st : State) : State :=
  let st := st.read 236 4 x.size
  if x.ntohl 236 ≠ dhcpMagic then st
  else
    let st := processOptions x optionsOffset (readHeader x st)
    if st.discarded then st else processPhase x st

end OpenSync.Dhcp.Raw
