import OpenSync.Crc
import OpenSync.Journal

/-!
# PSFS records on disk

`recordWrite` and `recordRead` are `psfs_record_write()` and `psfs_record_read()` on the bytes of a
regular file opened with `O_APPEND`. A record is the magic number, the size of key and data, the
NUL-terminated key, the data and a CRC32, followed by padding up to a multiple of four. The number
of bytes a `writev()` transfers is an argument: it can be anything up to what was asked for.
-/

namespace OpenSync.Psfs

abbrev Bytes := List UInt8

/-- Linux transfers at most this many bytes in one `read()` or `writev()`. -/
def maxRw : ℕ := 0x7ffff000

def magic : ℕ := 0x50534653
def padding : UInt8 := 0xFF
def crc32Poly : BitVec 32 := 0xEDB88320
def crc32Verify : BitVec 32 := 0x2144DF1C

/-- `htonl()` of the low 32 bits, as the bytes end up in the file. -/
def be32 (n : ℕ) : Bytes :=
  [UInt8.ofNat (n / 2 ^ 24), UInt8.ofNat (n / 2 ^ 16), UInt8.ofNat (n / 2 ^ 8), UInt8.ofNat n]

def ofBe32 (b : Bytes) : ℕ := b.foldl (fun n x => n * 256 + x.toNat) 0

def crc32 (crc : BitVec 32) (buf : Bytes) : BitVec 32 := ~~~ Crc.bytes crc32Poly (~~~ crc) buf

/-- A C string: no NUL inside. -/
abbrev Key := {k : Bytes // 0 ∉ k}

structure Record where
  key : Key
  data : Bytes
  dirty : Bool
  used : ℤ
  deriving DecidableEq

def Record.payload (pr : Record) : Bytes := pr.key.1 ++ 0 :: pr.data

def recordInit (key : Key) (data : Bytes) : Record :=
  { key, data, dirty := false, used := key.1.length + 1 + data.length + 12 }

/-- Bytes needed to bring a length to a multiple of four. -/
def padLen (n : ℕ) : ℕ := if n % 4 ≠ 0 then 4 - n % 4 else 0

def recordCrc (pr : Record) : BitVec 32 :=
  crc32 (crc32 (crc32 (crc32 0 (be32 magic)) (be32 (pr.key.1.length + 1 + pr.data.length)))
    (pr.key.1 ++ [0])) pr.data

/-- Magic number, size, key, data and CRC, without padding. -/
def recordBody (pr : Record) : Bytes :=
  be32 magic ++ be32 (pr.key.1.length + 1 + pr.data.length) ++ (pr.key.1 ++ [0]) ++ pr.data ++
    Crc.leBytes (recordCrc pr)

/-- The whole vector handed to `writev()` for a file of length `size`. -/
def recordIov (size : ℕ) (pr : Record) : Bytes :=
  List.replicate (padLen size) padding ++ recordBody pr ++ List.replicate (padLen (recordBody pr).length) padding

/-- `n` is the number of bytes the operating system is ready to take. The results are the file, the
return value and the record. -/
def recordWrite (f : Bytes) (pr : Record) (n : ℕ) : Bytes × ℤ × Record :=
  let iov := recordIov f.length pr
  let rc := min n (min maxRw iov.length)
  if rc < iov.length then (f ++ iov.take rc, -1, pr)
  else (f ++ iov.take rc, (recordBody pr).length, { pr with dirty := false })

/-- `0`, a negative number or a positive number with the record. -/
inductive ReadResult where
  | eof
  | fail
  | record (pr : Record)
  deriving DecidableEq

def readAt (f : Bytes) (off n : ℕ) : Bytes := (f.drop off).take (min n maxRw)

/-- The key is everything before the first NUL of the buffer, which must have one. -/
def splitKey (buf : Bytes) : Option (Key × Bytes) :=
  if (buf.takeWhile (· ≠ 0)).length < buf.length then
    some (⟨buf.takeWhile (· ≠ 0), fun h => by simpa using List.mem_takeWhile_imp h⟩,
      buf.drop ((buf.takeWhile (· ≠ 0)).length + 1))
  else none

/-- `psfs_record_read()` once the file position `coff` is aligned; also the new file position. -/
def recordReadAt (f : Bytes) (coff : ℕ) : ReadResult × ℕ :=
  let prMagic := readAt f coff 4
  if prMagic.length = 0 then (.eof, coff)
  else if prMagic.length < 4 then (.fail, coff + prMagic.length)
  else if prMagic ≠ be32 magic then (.fail, coff + 4)
  else
    let prSize := readAt f (coff + 4) 4
    if prSize.length < 4 then (.fail, coff + 4 + prSize.length)
    else
      let size := ofBe32 prSize
      -- from here on every failure seeks back behind the magic number
      if f.length < coff + 4 + 4 + size + 4 then (.fail, coff + 4)
      else
        let buf := readAt f (coff + 8) size
        let prCrc := readAt f (coff + 8 + size) 4
        if buf.length < size then (.fail, coff + 4)
        else if prCrc.length < 4 then (.fail, coff + 4)
        else if crc32 (crc32 (crc32 (crc32 0 prMagic) prSize) buf) prCrc ≠ crc32Verify then
          (.fail, coff + 4)
        else
          match splitKey buf with
          | none => (.fail, coff + 4)
          | some (key, data) =>
            (.record { key, data, dirty := false, used := 12 + size }, coff + (12 + size))

/-- On a descriptor that is not open for reading every `read()` fails and nothing is consumed. -/
def recordRead (readable : Bool) (f : Bytes) (off : ℕ) : ReadResult × ℕ :=
  if !readable then (.fail, off)
  else
    let pad := readAt f off (padLen off)
    if padLen off ≠ 0 ∧ pad.length = 0 then (.eof, off)
    else if pad.length < padLen off then (.fail, off + pad.length)
    else recordReadAt f (off + padLen off)

/-- The record `recordReadAt` finds at the front of a suffix of the file, with its length. -/
def head (s : Bytes) : Option (Record × ℕ) :=
  match recordReadAt s 0 with
  | (.record pr, n) => some (pr, n)
  | _ => none

end OpenSync.Psfs
