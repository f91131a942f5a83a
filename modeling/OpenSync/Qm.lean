import OpenSync.Framing

/-!
# Requests to the queue manager

A client writes a header of 56 bytes, a topic and data to a socket; the queue manager collects what it reads in a buffer
and cuts requests off its front (`qm_conn.c`, `qm_event.c`). Lengths are 32-bit numbers without a sign that are added
modulo `2 ^ 32` and then taken as signed.
-/

namespace OpenSync.Qm

abbrev Byte := BitVec 8

/-! ## Headers -/

structure Request where
  tag : Vector Byte 4
  ver : BitVec 32
  seq : BitVec 32
  cmd : BitVec 32
  flags : BitVec 32
  sender : Vector Byte 16
  setQos : Byte
  qosVal : Byte
  compress : Byte
  dataType : Byte
  interval : BitVec 32
  topicLen : BitVec 32
  dataSize : BitVec 32
  reserved : BitVec 32
  deriving DecidableEq

def requestSize : Nat := 56

def wordBytes (x : BitVec 32) : List Byte :=
  [x.extractLsb' 0 8, x.extractLsb' 8 8, x.extractLsb' 16 8, x.extractLsb' 24 8]

def byteAt (buf : List Byte) (i : Nat) : Byte := buf.getD i 0

def wordAt (buf : List Byte) (i : Nat) : BitVec 32 :=
  byteAt buf (i + 3) ++ byteAt buf (i + 2) ++ byteAt buf (i + 1) ++ byteAt buf i

/-- The header as it lies in memory, of a little-endian machine. -/
def Request.bytes (r : Request) : List Byte :=
  r.tag.toList ++ wordBytes r.ver ++ wordBytes r.seq ++ wordBytes r.cmd ++ wordBytes r.flags ++ r.sender.toList ++
    [r.setQos, r.qosVal, r.compress, r.dataType] ++ wordBytes r.interval ++ wordBytes r.topicLen ++
    wordBytes r.dataSize ++ wordBytes r.reserved

def Request.ofBytes (buf : List Byte) : Request where
  tag := Vector.ofFn fun i => byteAt buf i
  ver := wordAt buf 4
  seq := wordAt buf 8
  cmd := wordAt buf 12
  flags := wordAt buf 16
  sender := Vector.ofFn fun i => byteAt buf (20 + i)
  setQos := byteAt buf 36
  qosVal := byteAt buf 37
  compress := byteAt buf 38
  dataType := byteAt buf 39
  interval := wordAt buf 40
  topicLen := wordAt buf 44
  dataSize := wordAt buf 48
  reserved := wordAt buf 52

def Request.total (r : Request) : Int := (BitVec.ofNat 32 requestSize + r.topicLen + r.dataSize).toInt

/-! ## The client -/

/-- What a client wants to send; a topic is a text without zeros. -/
structure Message where
  req : Request
  topic : Option { text : List Byte // 0 ∉ text }
  data : List Byte

/-- The topic with its terminator; an empty one is not sent. -/
def Message.topicBytes (m : Message) : List Byte :=
  match m.topic with
  | some ⟨c :: text, _⟩ => c :: text ++ [0]
  | _ => []

def Message.header (m : Message) : Request :=
  { m.req with topicLen := .ofNat 32 m.topicBytes.length, dataSize := .ofNat 32 m.data.length }

def compactSendSize : Int := 65536

/-- What is passed to `send`, call by call. -/
def qmConnWriteReq (m : Message) : List (List Byte) :=
  if m.header.total ≤ compactSendSize then [m.header.bytes ++ m.topicBytes ++ m.data]
  else
    m.header.bytes :: ((if m.header.topicLen.toInt = 0 then [] else [m.topicBytes]) ++
      (if m.header.dataSize.toInt = 0 then [] else [m.data]))

/-! ## The parser -/

/-- What can go wrong: bytes are read that were not received, an allocation or an addition goes out of range, an
assertion fails, or a loop does not end. -/
inductive Fault
  | overread
  | noMemory
  | overflow
  | assertion
  | hang
  deriving DecidableEq

structure Item where
  req : Request
  topic : Option (List Byte)
  buf : Option (List Byte)
  size : Nat
  deriving DecidableEq

/-- Allocates `len + spare` bytes and copies `len` bytes from the buffer into them. -/
def copyField (buf : List Byte) (offset : Nat) (len spare : BitVec 32) : Except Fault (Option (List Byte)) :=
  if len.toInt = 0 then .ok none
  else if (len + spare).toInt < 0 then .error .noMemory
  else if len.toInt < 0 ∨ buf.length < offset + len.toNat then .error .overread
  else .ok (some ((buf.drop offset).take len.toNat))

/-- No item as long as the buffer does not hold a complete request. -/
def qmConnParseReq (buf : List Byte) : Except Fault (Option Item) :=
  if buf.length < requestSize then .ok none
  else
    let req := Request.ofBytes buf
    if (buf.length : Int) < req.total then .ok none
    else do
      let topic ← copyField buf requestSize req.topicLen 1
      let data ← copyField buf (requestSize + req.topicLen.toNat) req.dataSize 0
      .ok (some ⟨req, topic, data, req.dataSize.toNat⟩)

/-! ## The server -/

/-- What was received and not handed over, the size of the memory for it, and whether the connection is open. -/
structure Ctx where
  buf : List Byte
  allocated : Nat
  used : Bool
  deriving DecidableEq

def bufChunk : Nat := 65536

def qmCtxFreebuf (ctx : Ctx) : Ctx := { ctx with buf := [], allocated := 0 }

/-- A negative size passes the assertion, and makes the copy start before the buffer. -/
def qmCtxShiftBuf (ctx : Ctx) (size : Int) : Except Fault Ctx :=
  if size > ctx.buf.length then .error .assertion
  else if size < 0 then .error .overread
  else if size = ctx.buf.length then .ok (qmCtxFreebuf ctx)
  else .ok { ctx with buf := ctx.buf.drop size.toNat }

def qmCtxRelease (ctx : Ctx) : Ctx := { qmCtxFreebuf ctx with used := false }

/-- The items in the order in which they are handed over. A pass that takes more rounds than there are bytes has made a
round without consuming anything, and does not end. -/
def handleLoop : Nat → Ctx → Except Fault (Ctx × List Item)
  | 0, _ => .error .hang
  | fuel + 1, ctx =>
    match qmConnParseReq ctx.buf with
    | .error f => .error f
    | .ok none => .ok (ctx, [])
    | .ok (some qi) => do
      let ctx ← qmCtxShiftBuf ctx qi.req.total
      let r ← handleLoop fuel ctx
      .ok (r.1, qi :: r.2)

def qmAsyncHandleReq (ctx : Ctx) : Except Fault (Ctx × List Item) := handleLoop (ctx.buf.length + 1) ctx

/-- What the loop reports: the socket is readable and a read gets at most so many bytes, none at the end of the stream;
a read fails; or something else than readable. -/
inductive Event
  | read (n : Nat)
  | failed
  | other
  deriving DecidableEq

/-- A connection: the context, what the client has sent and was not read yet, and what was handed over. -/
structure Conn where
  ctx : Ctx
  sock : List Byte
  handed : List Item
  deriving DecidableEq

def grow (ctx : Ctx) : Except Fault Ctx :=
  if ctx.allocated - ctx.buf.length < bufChunk then
    if ctx.allocated + bufChunk < 2 ^ 31 then .ok { ctx with allocated := ctx.allocated + bufChunk }
    else .error .overflow
  else .ok ctx

def qmAsyncCallback (c : Conn) : Event → Except Fault Conn
  | .other => .ok c
  | .failed => do
    let ctx ← grow c.ctx
    .ok { c with ctx := qmCtxRelease ctx }
  | .read n => do
    let ctx ← grow c.ctx
    let n := min n (ctx.allocated - ctx.buf.length)
    let got := c.sock.take n
    let sock := c.sock.drop n
    if got = [] then .ok { c with ctx := qmCtxRelease ctx, sock := sock }
    else
      let r ← qmAsyncHandleReq { ctx with buf := ctx.buf ++ got }
      .ok ⟨r.1, sock, c.handed ++ r.2⟩

/-- Once the context is released there are no more callbacks. -/
def step (c : Conn) (e : Event) : Except Fault Conn := if c.ctx.used then qmAsyncCallback c e else .ok c

def run (c : Conn) (events : List Event) : Except Fault Conn := events.foldlM step c

def start (stream : List Byte) : Conn := ⟨⟨[], 0, true⟩, stream, []⟩

end OpenSync.Qm
