import Mathlib

/-!
# Reading from the database server

The server sends JSON objects one after another. `json_split` looks for the end of the first one in what has been received
so far, `cb_ovsdb_read` hands complete ones to the dispatcher and keeps the rest, and `ovsdb_write_s` waits for the first one.
A character is a byte; texts are those of C and end before a zero.
-/

namespace OpenSync.Ovsdb

abbrev Text := List Char

def cString (s : Text) : Text := s.takeWhile (· ≠ '\x00')

/-! ## The splitter -/

inductive Mode
  | braces
  | quotes
  deriving DecidableEq

/-- The end of the first object is where `rest` begins. -/
inductive Split
  | error
  | incomplete
  | found (rest : Text)
  deriving DecidableEq

def isBlank (c : Char) : Bool := c == ' ' || c == '\t'

def isxdigit (c : Char) : Bool :=
  ('0' ≤ c && c ≤ '9') || ('a' ≤ c && c ≤ 'f') || ('A' ≤ c && c ≤ 'F')

/-- What may follow a backslash. -/
def isEscape (c : Char) : Bool := ['\\', '"', '/', 'b', 'f', 'n', 'r', 't', 'u'].contains c

/-- The loop of `json_split`. Behind a text that is cut short there is a zero, which is not a digit. -/
def scan : Mode → Int → Text → Split
  | _, _, [] => .incomplete
  | .braces, level, c :: str =>
    if c = '\x7b' then scan .braces (level + 1) str
    else if c = '\x7d' then if level - 1 = 0 then .found str else scan .braces (level - 1) str
    else if c = '"' then scan .quotes level str
    else scan .braces level str
  | .quotes, level, c :: str =>
    if c = '"' then scan .braces level str
    else if c = '\\' then
      match str with
      | [] => .error
      | e :: str =>
        if !isEscape e then .error
        else if e = 'u' then
          match str with
          | x₁ :: x₂ :: x₃ :: x₄ :: str =>
            if isxdigit x₁ && isxdigit x₂ && isxdigit x₃ && isxdigit x₄ then scan .quotes level str else .error
          | _ => .error
        else scan .quotes level str
    else scan .quotes level str

@[simp] theorem scan_nil (mode : Mode) (level : Int) : scan mode level [] = .incomplete := by
  cases mode <;> rfl

theorem scan_braces (level : Int) (c : Char) (str : Text) : scan .braces level (c :: str) =
    if c = '\x7b' then scan .braces (level + 1) str
    else if c = '\x7d' then if level - 1 = 0 then .found str else scan .braces (level - 1) str
    else if c = '"' then scan .quotes level str
    else scan .braces level str := rfl

theorem scan_quotes (level : Int) (c : Char) (str : Text) : scan .quotes level (c :: str) =
    if c = '"' then scan .braces level str
    else if c = '\\' then
      match str with
      | [] => .error
      | e :: str =>
        if !isEscape e then .error
        else if e = 'u' then
          match str with
          | x₁ :: x₂ :: x₃ :: x₄ :: str =>
            if isxdigit x₁ && isxdigit x₂ && isxdigit x₃ && isxdigit x₄ then scan .quotes level str else .error
          | _ => .error
        else scan .quotes level str
    else scan .quotes level str := by
  rw [scan.eq_def]
  rfl

def jsonSplit (str : Text) : Split :=
  match str.dropWhile isBlank with
  | [] => .incomplete
  | c :: str => if c = '\x7b' then scan .braces 0 (c :: str) else .error

/-! ## The connection -/

/-- The JSON library: texts it accepts, with their values. Blanks in front are skipped. -/
structure Jansson (J : Type*) where
  loads : Text → Option J
  loads_blank : ∀ c str, isBlank c = true → loads (c :: str) = loads str

def maxBufferSize : Nat := 256 * 1024

def chunkSize : Nat := 8 * 1024

/-- `stream` is what the server has sent and nobody has received yet. -/
structure Conn (J : Type*) where
  buffer : Option Text
  bufferSize : Nat
  stream : Text
  dispatched : List J
  closed : Bool
  deriving DecidableEq

variable {J : Type*}

def Conn.text (c : Conn J) : Text := c.buffer.getD []

def start (stream : Text) : Conn J := ⟨none, 0, stream, [], false⟩

def before (str rest : Text) : Text := str.take (str.length - rest.length)

/-- The loop of `cb_ovsdb_read_json`: was there no error, what was handed over, and what is left. Every object takes at least
one byte, so there are not more rounds than bytes. -/
def readLoop (js : Jansson J) : Nat → Text → List J → Bool × List J × Text
  | 0, str, out => (true, out, str)
  | fuel + 1, str, out =>
    match jsonSplit str with
    | .incomplete => (true, out, str)
    | .error => (false, out, str)
    | .found rest =>
      match js.loads (before str rest) with
      | none => (false, out, str)
      | some j => readLoop js fuel rest (out ++ [j])

def cbOvsdbReadJson (js : Jansson J) (buf : Text) : Bool × List J × Text := readLoop js (buf.length + 1) buf []

inductive Recv
  | bytes (n : Nat)
  | eof
  | failed
  deriving DecidableEq

/-- The buffer grows by a chunk if there is less than a chunk left in it. -/
def resize (c : Conn J) : Conn J :=
  if c.buffer.isNone || (decide (c.bufferSize - c.text.length < chunkSize) && decide (c.bufferSize < maxBufferSize)) then
    { c with buffer := some c.text, bufferSize := c.bufferSize + chunkSize }
  else c

def close (c : Conn J) : Conn J := { c with buffer := none, bufferSize := 0, closed := true }

def nextChunk (c : Conn J) (n : Nat) : Text := c.stream.take (min n ((resize c).bufferSize - c.text.length - 1))

def received (js : Jansson J) (c : Conn J) (chunk : Text) : Conn J :=
  let r := cbOvsdbReadJson js (cString (c.text ++ chunk))
  let c := { c with stream := c.stream.drop chunk.length, dispatched := c.dispatched ++ r.2.1 }
  if !r.1 then close c
  else if r.2.2 = [] then { c with buffer := none, bufferSize := 0 }
  else { c with buffer := some r.2.2 }

def cbOvsdbRead (js : Jansson J) (c : Conn J) (recv : Recv) : Conn J :=
  let chunk n := nextChunk c n
  let c := resize c
  if c.bufferSize - c.text.length < 2 then close c
  else
    match recv with
    | .eof => close c
    | .failed => close c
    | .bytes n => if chunk n = [] then c else received js c (chunk n)

def step (js : Jansson J) (c : Conn J) (recv : Recv) : Conn J := if c.closed then c else cbOvsdbRead js c recv

def run (js : Jansson J) (c : Conn J) (recvs : List Recv) : Conn J := recvs.foldl (step js) c

/-! ## Synchronous calls -/

inductive Reply (J : Type*)
  | waiting
  | failed
  | ok (j : J)
  deriving DecidableEq

def finish (js : Jansson J) (buf : Text) : Reply J :=
  match js.loads buf with
  | none => .failed
  | some j => .ok j

def writeBufSize : Nat := 256 * 1024

/-- The reading loop of `ovsdb_write_s`, with the numbers of bytes that the socket has for each call. -/
def syncLoop (js : Jansson J) (buf stream : Text) : List Nat → Reply J
  | [] => if writeBufSize - 1 ≤ buf.length then finish js buf else .waiting
  | n :: cuts =>
    if writeBufSize - 1 ≤ buf.length then finish js buf
    else
      let chunk := stream.take (min n (writeBufSize - 1 - buf.length))
      if chunk = [] then .failed
      else
        let buf := buf ++ chunk
        match jsonSplit (cString buf) with
        | .error => .failed
        | .found rest => finish js (before (cString buf) rest)
        | .incomplete => syncLoop js buf (stream.drop chunk.length) cuts

def ovsdbWriteS (js : Jansson J) (response : Text) (cuts : List Nat) : Reply J := syncLoop js [] response cuts

end OpenSync.Ovsdb
