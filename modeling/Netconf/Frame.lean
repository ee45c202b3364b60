import Netconf.Error

/-!
# Frames

Every message on a byte stream ends with the marker `]]>]]>`. Bytes arrive in deliveries, and
between deliveries reading may fail. `Inbound.readMessage` takes the bytes of the next message out
of the stream; how they were delivered makes no difference, except that a failure loses the bytes
of the message read so far. `Outbound.writeMessage` writes a message with its marker and a line end.
-/

namespace Netconf

/-- The text that ends every message. -/
def endOfMessage : String := "]]>]]>"

/-- The bytes that end every message. -/
def marker : List UInt8 := [0x5D, 0x5D, 0x3E, 0x5D, 0x5D, 0x3E]

/-- How reading from a stream may fail. -/
inductive ReadFault where
  /-- Reading was interrupted and can be repeated. -/
  | interrupted
  /-- Nothing came in time. -/
  | timeout
  /-- The stream is broken. -/
  | broken
  deriving DecidableEq, Inhabited

/-- What one reading from a stream brings. -/
inductive Delivery where
  /-- Some bytes. -/
  | bytes (bs : List UInt8)
  /-- A failure. -/
  | fault (f : ReadFault)
  deriving DecidableEq, Inhabited

/-! ## Reading -/

/-- A stream of bytes to read from: those delivered already, and the deliveries to come. -/
structure Inbound where
  /-- The bytes that were delivered and not yet used. -/
  buffer : List UInt8 := []
  /-- The deliveries to come; behind them the stream ends. -/
  source : List Delivery := []
  deriving DecidableEq, Inhabited

namespace Inbound

/-- The most bytes that one reading brings. -/
def capacity : Nat := 8192

/-- A list of bytes cut into pieces of the capacity, at most `n` pieces. -/
def pieces : Nat → List UInt8 → List (List UInt8)
  | 0, _ => []
  | n + 1, bs => if bs.isEmpty then [] else bs.take capacity :: pieces n (bs.drop capacity)

/-- The readings that a delivery takes: one for every piece of its bytes. -/
def readings : Delivery → List Delivery
  | .bytes bs => (pieces bs.length bs).map .bytes
  | .fault f => [.fault f]

/-- The stream of a list of deliveries. -/
def ofDeliveries (ds : List Delivery) : Inbound := { source := ds.flatMap readings }

/-- Are bytes there that were delivered already? -/
def hasBytes (s : Inbound) : Bool := !s.buffer.isEmpty

/-- Drops the bytes that were delivered already; tells how many. -/
def discard (s : Inbound) : Nat × Inbound := (s.buffer.length, { s with buffer := [] })

/-- Takes bytes up to the end of the marker. `read` are the bytes of the message read so far, last
byte first. Returns those without the marker and the bytes behind it, or else all bytes read. -/
def takeMessage (read : List UInt8) : List UInt8 → List UInt8 × Option (List UInt8)
  | [] => (read, none)
  | b :: bs =>
    let read := b :: read
    if marker.reverse.isPrefixOf read then (read.drop marker.length, some bs)
    else takeMessage read bs

/-- The text of the bytes of a message, last byte first. -/
def decode (read : List UInt8) : Except Error String :=
  match String.fromUTF8? ⟨read.reverse.toArray⟩ with
  | some s => .ok s
  | none => .error (.parse .encoding)

/-- Reads the rest of a message. -/
def readFrom (read buffer : List UInt8) : List Delivery → Except Error String × Inbound
  | [] =>
    match takeMessage read buffer with
    | (read, some rest) => (decode read, ⟨rest, []⟩)
    | (read, none) => (.error (.session (.endOfStream read.length)), ⟨[], []⟩)
  | d :: ds =>
    match takeMessage read buffer with
    | (read, some rest) => (decode read, ⟨rest, d :: ds⟩)
    | (read, none) =>
      match d with
      | .bytes bs => readFrom read bs ds
      | .fault .interrupted => readFrom read [] ds
      | .fault .timeout => (.error (.timeout read.length), ⟨[], ds⟩)
      | .fault .broken => (.error .io, ⟨[], ds⟩)

/-- Reads one message. The end of the stream before its marker is an error, and so are bytes that
are no text; the bytes read are used up in either case. -/
def readMessage (s : Inbound) : Except Error String × Inbound := readFrom [] s.buffer s.source

end Inbound

/-! ## Writing -/

/-- A stream to write to. -/
structure Outbound where
  /-- Everything written so far. -/
  written : String := ""
  /-- How many bytes the stream takes in all, if there is a limit. -/
  limit : Option Nat := none
  deriving DecidableEq, Inhabited

namespace Outbound

/-- Does the stream take a text? -/
def takes (s : Outbound) (text : String) : Bool :=
  text == "" || s.limit.all fun n => decide (s.written.utf8ByteSize + text.utf8ByteSize ≤ n)

/-- Writes texts one after the other, up to the first that the stream does not take. -/
def writeAll (s : Outbound) : List String → Except Error Unit × Outbound
  | [] => (.ok (), s)
  | text :: texts =>
    if s.takes text then writeAll { s with written := s.written ++ text } texts
    else (.error .io, s)

/-- Writes a message, its marker and a line end. -/
def writeMessage (s : Outbound) (message : String) : Except Error Unit × Outbound :=
  s.writeAll [message, endOfMessage, "\n"]

end Outbound

end Netconf
