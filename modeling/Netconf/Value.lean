import Netconf.Binary64.Text
import Netconf.Text.Base64
import Netconf.Text.Blank

/-!
# Values

What a node of a configuration tree may hold. Values read off the wire are texts; the other forms
are for trees that the application builds. Every value has one text, its *wire form*, and two
values are the same when their wire forms are the same, so that the integer 1 is the same value as
the text `1`.
-/

namespace Netconf

/-- A value of a node. -/
inductive Value where
  /-- A text. -/
  | text (s : String)
  /-- An integer of 64 bits. -/
  | integer (i : Int)
  /-- A floating-point number. -/
  | decimal (x : Binary64)
  /-- A truth value. -/
  | boolean (b : Bool)
  /-- A sequence of bytes, written in base64. -/
  | binary (bytes : List UInt8)
  deriving DecidableEq, Inhabited

namespace Value

/-- The wire form of a value. -/
def wire : Value → String
  | .text s => s
  | .integer i => toString i
  | .decimal x => x.text .plain
  | .boolean b => if b then "true" else "false"
  | .binary bytes => String.ofList (Text.Base64.encode bytes)

/-- Two values are the same when their wire forms are. Texts are compared as texts and binary
values as bytes, which comes to the same. -/
def same : Value → Value → Bool
  | .text s, .text t => s == t
  | .binary b, .binary c => b == c
  | v, w => v.wire == w.wire

/-- The text of a text value. -/
def text? : Value → Option String
  | .text s => some s
  | _ => none

/-- The bytes that a base64 text stands for, blanks at its ends apart. -/
def bytesOf? (s : String) : Option (List UInt8) :=
  Text.Base64.decode (Text.strip s.toList)

/-- The bytes of a binary value, or those that a text stands for in base64. -/
def bytes? : Value → Option (List UInt8)
  | .binary bytes => some bytes
  | .text s => bytesOf? s
  | _ => none

/-- The binary value that a base64 text stands for. -/
def ofBase64? (s : String) : Option Value :=
  (bytesOf? s).map .binary

end Value

/-- Two optional values are the same when both are missing, or both are there and the same. -/
def sameValue : Option Value → Option Value → Bool
  | none, none => true
  | some v, some w => v.same w
  | _, _ => false

end Netconf
