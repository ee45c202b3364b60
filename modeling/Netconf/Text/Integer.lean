/-!
# Integers in text

Reading integers of a bounded range: ASCII digits with an optional sign, nothing else. The bounds
are those of the 32 and 64 bit words that the protocol and the path language use.
-/

namespace Netconf.Text

/-- The value of an ASCII digit. -/
def digitValue? (c : Char) : Option Nat :=
  if '0' ≤ c ∧ c ≤ '9' then some (c.toNat - '0'.toNat) else none

/-- The number that `acc` becomes when the digits `cs` are written behind it. -/
def digitsFrom (acc : Nat) : List Char → Option Nat
  | [] => some acc
  | c :: cs => (digitValue? c).bind fun d => digitsFrom (10 * acc + d) cs

/-- The number written by a non-empty list of ASCII digits. -/
def natural? (cs : List Char) : Option Nat :=
  if cs.isEmpty then none else digitsFrom 0 cs

/-- The least integer of 64 bits. -/
def int64Min : Int := -0x8000000000000000

/-- The greatest integer of 64 bits. -/
def int64Max : Int := 0x7FFFFFFFFFFFFFFF

/-- An integer that fits into 64 bits. -/
def fitsInt64 (i : Int) : Bool := decide (int64Min ≤ i) && decide (i ≤ int64Max)

/-- Reads a signed integer of 64 bits: an optional sign, then digits. -/
def int64? (cs : List Char) : Option Int :=
  let read (negative : Bool) (digits : List Char) : Option Int :=
    (natural? digits).bind fun n =>
      let i : Int := if negative then -(n : Int) else n
      if fitsInt64 i then some i else none
  match cs with
  | '-' :: digits => read true digits
  | '+' :: digits => read false digits
  | digits => read false digits

/-- Reads a natural number below `bound`: an optional plus sign, then digits. -/
def naturalBelow? (bound : Nat) (cs : List Char) : Option Nat :=
  let read (digits : List Char) : Option Nat :=
    (natural? digits).bind fun n => if n < bound then some n else none
  match cs with
  | '+' :: digits => read digits
  | digits => read digits

end Netconf.Text
