/-!
# Base64

Bytes written in the standard base64 alphabet, three bytes as four characters. Decoding accepts
canonical texts only: the padding is there, nothing else is, and the bits that padding leaves over
are zero.
-/

namespace Netconf.Text.Base64

/-- The 64 characters in the order of their values. -/
def alphabet : List Char :=
  "ABCDEFGHIJKLMNOPQRSTUVWXYZabcdefghijklmnopqrstuvwxyz0123456789+/".toList

/-- The character that stands for the low six bits of `n`. -/
def symbol (n : Nat) : Char := alphabet.getD (n % 64) 'A'

/-- The six bits that a character stands for. -/
def sextet? (c : Char) : Option Nat := alphabet.idxOf? c

/-- The text of a list of bytes. -/
def encode : List UInt8 → List Char
  | a :: b :: c :: rest =>
    let n := a.toNat * 65536 + b.toNat * 256 + c.toNat
    symbol (n / 262144) :: symbol (n / 4096) :: symbol (n / 64) :: symbol n :: encode rest
  | [a, b] =>
    let n := a.toNat * 256 + b.toNat
    [symbol (n / 1024), symbol (n / 16), symbol (n * 4), '=']
  | [a] => [symbol (a.toNat / 4), symbol (a.toNat * 16), '=', '=']
  | [] => []

/-- The single byte of a last group `wx==`; the four bits left over are zero. -/
def lastOne? (w x : Nat) : Option (List UInt8) :=
  if x % 16 = 0 then some [UInt8.ofNat ((w * 64 + x) / 16)] else none

/-- The two bytes of a last group `wxy=`; the two bits left over are zero. -/
def lastTwo? (w x y : Nat) : Option (List UInt8) :=
  let n := (w * 64 + x) * 64 + y
  if y % 4 = 0 then some [UInt8.ofNat (n / 1024), UInt8.ofNat (n / 4)] else none

/-- The three bytes of a full group. -/
def group (w x y z : Nat) : List UInt8 :=
  let n := ((w * 64 + x) * 64 + y) * 64 + z
  [UInt8.ofNat (n / 65536), UInt8.ofNat (n / 256), UInt8.ofNat n]

/-- The bytes of a canonical text. -/
def decode : List Char → Option (List UInt8)
  | [] => some []
  | w :: x :: y :: z :: rest => do
    let w ← sextet? w
    let x ← sextet? x
    if rest.isEmpty && z == '=' then
      if y == '=' then lastOne? w x
      else do
        let y ← sextet? y
        lastTwo? w x y
    else do
      let y ← sextet? y
      let z ← sextet? z
      let bytes ← decode rest
      return group w x y z ++ bytes
  | _ => none

end Netconf.Text.Base64
