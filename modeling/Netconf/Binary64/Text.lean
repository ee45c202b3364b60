import Netconf.Binary64.Shortest
import Netconf.Text.Integer

/-!
# Floating-point numbers in text

How a number is written is decided by a `Layout`: which decimal exponents are written positionally
and whether a whole number keeps its point. Two layouts are used: `Layout.plain`, for the values of
a tree, and `Layout.marked`, for the numbers shown in error texts. Reading accepts an optional
sign, digits with an optional point and an optional exponent, or the names of infinity and of the
value that is no number, and rounds to the nearest number.
-/

namespace Netconf.Binary64

/-- The decisions of a written form. -/
structure Layout where
  /-- The least decimal exponent that is written positionally, if there is one. -/
  least : Option Int
  /-- The least decimal exponent that is no longer written positionally, if there is one. -/
  beyond : Option Int
  /-- Whether a whole number written positionally ends in `.0`. -/
  keepsPoint : Bool

/-- Values of a tree are always written positionally and whole numbers without a point. -/
def Layout.plain : Layout := ⟨none, none, false⟩

/-- Error texts show numbers from `10 ^ -4` up to below `10 ^ 16` positionally, with a point. -/
def Layout.marked : Layout := ⟨some (-4), some 16, true⟩

/-- Is a number with this leading decimal exponent written positionally? -/
def Layout.isPositional (l : Layout) (lead : Int) : Bool :=
  (l.least.all fun e => decide (e ≤ lead)) && (l.beyond.all fun e => decide (lead < e))

/-- The digits of a natural number. -/
def digitsOf (n : Nat) : List Char := Nat.toDigits 10 n

/-- A decimal written out, its point at its place. -/
def positional (keepsPoint : Bool) (d : Decimal) : List Char :=
  let digits := digitsOf d.digits
  if 0 ≤ d.power then
    digits ++ List.replicate d.power.toNat '0' ++ (if keepsPoint then ['.', '0'] else [])
  else
    let places := (-d.power).toNat
    let whole := digits.length - places
    if places < digits.length then digits.take whole ++ '.' :: digits.drop whole
    else '0' :: '.' :: (List.replicate (places - digits.length) '0' ++ digits)

/-- A decimal written with one digit before the point and its exponent behind an `e`. -/
def scientific (d : Decimal) (lead : Int) : List Char :=
  let mantissa : List Char :=
    match digitsOf d.digits with
    | [] => ['0']
    | [c] => [c]
    | c :: cs => c :: '.' :: cs
  mantissa ++ 'e' :: (toString lead).toList

/-- The text of a positive number, without its sign. -/
def magnitudeText (l : Layout) (d : Decimal) : List Char :=
  let lead := d.power + ((digitsOf d.digits).length : Int) - 1
  if l.isPositional lead then positional l.keepsPoint d else scientific d lead

/-- The text of a number in a layout. -/
def text (l : Layout) (x : Binary64) : String :=
  let signed (negative : Bool) (cs : List Char) : String :=
    String.ofList (if negative then '-' :: cs else cs)
  match x.decode with
  | .nan => "NaN"
  | .infinite negative => signed negative "inf".toList
  | .finite negative 0 _ => signed negative (if l.keepsPoint then "0.0".toList else "0".toList)
  | .finite negative mantissa exponent =>
    signed negative (magnitudeText l (shortest mantissa exponent))

/-- The bits of the number nearest to `digits * 10 ^ power`. Powers that lead beyond the format in
either direction are cut off before anything is computed. -/
def bitsOfDecimal (digits : Nat) (power : Int) : Nat :=
  if digits = 0 then 0
  else
    let size := ((digitsOf digits).length : Int) + power
    if 310 < size then infinityBits
    else if size < -330 then 0
    else if 0 ≤ power then nearestBits (digits * Nat.pow 10 power.toNat) 1
    else nearestBits digits (Nat.pow 10 (-power).toNat)

/-- The power of ten behind an `e`: an optional sign and digits. -/
def exponent? : List Char → Option Int
  | '-' :: cs => (Text.natural? cs).map fun n => -(n : Int)
  | '+' :: cs => (Text.natural? cs).map fun n => (n : Int)
  | cs => (Text.natural? cs).map fun n => (n : Int)

/-- The magnitude bits of an unsigned number in decimal form. -/
def readDecimal? (cs : List Char) : Option Nat := do
  let isDigit (c : Char) : Bool := (Text.digitValue? c).isSome
  let whole := cs.takeWhile isDigit
  let rest := cs.dropWhile isDigit
  let fraction := match rest with
    | '.' :: more => more.takeWhile isDigit
    | _ => []
  let tail := match rest with
    | '.' :: more => more.dropWhile isDigit
    | other => other
  let digits ← Text.natural? (whole ++ fraction)
  let shift := (fraction.length : Int)
  match tail with
  | [] => some (bitsOfDecimal digits (-shift))
  | e :: more =>
    if e = 'e' ∨ e = 'E' then (exponent? more).map fun p => bitsOfDecimal digits (p - shift)
    else none

/-- The magnitude bits of an unsigned number, given by name or in decimal form. -/
def readMagnitude? (cs : List Char) : Option Nat :=
  let name := String.ofList (cs.map Char.toLower)
  if name = "inf" ∨ name = "infinity" then some infinityBits
  else if name = "nan" then some nan.bits.toNat
  else readDecimal? cs

/-- Reads a number: an optional sign, then its magnitude. -/
def read? : List Char → Option Binary64
  | '-' :: cs => (readMagnitude? cs).map (ofMagnitude true)
  | '+' :: cs => (readMagnitude? cs).map (ofMagnitude false)
  | cs => (readMagnitude? cs).map (ofMagnitude false)

end Netconf.Binary64
