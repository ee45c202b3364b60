/-!
# Binary floating-point numbers

A number of the 64 bit binary format, held by its bits so that two numbers are equal exactly when
they are written alike. The format is read as sign, mantissa and exponent (`Binary64.decode`), and
`nearestBits` goes the other way: it rounds a quotient of natural numbers to the nearest number of
the format, a tie to the even mantissa, in exact arithmetic.
-/

namespace Netconf

/-- A 64 bit binary floating-point number, by its bits. -/
structure Binary64 where
  /-- One bit of sign, eleven of exponent, fifty-two of mantissa. -/
  bits : UInt64
  deriving DecidableEq, Inhabited

namespace Binary64

/-- What a number of the format is. -/
inductive Form where
  /-- No number at all. -/
  | nan
  /-- Beyond every finite number, on the negative side or on the positive one. -/
  | infinite (negative : Bool)
  /-- The number `mantissa * 2 ^ exponent`, with its sign. -/
  | finite (negative : Bool) (mantissa : Nat) (exponent : Int)
  deriving DecidableEq

/-- The bits of positive infinity. -/
def infinityBits : Nat := 0x7FF0000000000000

/-- The bit of the sign, two to the power 63. -/
def signBit : Nat := 0x8000000000000000

/-- The leading bit of a mantissa of fifty-three bits, two to the power 52. -/
def leadingBit : Nat := 0x10000000000000

/-- Reads the bits as a form. -/
def decode (x : Binary64) : Form :=
  let n : Nat := x.bits.toNat
  let negative := decide (signBit ≤ n)
  let magnitude : Nat := n % signBit
  let exponent : Nat := magnitude / leadingBit
  let fraction : Nat := magnitude % leadingBit
  if exponent = 2047 then
    if fraction = 0 then .infinite negative else .nan
  else if exponent = 0 then .finite negative fraction (-1074)
  else .finite negative (fraction + leadingBit) ((exponent : Int) - 1075)

/-- The natural number nearest to `num / den`; a tie goes to the even one. -/
def roundEven (num den : Nat) : Nat :=
  let floor := num / den
  let twice := 2 * (num % den)
  if twice < den then floor
  else if den < twice then floor + 1
  else if floor % 2 = 0 then floor else floor + 1

/-- The quotient `num / den` divided by `2 ^ exponent`, as a pair of natural numbers. -/
def scaleDown (num den : Nat) (exponent : Int) : Nat × Nat :=
  if 0 ≤ exponent then (num, den * Nat.pow 2 exponent.toNat)
  else (num * Nat.pow 2 (-exponent).toNat, den)

/-- The exponent at which the mantissa of `num / den` has fifty-three bits, or the least one. -/
def exponentFor (num den : Nat) : Int :=
  let guess := max (-1074) ((num.log2 : Int) - (den.log2 : Int) - 52)
  let scaled := scaleDown num den guess
  if scaled.1 / scaled.2 < leadingBit then max (-1074) (guess - 1) else guess

/-- The bits of the number nearest to `num / den`, for a positive `den`. -/
def nearestBits (num den : Nat) : Nat :=
  if num = 0 then 0
  else
    let exponent := exponentFor num den
    let scaled := scaleDown num den exponent
    let mantissa := roundEven scaled.1 scaled.2
    min infinityBits ((exponent + 1074).toNat * leadingBit + mantissa)

/-- The number with the given sign and magnitude bits. -/
def ofMagnitude (negative : Bool) (bits : Nat) : Binary64 :=
  ⟨UInt64.ofNat (if negative then signBit + bits else bits)⟩

/-- The nearest number to an integer. -/
def ofInt (i : Int) : Binary64 := ofMagnitude (decide (i < 0)) (nearestBits i.natAbs 1)

/-- The quiet value that is no number. -/
def nan : Binary64 := ⟨0x7FF8000000000000⟩

/-- Is it no number? -/
def isNaN (x : Binary64) : Bool := decide (x.decode = .nan)

/-- Is it zero, of either sign? -/
def isZero (x : Binary64) : Bool :=
  match x.decode with
  | .finite _ 0 _ => true
  | _ => false

/-- The number as a machine float. -/
def toFloat (x : Binary64) : Float := Float.ofBits x.bits

/-- The bits of a machine float. -/
def ofFloat (f : Float) : Binary64 := ⟨f.toBits⟩

/-- The rounded sum. -/
def add (x y : Binary64) : Binary64 := ofFloat (x.toFloat + y.toFloat)

/-- The rounded difference. -/
def sub (x y : Binary64) : Binary64 := ofFloat (x.toFloat - y.toFloat)

/-- The number with its sign turned. -/
def neg (x : Binary64) : Binary64 := ⟨x.bits ^^^ 0x8000000000000000⟩

/-- How two numbers stand to each other; there is no answer when one of them is no number. -/
def compare? (x y : Binary64) : Option Ordering :=
  if x.toFloat < y.toFloat then some .lt
  else if x.toFloat == y.toFloat then some .eq
  else if y.toFloat < x.toFloat then some .gt
  else none

/-- The integer that a finite number is, when it is one. -/
def toInt? (x : Binary64) : Option Int :=
  match x.decode with
  | .finite negative mantissa exponent =>
    let signed (n : Nat) : Int := if negative then -(n : Int) else n
    if 0 ≤ exponent then some (signed (mantissa * Nat.pow 2 exponent.toNat))
    else
      let scale := Nat.pow 2 (-exponent).toNat
      if mantissa % scale = 0 then some (signed (mantissa / scale)) else none
  | _ => none

end Binary64

end Netconf
