import Netconf.Binary64.Basic

/-!
# The shortest decimal that reads back

Every finite number of the format is the nearest one for an interval of reals. Among the decimals
of that interval this module finds one with the fewest digits, and of two such the nearer to the
number; an exact tie goes up. The search goes over the grids of one digit, two digits and so on: on
each grid only the two neighbours of the number can be nearest to it.
-/

namespace Netconf.Binary64

/-- The reals that round to a number, over a common denominator: from `low / den` through
`mid / den`, which is the number itself, up to `high / den`. -/
structure Interval where
  /-- The lower end. -/
  low : Nat
  /-- The number itself. -/
  mid : Nat
  /-- The upper end. -/
  high : Nat
  /-- The common denominator. -/
  den : Nat
  /-- Whether the ends round to the number too. -/
  closed : Bool

/-- The reals that round to `mantissa * 2 ^ exponent`. The gap below a power of two is half the
gap above it, but not at the least exponent. -/
def interval (mantissa : Nat) (exponent : Int) : Interval :=
  let narrow := mantissa = leadingBit ∧ exponent ≠ -1074
  let low := if narrow then 4 * mantissa - 1 else 4 * mantissa - 2
  let scale := Nat.pow 2 (exponent - 2).toNat
  { low := low * scale
    mid := 4 * mantissa * scale
    high := (4 * mantissa + 2) * scale
    den := Nat.pow 2 (2 - exponent).toNat
    closed := mantissa % 2 = 0 }

/-- The interval stretched by a power of ten, so that the grid of step `10 ^ power` becomes the
grid of the integers. -/
def Interval.onGrid (i : Interval) (power : Int) : Interval :=
  let up := Nat.pow 10 (-power).toNat
  { i with
    low := i.low * up
    mid := i.mid * up
    high := i.high * up
    den := i.den * Nat.pow 10 power.toNat }

/-- Does the integer `n` lie in the interval? -/
def Interval.contains (i : Interval) (n : Nat) : Bool :=
  if i.closed then decide (i.low ≤ n * i.den) && decide (n * i.den ≤ i.high)
  else decide (i.low < n * i.den) && decide (n * i.den < i.high)

/-- The integer of the interval nearest to its number, if one of the number's two neighbours lies
in it; a tie goes up. -/
def Interval.nearest? (i : Interval) : Option Nat :=
  let floor := i.mid / i.den
  let below := i.contains floor && floor != 0
  let above := i.contains (floor + 1)
  if below && above then
    if 2 * (i.mid % i.den) < i.den then some floor else some (floor + 1)
  else if below then some floor
  else if above then some (floor + 1)
  else none

/-- The exponent `e` with `10 ^ e ≤ num / den < 10 ^ (e + 1)`, for positive arguments; `1` is
returned below the least number of the format. -/
def leadingPower (num den : Nat) : Int :=
  if den ≤ num then ((Nat.toDigits 10 (num / den)).length : Int) - 1
  else
    match (List.range 400).find? (fun k => decide (den ≤ num * Nat.pow 10 (k + 1))) with
    | some k => -((k : Int) + 1)
    | none => 1

/-- A decimal number: `digits * 10 ^ power`. -/
structure Decimal where
  /-- All digits, as one natural number. -/
  digits : Nat
  /-- The power of ten of the last digit. -/
  power : Int
  deriving DecidableEq

/-- The decimal without zeros at its end; `fuel` bounds their number. -/
def Decimal.withoutZeros : Nat → Decimal → Decimal
  | 0, d => d
  | fuel + 1, d =>
    if d.digits ≠ 0 ∧ d.digits % 10 = 0 then withoutZeros fuel ⟨d.digits / 10, d.power + 1⟩
    else d

/-- The shortest decimal that reads back as `mantissa * 2 ^ exponent`, for a positive mantissa. -/
def shortest (mantissa : Nat) (exponent : Int) : Decimal :=
  let whole := interval mantissa exponent
  let lead := leadingPower whole.mid whole.den
  let onGridOf (count : Nat) : Option Decimal :=
    let power := lead - (count : Int)
    ((whole.onGrid power).nearest?).map fun n => ⟨n, power⟩
  match (List.range 17).findSome? onGridOf with
  | some d => d.withoutZeros 20
  | none => ⟨0, 0⟩

end Netconf.Binary64
