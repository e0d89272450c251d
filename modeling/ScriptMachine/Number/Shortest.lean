import ScriptMachine.Number.Binary

/-! The fewest decimal digits that read back as a given double. For each number of digits the
value's two neighbours on that decimal grid are tested against the interval of reals that round to
it; the first grid with a hit wins, and of two hits the nearer. -/
namespace ScriptMachine.Number

/-- `digits * 10 ^ exponent`. -/
structure Decimal where
  digits : Nat
  exponent : Int
  deriving DecidableEq, Repr

/-- A power of ten. -/
abbrev tenTo (n : Nat) : Nat :=
  Nat.pow 10 n

/-- How many digits a number has in base ten; zero has one. -/
def decimalLength (n : Nat) : Nat :=
  (Nat.toDigits 10 n).length

namespace Decimal

/-- The power of ten of the leading digit. -/
def order (d : Decimal) : Int :=
  (decimalLength d.digits : Int) - 1 + d.exponent

/-- Moves trailing zeros of the digits into the exponent. -/
def normalize (fuel : Nat) (d : Decimal) : Decimal :=
  match fuel with
  | 0 => d
  | fuel + 1 => if d.digits % 10 = 0 then normalize fuel ⟨d.digits / 10, d.exponent + 1⟩ else d

end Decimal

/-- The power of ten of the leading digit of `num / den`, both positive. -/
def leadingPower (num den : Nat) : Int :=
  if den ≤ num then (decimalLength (num / den) : Int) - 1
  else -(decimalLength ((den + num - 1) / num - 1) : Int)

/-- The reals that round to a double, in quarters of its last place: the value, the two ends, and
whether the ends belong to it. -/
structure Interval where
  value : Nat
  low : Nat
  high : Nat
  closed : Bool

/-- The lower half is half as wide at a power of two, except among the smallest exponents. -/
def Interval.around (mantissa : Nat) (exponent : Int) : Interval where
  value := 4 * mantissa
  low := if mantissa = twoTo 52 ∧ -1074 < exponent then 4 * mantissa - 1 else 4 * mantissa - 2
  high := 4 * mantissa + 2
  closed := mantissa % 2 = 0

/-- The grid of multiples of `10 ^ k` against quarters of `2 ^ exponent`, brought to one integer
scale: a grid point `d` is `d * grid`, a quarter count `x` is `x * quarter`. -/
structure Scale where
  grid : Nat
  quarter : Nat

def Scale.make (k exponent : Int) : Scale where
  grid := tenTo k.toNat * twoTo (2 - exponent).toNat
  quarter := tenTo (-k).toNat * twoTo (exponent - 2).toNat

/-- Does the grid point read back as the value of the interval? -/
def Interval.holds (i : Interval) (s : Scale) (d : Nat) : Bool :=
  if i.closed then i.low * s.quarter ≤ d * s.grid && d * s.grid ≤ i.high * s.quarter
  else i.low * s.quarter < d * s.grid && d * s.grid < i.high * s.quarter

/-- The nearer of the two neighbours that read back, if any; a tie goes to the even one. -/
def Interval.nearest? (i : Interval) (s : Scale) : Option Nat :=
  let below := i.value * s.quarter / s.grid
  match i.holds s below, i.holds s (below + 1) with
  | false, false => none
  | true, false => some below
  | false, true => some (below + 1)
  | true, true =>
    let down := i.value * s.quarter - below * s.grid
    let up := (below + 1) * s.grid - i.value * s.quarter
    if down < up then some below
    else if up < down then some (below + 1)
    else some (below + below % 2)

/-- Tries grids of `count` digits, then of one more, until one holds a hit. -/
def Interval.search (i : Interval) (exponent top : Int) (count : Nat) : Nat → Decimal
  | 0 => ⟨0, 0⟩
  | fuel + 1 =>
    let k := top - (count : Int) + 1
    match i.nearest? (.make k exponent) with
    | some d => ⟨d, k⟩
    | none => i.search exponent top (count + 1) fuel

/-- The shortest decimal for `mantissa * 2 ^ exponent`, without trailing zeros; seventeen digits
always suffice. -/
def shortest (mantissa : Nat) (exponent : Int) : Decimal :=
  let top := leadingPower (mantissa * twoTo exponent.toNat) (twoTo (-exponent).toNat)
  ((Interval.around mantissa exponent).search exponent top 1 17).normalize 20

end ScriptMachine.Number
