import QueueScript.Decimal.Binary

/-!
# The fewest digits that read back

Every positive double is the nearest double to a whole interval of reals. `shortest` looks for the
coarsest decimal grid that has a point in this interval, and takes the point nearest to the double.
The interval's ends belong to it when the mantissa is even, since a tie is read as the even
neighbour.
-/

namespace QueueScript.Decimal

/-- The decimal `digits · 10 ^ (point - count)`, with `count` digits before any zeros. -/
structure Digits where
  /-- The digits as one number. -/
  digits : Nat
  /-- How many digits there are. -/
  count : Nat
  /-- How many digits stand before the decimal point. -/
  point : Int
  deriving DecidableEq, Repr

/-- The interval of reals that read as the double `m · 2 ^ q`, over one denominator. -/
structure Interval where
  /-- The lower end. -/
  low : Nat
  /-- The double itself. -/
  mid : Nat
  /-- The upper end. -/
  high : Nat
  /-- The common denominator. -/
  den : Nat
  /-- Whether the ends belong to the interval. -/
  closed : Bool

/-- The reals nearest to `m · 2 ^ q`. Below a power of two the next double is half as far. -/
def interval (m : Nat) (q : Int) : Interval :=
  let below := if m = twoTo 52 ∧ leastExponent < q then 1 else 2
  { low := numerator (4 * m - below) q
    mid := numerator (4 * m) q
    high := numerator (4 * m + 2) q
    den := 4 * denominator q
    closed := m % 2 == 0 }

/-- Whether the fraction `num / den` lies in the interval. -/
def Interval.contains (i : Interval) (num den : Nat) : Bool :=
  if i.closed then decide (i.low * den ≤ num * i.den) && decide (num * i.den ≤ i.high * den)
  else decide (i.low * den < num * i.den) && decide (num * i.den < i.high * den)

/-- The number of decimal digits of a natural number, none for zero. -/
def digitCount (n : Nat) : Nat :=
  if n = 0 then 0 else digitCount (n / 10) + 1

/-- The least `j` of at most `fuel` with `num · 10 ^ j ≥ den`. -/
def leadingZeros (den : Nat) : Nat → Nat → Nat
  | 0, _ => 0
  | fuel + 1, num => if den ≤ num then 0 else leadingZeros den fuel (num * 10) + 1

/-- The `n` with `10 ^ (n - 1) ≤ num / den < 10 ^ n`. -/
def pointOf (num den : Nat) : Int :=
  if den ≤ num then digitCount (num / den)
  else 1 - (leadingZeros den 400 num : Int)

/-- A point of the grid with `count` digits. Rounding up may reach the next power of ten, which has
one digit more before its point. -/
def gridPoint (n count : Nat) (point : Int) : Digits :=
  if n = tenTo count then ⟨tenTo (count - 1), count, point + 1⟩ else ⟨n, count, point⟩

/-- The candidate of the grid with `count` digits: the grid's point just below or just above the
double, whichever lies in the interval, and the nearer one if both do. Halfway between the two, the
even one is taken. -/
def candidate (i : Interval) (point : Int) (count : Nat) : Option Digits :=
  let shift := point - count
  let gridNum := tenTo shift.toNat
  let gridDen := tenTo (-shift).toNat
  let below := i.mid * gridDen / (i.den * gridNum)
  let belowIn := i.contains (below * gridNum) gridDen
  let aboveIn := i.contains ((below + 1) * gridNum) gridDen
  let twice := 2 * i.mid * gridDen
  let halfway := (2 * below + 1) * gridNum * i.den
  let nearer :=
    if twice < halfway ∨ (twice = halfway ∧ below % 2 = 0) then below else below + 1
  if belowIn && aboveIn then some (gridPoint nearer count point)
  else if belowIn then some (gridPoint below count point)
  else if aboveIn then some (gridPoint (below + 1) count point)
  else none

/-- The first grid, from `count` digits on, that has a point in the interval. -/
def search (i : Interval) (point : Int) : Nat → Nat → Digits
  | 0, count => ⟨i.mid * tenTo (count - point).toNat / i.den, count, point⟩
  | fuel + 1, count =>
    match candidate i point count with
    | some d => d
    | none => search i point fuel (count + 1)

/-- The fewest digits that read back as the double `m · 2 ^ q`, for a positive mantissa. Seventeen
digits are always enough. -/
def shortest (m : Nat) (q : Int) : Digits :=
  let i := interval m q
  search i (pointOf i.mid i.den) 17 1

end QueueScript.Decimal
