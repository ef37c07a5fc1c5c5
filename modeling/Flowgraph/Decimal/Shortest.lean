/-!
# The fewest digits that read back

A binary floating point number stands for every real that rounds to it.  `shortest` finds, for
such an interval around `significand * 2 ^ exponent`, the decimal with the fewest digits inside
it, and of those the one nearest to the number itself.

All arithmetic is on exact quotients.  For one digit, then two, and so on, the two neighbours of
the number on the grid of that many digits are tried; the first grid with a neighbour inside the
interval wins, since a grid that meets the interval at all meets it at one of the two.
-/

namespace Flowgraph.Decimal

/-- A non-negative quotient; the divisor is never zero. -/
structure Ratio where
  num : Nat
  den : Nat
  deriving Repr

namespace Ratio

/-- `n * 2 ^ exponent`. -/
def scaled (n : Nat) (exponent : Int) : Ratio :=
  if exponent ≥ 0 then ⟨n * Nat.pow 2 exponent.toNat, 1⟩
  else ⟨n, Nat.pow 2 (-exponent).toNat⟩

/-- `n * 10 ^ exponent`. -/
def decimal (n : Nat) (exponent : Int) : Ratio :=
  if exponent ≥ 0 then ⟨n * Nat.pow 10 exponent.toNat, 1⟩
  else ⟨n, Nat.pow 10 (-exponent).toNat⟩

def le (x y : Ratio) : Bool := x.num * y.den ≤ y.num * x.den

def lt (x y : Ratio) : Bool := x.num * y.den < y.num * x.den

/-- The largest natural number whose multiple of `10 ^ exponent` is at most `x`. -/
def floorAt (x : Ratio) (exponent : Int) : Nat :=
  if exponent ≥ 0 then x.num / (x.den * Nat.pow 10 exponent.toNat)
  else x.num * Nat.pow 10 (-exponent).toNat / x.den

end Ratio

/-- The reals that round to one number. -/
structure Interval where
  lower : Ratio
  upper : Ratio
  closed : Bool

def Interval.mem (interval : Interval) (x : Ratio) : Bool :=
  if interval.closed then interval.lower.le x && x.le interval.upper
  else interval.lower.lt x && x.lt interval.upper

/-- The number of decimal digits of `n`, one for zero. -/
def digitCount (n : Nat) : Nat :=
  (Nat.toDigits 10 n).length

/-- The exponent of ten of the first digit of a positive quotient: `10 ^ p ≤ x < 10 ^ (p + 1)`. -/
def leadingExponent (x : Ratio) : Int :=
  let estimate : Int := (digitCount x.num : Int) - (digitCount x.den : Int)
  if (Ratio.decimal 1 estimate).le x then estimate else estimate - 1

/-- Of the two grid points around `x`, the one inside the interval; of two such, the nearer, and
the upper one if they are equally near. -/
def neighbour? (interval : Interval) (x : Ratio) (exponent : Int) : Option Nat :=
  let below := x.floorAt exponent
  let hitBelow := interval.mem (.decimal below exponent)
  let hitAbove := interval.mem (.decimal (below + 1) exponent)
  -- The middle of the two points, compared with `x`.
  let half := Ratio.decimal (10 * below + 5) (exponent - 1)
  if hitAbove && (!hitBelow || half.le x) then some (below + 1)
  else if hitBelow then some below
  else none

/-- The grids of `count`, `count + 1`, … digits, as many as `fuel` says. -/
def firstHit (interval : Interval) (x : Ratio) (leading : Int) : Nat → Nat → Nat × Int
  | 0, count => (x.floorAt (leading + 1 - count), leading + 1 - count)
  | fuel + 1, count =>
    match neighbour? interval x (leading + 1 - count) with
    | some digits => (digits, leading + 1 - count)
    | none => firstHit interval x leading fuel (count + 1)

/-- The reals that round to `significand * 2 ^ exponent`.  Below a power of two the doubles are
twice as dense, unless the exponent is already the least one. -/
def roundingInterval (significand : Nat) (exponent : Int) : Interval where
  lower :=
    if significand = Nat.pow 2 52 ∧ exponent > -1074 then .scaled (4 * significand - 1) (exponent - 2)
    else .scaled (4 * significand - 2) (exponent - 2)
  upper := .scaled (4 * significand + 2) (exponent - 2)
  closed := significand % 2 = 0

/-- The fewest digits that read back as the double `significand * 2 ^ exponent`, with the exponent
of ten of their last place.  Seventeen digits always suffice. -/
def shortest (significand : Nat) (exponent : Int) : Nat × Int :=
  let x := Ratio.scaled significand exponent
  firstHit (roundingInterval significand exponent) x (leadingExponent x) 17 1

end Flowgraph.Decimal
