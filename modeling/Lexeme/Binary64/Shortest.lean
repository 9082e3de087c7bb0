import Lexeme.Binary64.Basic

/-!
# The text of a double

A double is written with the fewest decimal digits that read back as the same double, and of
those with the digits nearest to its value. The text is positional whatever the size: it
never has an exponent, and a whole number has no decimal point.
-/

set_option autoImplicit false

namespace Lexeme

/-- The positive reals that round to one double, over a common denominator: `low`, `value` and
`high` are divided by `den`. -/
structure RoundingInterval where
  low : Nat
  value : Nat
  high : Nat
  den : Nat
  /-- Whether the ends belong to it. -/
  closed : Bool

namespace RoundingInterval

/-- The interval of a positive finite double. It reaches half-way to both neighbours; below a
power of two the neighbour is at half the distance. -/
def ofDouble (x : Binary64) : RoundingInterval :=
  let m := x.significand
  let below := if m = pow2 52 ∧ 1 < x.exponentField then 1 else 2
  let up := pow2 (x.exponent - 2).toNat
  { low := (4 * m - below) * up
    value := 4 * m * up
    high := (4 * m + 2) * up
    den := pow2 (2 - x.exponent).toNat
    closed := m % 2 = 0 }

/-- Whether the decimal `digits * 10 ^ exponent` lies in the interval. -/
def contains (r : RoundingInterval) (digits : Nat) (exponent : Int) : Bool :=
  let point := digits * pow10 exponent.toNat * r.den
  let scale := pow10 (-exponent).toNat
  if r.closed then r.low * scale ≤ point && point ≤ r.high * scale
  else r.low * scale < point && point < r.high * scale

/-- Where the first digit of the value stands: `10 ^ (n - 1) ≤ value < 10 ^ n`. No positive
double is below `10 ^ -324`, so the scaled value keeps its leading digit. -/
def pointPosition (r : RoundingInterval) : Int :=
  (Binary64.decimalLength (r.value * pow10 400 / r.den) : Int) - 400

/-- The point on the grid of multiples of `10 ^ exponent` that lies in the interval and is
nearest to the value; half-way the upper one. -/
def nearestOn? (r : RoundingInterval) (exponent : Int) : Option Nat :=
  let num := r.value * pow10 (-exponent).toNat
  let den := r.den * pow10 exponent.toNat
  let down := num / den
  let upNearer := den ≤ 2 * (num % den)
  match r.contains down exponent, r.contains (down + 1) exponent with
  | true, true => some (if upNearer then down + 1 else down)
  | true, false => some down
  | false, true => some (down + 1)
  | false, false => none

/-- The first grid, from coarse to fine, that has a point in the interval. -/
def shortestFrom (r : RoundingInterval) (exponent : Int) : Nat → Nat × Int
  | 0 => (0, exponent)
  | finer + 1 =>
    match r.nearestOn? exponent with
    | some digits => (digits, exponent)
    | none => shortestFrom r (exponent - 1) finer

/-- The shortest decimal in the interval. Seventeen digits always suffice. -/
def shortest (r : RoundingInterval) : Nat × Int := r.shortestFrom (r.pointPosition - 1) 17

end RoundingInterval

namespace Binary64

/-- The number `digits * 10 ^ exponent` in positional notation, without superfluous zeros. -/
def positional (digits : Nat) (exponent : Int) : String :=
  let all := Nat.toDigits 10 digits
  let point := (all.length : Int) + exponent
  let short := (all.reverse.dropWhile (· == '0')).reverse
  if point ≤ 0 then
    "0." ++ String.ofList (List.replicate (-point).toNat '0' ++ short)
  else if (short.length : Int) ≤ point then
    String.ofList (short ++ List.replicate (point.toNat - short.length) '0')
  else
    String.ofList (short.take point.toNat) ++ "." ++ String.ofList (short.drop point.toNat)

/-- The text of a double: NaN is unsigned, infinities and zeros keep their sign. -/
def text (x : Binary64) : String :=
  if x.isNaN then "NaN"
  else
    let sign := if x.isNegative then "-" else ""
    if x.isInfinite then sign ++ "inf"
    else if x.magnitude = 0 then sign ++ "0"
    else
      let (digits, exponent) := (RoundingInterval.ofDouble x).shortest
      sign ++ positional digits exponent

end Binary64
end Lexeme
