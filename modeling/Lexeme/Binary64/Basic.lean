import Lexeme.Power

/-!
# Double precision numbers

Floating-point literals denote IEEE 754 doubles, kept here as their 64 bits. All arithmetic
is exact arithmetic on naturals: a finite double is `significand * 2 ^ exponent` with
`exponent ≥ -1074`, and a quotient of naturals is rounded once, to the nearest double.
-/

set_option autoImplicit false

namespace Lexeme

/-- A double, by its bits. -/
structure Binary64 where
  bits : UInt64
deriving DecidableEq, Repr

namespace Binary64

def zero : Binary64 := ⟨0⟩

/-- The exponent field of infinities and NaNs, in place. -/
def infinityBits : Nat := 0x7FF0000000000000

def infinity : Binary64 := ⟨UInt64.ofNat infinityBits⟩

/-- Whether the sign bit is set. -/
def isNegative (x : Binary64) : Bool := pow2 63 ≤ x.bits.toNat

/-- The bits below the sign. -/
def magnitude (x : Binary64) : Nat := x.bits.toNat % pow2 63

def isNaN (x : Binary64) : Bool := infinityBits < x.magnitude

def isInfinite (x : Binary64) : Bool := x.magnitude == infinityBits

/-- The exponent field. -/
def exponentField (x : Binary64) : Nat := x.magnitude / pow2 52

/-- The significand of a finite double: the fraction field, with the hidden bit where the
exponent field is positive. -/
def significand (x : Binary64) : Nat :=
  x.magnitude % pow2 52 + if x.exponentField = 0 then 0 else pow2 52

/-- The exponent of a finite double's last bit. -/
def exponent (x : Binary64) : Int := (max x.exponentField 1 : Nat) - 1075

end Binary64

/-- A quotient rounded to a natural, a half going to the even neighbour. -/
def roundHalfEven (num den : Nat) : Nat :=
  let quotient := num / den
  let rest := num % den
  if 2 * rest < den then quotient
  else if den < 2 * rest then quotient + 1
  else quotient + quotient % 2

/-- A quotient `num / den` over `2 ^ exponent`, as a quotient of naturals. -/
def scaleRatio (num den : Nat) (exponent : Int) : Nat × Nat :=
  (num * pow2 (-exponent).toNat, den * pow2 exponent.toNat)

namespace Binary64

/-- The exponent of the last bit of the doubles around a positive quotient: the quotient has
53 binary digits above it, unless that would fall below the smallest exponent. -/
def unitExponent (num den : Nat) : Int :=
  let guess : Int := (num.log2 : Int) - den.log2 - 52
  let (n, d) := scaleRatio num den guess
  max (if n < pow2 52 * d then guess - 1 else guess) (-1074)

/-- The double nearest to `num / den`, a tie going to the even significand. The fields add up:
a significand of 53 bits carries its leading bit into the exponent field, and one that rounds
up to `2 ^ 53` is the next power of two. What passes the last finite double is infinite. -/
def ofRatio (num den : Nat) : Binary64 :=
  if num = 0 then zero
  else
    let unit := unitExponent num den
    let (n, d) := scaleRatio num den unit
    ⟨UInt64.ofNat (min ((unit + 1074).toNat * pow2 52 + roundHalfEven n d) infinityBits)⟩

/-- How many decimal digits a positive natural has. -/
def decimalLength (n : Nat) : Nat := (Nat.toDigits 10 n).length

/-- The double nearest to `digits * 10 ^ exponent`. Values of `10 ^ 309` and above are past the
largest double and values below `10 ^ -324` are closer to zero than to the smallest one, so
their powers of ten are never formed. -/
def ofDecimal (digits : Nat) (exponent : Int) : Binary64 :=
  let top := decimalLength digits + exponent
  if digits = 0 ∨ top ≤ -324 then zero
  else if 309 < top then infinity
  else ofRatio (digits * pow10 exponent.toNat) (pow10 (-exponent).toNat)

/-- The double with the value of a single precision number, given by its 32 bits. -/
def ofSingleBits (bits : UInt32) : Binary64 :=
  let word := bits.toNat
  let field := word / pow2 23 % pow2 8
  let fraction := word % pow2 23
  let magnitude :=
    if field = 255 then infinityBits + fraction * pow2 29
    else if field = 0 then (ofRatio fraction (pow2 149)).bits.toNat
    else (field + 896) * pow2 52 + fraction * pow2 29
  ⟨UInt64.ofNat (word / pow2 31 * pow2 63 + magnitude)⟩

end Binary64
end Lexeme
