import Lexeme.Token.Basic
import Lexeme.Literal.Digits
import Lexeme.Power

/-!
# Values of number literals

A number written in base 2, 8 or 16 is a bit pattern: it has to fit the width of its type, and
its bits are reinterpreted. A decimal integer has to fit the range of its type, and one without
a suffix takes the 64-bit type when it needs more than 32 bits. A number that does not fit keeps
its low 64 bits.

A literal's digits have been read into a word when its value is looked for, so that ranges are
checked on the word. `intOfBits`, `floatOfBits` and `intOfDecimal` are the values of the numbers
themselves, however large.
-/

set_option autoImplicit false

namespace Lexeme

structure NumberValue where
  kind : Kind
  int : Int
  float : Binary64
  inRange : Bool
deriving DecidableEq, Repr

namespace IntType

/-- The largest value of the type. -/
def maxValue (t : IntType) : Nat :=
  if t.isUnsigned then pow2 t.width - 1 else pow2 (t.width - 1) - 1

/-- The low bits of a number, read as a value of the type. Values are kept as signed 64-bit
numbers, so an unsigned type of full width shows the signed reading of its bits. -/
def wrap (t : IntType) (n : Nat) : Int :=
  if t.isUnsigned && t.width < 64 then (n % pow2 t.width : Nat) else (n : Int).bmod (pow2 t.width)

end IntType

namespace NumberValue

def ofInt (type : IntType) (int : Int) (inRange : Bool) : NumberValue :=
  ⟨.intLit type, int, .zero, inRange⟩

def ofFloat (type : FloatType) (float : Binary64) (inRange : Bool) : NumberValue :=
  ⟨.floatLit type, 0, float, inRange⟩

/-- The value of a bit pattern as an integer. -/
def intOfBits (type : IntType) (n : Nat) : NumberValue :=
  ofInt type (type.wrap n) (n < pow2 type.width)

/-- The value of a bit pattern as a floating-point number. -/
def floatOfBits (type : FloatType) (n : Nat) : NumberValue :=
  match type with
  | .float32 => ofFloat type (.ofSingleBits (UInt32.ofNat n)) (n < pow2 32)
  | _ => ofFloat type ⟨UInt64.ofNat n⟩ (n < pow2 64)

/-- The type of a decimal integer, by its declared type and its low 64 bits. -/
def decimalType (declared : IntType) (low : Nat) : IntType :=
  if declared = .int ∧ pow2 31 - 1 < low then .int64 else declared

/-- The value of a decimal integer. -/
def intOfDecimal (declared : IntType) (n : Nat) : NumberValue :=
  ofInt (decimalType declared (n % pow2 64)) ((n : Int).bmod (pow2 64)) (n ≤ declared.maxValue)

/-- The value of a word of pattern digits as an integer. -/
def intOfPattern (type : IntType) (w : DigitWord) : NumberValue :=
  let low := w.bits.toNat
  ofInt type (type.wrap low) (!w.overflow && low < pow2 type.width)

/-- The value of a word of pattern digits as a floating-point number. -/
def floatOfPattern (type : FloatType) (w : DigitWord) : NumberValue :=
  let low := w.bits.toNat
  match type with
  | .float32 =>
    ofFloat type (.ofSingleBits (UInt32.ofNat low)) (!w.overflow && low < pow2 32)
  | _ => ofFloat type ⟨w.bits⟩ (!w.overflow)

/-- The value of a word of decimal digits. -/
def intOfDecimalWord (declared : IntType) (w : DigitWord) : NumberValue :=
  let low := w.bits.toNat
  ofInt (decimalType declared low) ((low : Int).bmod (pow2 64))
    (!w.overflow && low ≤ declared.maxValue)

end NumberValue
end Lexeme
