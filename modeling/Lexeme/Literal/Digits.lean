import Lexeme.Byte
import Lexeme.Diagnostic
import Lexeme.Power

/-!
# Digit runs

Digits of a number may be grouped by single underscores, each between two digits. Integers and bit
patterns are read into a word of 64 bits, digit by digit, and it is noted if the word overflows.
-/

set_option autoImplicit false

namespace Lexeme

/-- Digits and the underscores between them. -/
structure DigitRun where
  text : List UInt8
  /-- Whether the run stopped in front of an underscore that no digit follows. -/
  dangling : Bool
deriving DecidableEq, Repr

namespace DigitRun

/-- The run with more text in front. -/
def prepend (text : List UInt8) (r : DigitRun) : DigitRun := { r with text := text ++ r.text }

/-- Whether a line goes on with a digit. -/
def continues (isDigit : UInt8 → Bool) : List UInt8 → Bool
  | [] => false
  | b :: _ => isDigit b

/-- The rest of a run; an underscore needs a digit in front of it and one behind it. -/
def scanFrom (isDigit : UInt8 → Bool) (afterDigit : Bool) : List UInt8 → DigitRun
  | [] => ⟨[], false⟩
  | b :: rest =>
    if isDigit b then (scanFrom isDigit true rest).prepend [b]
    else if b == Byte.underscore && afterDigit then
      if continues isDigit rest then (scanFrom isDigit false rest).prepend [b] else ⟨[], true⟩
    else ⟨[], false⟩

/-- The run at the front of a line. -/
def scan (isDigit : UInt8 → Bool) (line : List UInt8) : DigitRun := scanFrom isDigit false line

/-- The digits alone. -/
def digits (r : DigitRun) : List UInt8 := r.text.filter (· != Byte.underscore)

/-- The complaint about a dangling underscore of a run that starts at `offset`. -/
def findings (offset : Nat) (r : DigitRun) : List Finding :=
  if r.dangling then [⟨offset + r.text.length, .underscoreGrouping⟩] else []

end DigitRun

/-- The number that digits spell in a base, most significant first. -/
def digitsValue (base : Nat) (digits : List UInt8) : Nat :=
  digits.foldl (fun value b => value * base + (Byte.hexValue? b).getD 0) 0

/-- A word that digits are read into. -/
structure DigitWord where
  bits : UInt64
  /-- Whether there has been a number on the way that the word had no room for. -/
  overflow : Bool
deriving DecidableEq, Repr

namespace DigitWord

def zero : DigitWord := ⟨0, false⟩

/-- The word with one more digit behind. -/
def push (base : Nat) (w : DigitWord) (b : UInt8) : DigitWord :=
  let next := w.bits.toNat * base + (Byte.hexValue? b).getD 0
  ⟨UInt64.ofNat next, w.overflow || pow2 64 ≤ next⟩

def ofDigits (base : Nat) (digits : List UInt8) : DigitWord := digits.foldl (push base) zero

end DigitWord
end Lexeme
