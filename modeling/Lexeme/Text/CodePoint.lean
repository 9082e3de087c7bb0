/-!
# Extended UTF-8

Escapes may name any 31-bit value, not only Unicode scalar values. Such a value is written in
the extended form of UTF-8: one byte below 128, otherwise a lead byte that tells the length,
two to six bytes, followed by six bits per byte, in the shortest form that holds the value.
-/

set_option autoImplicit false

namespace Lexeme.CodePoint

/-- The largest Unicode code point. -/
def largest : Nat := 0x10FFFF

/-- A continuation byte with the lowest six bits of `value`. -/
def continuation (value : Nat) : UInt8 := UInt8.ofNat (0x80 + value % 64)

/-- The `count` continuation bytes of `value`, most significant first. -/
def tail (value : Nat) : Nat → List UInt8
  | 0 => []
  | count + 1 => continuation (value >>> (6 * count)) :: tail value count

/-- A lead byte and its `count` continuation bytes. The bits that no continuation byte holds
are added to `mark`. -/
def form (mark count value : Nat) : List UInt8 :=
  UInt8.ofNat (mark + value >>> (6 * count)) :: tail value count

/-- The shortest form of a value; one above 31 bits has none. -/
def encode (value : Nat) : List UInt8 :=
  if value ≤ 0x7F then form 0 0 value
  else if value ≤ 0x7FF then form 0xC0 1 value
  else if value ≤ 0xFFFF then form 0xE0 2 value
  else if value ≤ 0x1FFFFF then form 0xF0 3 value
  else if value ≤ 0x3FFFFFF then form 0xF8 4 value
  else if value ≤ 0x7FFFFFFF then form 0xFC 5 value
  else []

end Lexeme.CodePoint
