import Lexeme.Byte
import Lexeme.Token.Kind

/-!
# Number suffixes

A number may end in a suffix that declares its type: a letter, with a width behind it, and an
apostrophe in front where the letter could be taken for a digit.
-/

set_option autoImplicit false

namespace Lexeme

structure Suffix where
  /-- The kind the suffix declares. -/
  kind : Option Kind
  length : Nat
  /-- Whether the suffix is complete. No suffix at all is a complete one. -/
  complete : Bool
deriving DecidableEq, Repr

namespace Suffix

/-- The letters that begin a suffix. -/
def isLetter (b : UInt8) : Bool := Byte.toLower b ∈ Byte.ofAscii "fdiu"

/-- The width at the front of a line, and how many bytes it takes. -/
def width? (line : List UInt8) : Option (Nat × Nat) :=
  if (Byte.ofAscii "64").isPrefixOf line then some (64, 2)
  else if (Byte.ofAscii "32").isPrefixOf line then some (32, 2)
  else if (Byte.ofAscii "16").isPrefixOf line then some (16, 2)
  else if (Byte.ofAscii "8").isPrefixOf line then some (8, 1)
  else none

/-- The signed type of a width. -/
def signedType (width : Nat) : IntType :=
  match width with
  | 64 => .int64
  | 32 => .int32
  | 16 => .int16
  | _ => .int8

/-- The unsigned type of a width. -/
def unsignedType (width : Nat) : IntType :=
  match width with
  | 64 => .uint64
  | 32 => .uint32
  | 16 => .uint16
  | _ => .uint8

/-- The suffix of a floating-point type, behind its letter. -/
def ofFloat (line : List UInt8) : Suffix :=
  if (Byte.ofAscii "32").isPrefixOf line then ⟨some (.floatLit .float32), 3, true⟩
  else if (Byte.ofAscii "64").isPrefixOf line then ⟨some (.floatLit .float64), 3, true⟩
  else if (Byte.ofAscii "128").isPrefixOf line then ⟨some (.floatLit .float128), 4, true⟩
  else ⟨some (.floatLit .float), 1, true⟩

/-- The suffix of a signed type, behind its letter; it needs a width. -/
def ofSigned (line : List UInt8) : Suffix :=
  match width? line with
  | some (width, length) => ⟨some (.intLit (signedType width)), 1 + length, true⟩
  | none => ⟨none, 1, false⟩

/-- The suffix of an unsigned type, behind its letter. -/
def ofUnsigned (line : List UInt8) : Suffix :=
  match width? line with
  | some (width, length) => ⟨some (.intLit (unsignedType width)), 1 + length, true⟩
  | none => ⟨some (.intLit .uint), 1, true⟩

/-- A suffix from its letter on. -/
def ofLetter : List UInt8 → Suffix
  | [] => ⟨none, 0, false⟩
  | b :: rest =>
    let letter := Byte.toLower b
    if letter == Byte.ofChar 'f' then ofFloat rest
    else if letter == Byte.ofChar 'd' then ⟨some (.floatLit .float64), 1, true⟩
    else if letter == Byte.ofChar 'i' then ofSigned rest
    else if letter == Byte.ofChar 'u' then ofUnsigned rest
    else ⟨none, 0, false⟩

/-- The suffix at the front of a line. -/
def scan : List UInt8 → Suffix
  | [] => ⟨none, 0, true⟩
  | b :: rest =>
    if b == Byte.apostrophe then
      let s := ofLetter rest
      { s with length := 1 + s.length }
    else if isLetter b then ofLetter (b :: rest)
    else ⟨none, 0, true⟩

end Suffix
end Lexeme
