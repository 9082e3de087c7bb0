import Lexeme.Byte
import Lexeme.Diagnostic
import Lexeme.Text.CodePoint
import Lexeme.Text.Utf8
import Lexeme.Power

/-!
# Escapes

A backslash in a plain string or a character literal begins an escape: a letter for a control
byte, a byte by its hexadecimal or decimal value, or a code point. A malformed escape is
reported and never swallows the quote or the line end that closes the literal.
-/

set_option autoImplicit false

namespace Lexeme

/-- A decoded escape. Offsets and lengths count from the byte behind the backslash. -/
structure Escape where
  bytes : List UInt8
  length : Nat
  findings : List Finding
deriving DecidableEq, Repr

namespace Escape

/-- Where an escape stands. -/
structure Context where
  /-- The newline escape is refused in character literals. -/
  legacyNewline : Bool
  inCharacter : Bool
  /-- The byte at the end of the line. -/
  stop : UInt8
deriving DecidableEq, Repr

/-- The byte a one-letter escape stands for; quotes and the backslash stand for themselves. -/
def simple? (b : UInt8) : Option UInt8 :=
  let letter := Byte.toLower b
  if letter ∈ Byte.ofAscii "rc" then some Byte.cr
  else if letter ∈ Byte.ofAscii "l" then some Byte.lf
  else if letter ∈ Byte.ofAscii "fav" then some Byte.formFeed
  else if letter ∈ Byte.ofAscii "e" then some Byte.escape
  else if letter ∈ Byte.ofAscii "b" then some Byte.backspace
  else if letter ∈ Byte.ofAscii "t" then some Byte.tab
  else if b ∈ [Byte.apostrophe, Byte.quote, Byte.backslash] then some b
  else none

/-- The value with one more hexadecimal digit; it stays at the largest 32-bit number. -/
def appendHex (value digit : Nat) : Nat := min (value * 16 + digit) (pow2 32 - 1)

/-- Whether a byte may close the literal, so that no escape steps over it. -/
def closesLiteral (b : UInt8) : Bool := b == Byte.quote || b == Byte.apostrophe

/-- The complaint about a byte in place of a hexadecimal digit. -/
def noHexDigit (offset : Nat) (b : UInt8) : Finding :=
  ⟨offset, .expectedHexDigit (Byte.toChar b)⟩

/-- Hexadecimal digits that have been read: their value and where they end. -/
structure HexDigits where
  value : Nat
  stop : Nat
  findings : List Finding
deriving DecidableEq, Repr

def HexDigits.cons (f : Finding) (d : HexDigits) : HexDigits :=
  { d with findings := f :: d.findings }

/-- A fixed number of hexadecimal digits. A byte that is none is reported and passed over,
unless it may close the literal. -/
def hexDigits (stop : UInt8) : Nat → Nat → Nat → List UInt8 → HexDigits
  | 0, offset, value, _ => ⟨value, offset, []⟩
  | count + 1, offset, value, [] =>
    (hexDigits stop count offset value []).cons (noHexDigit offset stop)
  | count + 1, offset, value, b :: rest =>
    match Byte.hexValue? b with
    | some digit => hexDigits stop count (offset + 1) (appendHex value digit) rest
    | none =>
      if closesLiteral b then
        (hexDigits stop count offset value (b :: rest)).cons (noHexDigit offset b)
      else (hexDigits stop count (offset + 1) value rest).cons (noHexDigit offset b)

/-- The hexadecimal digits up to a closing brace, or up to what may close the literal. -/
def bracedDigits (stop : UInt8) : Nat → Nat → List UInt8 → HexDigits
  | offset, value, [] => ⟨value, offset, [noHexDigit offset stop]⟩
  | offset, value, b :: rest =>
    if b == Byte.braceRight then ⟨value, offset, []⟩
    else if closesLiteral b then ⟨value, offset, [noHexDigit offset b]⟩
    else match Byte.hexValue? b with
      | some digit => bracedDigits stop (offset + 1) (appendHex value digit) rest
      | none => (bracedDigits stop (offset + 1) value rest).cons (noHexDigit offset b)

/-- A code point in braces; `body` is what follows the opening brace. -/
def braced (stop : UInt8) (body : List UInt8) : Escape :=
  let digits := bracedDigits stop 0 0 body
  let length := digits.stop + if (body.drop digits.stop).head? = some Byte.braceRight then 1 else 0
  if digits.stop = 0 then ⟨[], length, digits.findings ++ [⟨0, .emptyCodePoint⟩]⟩
  else
    let tooLarge := if CodePoint.largest < digits.value then
      [⟨0, .codePointTooLarge (Utf8.lossy (body.take digits.stop))⟩] else []
    ⟨CodePoint.encode digits.value, length, digits.findings ++ tooLarge⟩

/-- A byte by two hexadecimal digits, behind the letter. -/
def hexByte (stop : UInt8) (rest : List UInt8) : Escape :=
  let digits := hexDigits stop 2 1 0 rest
  ⟨[UInt8.ofNat digits.value], digits.stop, digits.findings⟩

/-- A code point behind its letter: in braces, or by four hexadecimal digits. -/
def codePoint (stop : UInt8) : List UInt8 → Escape
  | Byte.braceLeft :: body =>
    let e := braced stop body
    ⟨e.bytes, 2 + e.length, e.findings.map (Finding.shift 2)⟩
  | rest =>
    let digits := hexDigits stop 4 1 0 rest
    ⟨CodePoint.encode digits.value, digits.stop, digits.findings⟩

/-- A byte by up to three decimal digits. A zero in front of another digit looks like an octal
escape and gets a warning. -/
def decimalByte (bytes : List UInt8) : Escape :=
  let digits := (bytes.take 3).takeWhile Byte.isDigit
  let value := digits.foldl (fun v b => v * 10 + (b.toNat - 48)) 0
  let octal := match digits with
    | Byte.zero :: _ :: _ => [⟨0, .octalEscape⟩]
    | _ => []
  if value < 256 then ⟨[UInt8.ofNat value], digits.length, octal⟩
  else ⟨[], digits.length, octal ++ [⟨digits.length, .invalidCharConstant⟩]⟩

/-- The escape behind a backslash; `bytes` is the rest of the line. -/
def scan (ctx : Context) : List UInt8 → Escape
  | [] => ⟨[], 0, [⟨0, .invalidCharConstant⟩]⟩
  | b :: rest =>
    let refused (letter : Char) : List Finding :=
      if ctx.inCharacter then [⟨0, .escapeNotAllowedInChar letter⟩] else []
    let letter := Byte.toLower b
    match simple? b with
    | some byte => ⟨[byte], 1, []⟩
    | none =>
      if letter == Byte.ofChar 'n' then
        ⟨[Byte.lf], 1, if ctx.legacyNewline then refused 'n' else []⟩
      else if letter == Byte.ofChar 'p' then ⟨[Byte.lf], 1, refused 'p'⟩
      else if letter == Byte.ofChar 'x' then hexByte ctx.stop rest
      else if letter == Byte.ofChar 'u' then
        let e := codePoint ctx.stop rest
        ⟨e.bytes, e.length, refused 'u' ++ e.findings⟩
      else if Byte.isDigit b then decimalByte (b :: rest)
      else ⟨[], 0, [⟨0, .invalidCharConstant⟩]⟩

end Escape
end Lexeme
