import Lexeme.Literal.Digits
import Lexeme.Literal.Suffix
import Lexeme.Literal.NumberValue
import Lexeme.Spelling.Symbol
import Lexeme.Token.Piece

/-!
# Number literals

A number is a body and a suffix. The body is a bit pattern, marked by a base in front, or a
decimal number with an optional fraction and exponent. Everything that is wrong with the form
of a literal is reported once, as an invalid number; only a well-formed one can be out of range.
-/

set_option autoImplicit false

namespace Lexeme

/-- The letter behind the leading zero of a bit pattern. Octal numbers are marked by `o`; `c` is
an old spelling that still works, and a capital `O` is refused. -/
inductive BaseMark where
  | hex
  | bin
  | oct
  | oldOct
  | badOct
deriving DecidableEq, Repr

namespace BaseMark

def ofByte? (b : UInt8) : Option BaseMark :=
  if b ∈ Byte.ofAscii "xX" then some .hex
  else if b ∈ Byte.ofAscii "bB" then some .bin
  else if b ∈ Byte.ofAscii "o" then some .oct
  else if b ∈ Byte.ofAscii "cC" then some .oldOct
  else if b ∈ Byte.ofAscii "O" then some .badOct
  else none

def base : BaseMark → Base
  | hex => .hexadecimal
  | bin => .binary
  | oct | oldOct | badOct => .octal

/-- How many digits there are in the base. -/
def radix : BaseMark → Nat
  | hex => 16
  | bin => 2
  | oct | oldOct | badOct => 8

def isDigit : BaseMark → UInt8 → Bool
  | hex => Byte.isHexDigit
  | bin => Byte.isBinaryDigit
  | oct | oldOct | badOct => Byte.isOctalDigit

/-- The letter that stands in the literal's text. -/
def letter : BaseMark → UInt8
  | hex => Byte.ofChar 'x'
  | bin => Byte.ofChar 'b'
  | oct | oldOct => Byte.ofChar 'o'
  | badOct => Byte.ofChar 'O'

end BaseMark

/-- The exponent of a decimal number. -/
structure Exponent where
  sign : Option UInt8
  run : DigitRun
deriving DecidableEq, Repr

namespace Exponent

/-- The exponent behind its letter. -/
def scan : List UInt8 → Exponent
  | [] => ⟨none, .scan Byte.isDigit []⟩
  | b :: rest =>
    if b == Byte.plus || b == Byte.minus then ⟨some b, .scan Byte.isDigit rest⟩
    else ⟨none, .scan Byte.isDigit (b :: rest)⟩

/-- The exponent's text, its letter included. -/
def text (e : Exponent) : List UInt8 := Byte.ofChar 'e' :: e.sign.toList ++ e.run.text

def value (e : Exponent) : Int :=
  let n : Int := digitsValue 10 e.run.digits
  if e.sign = some Byte.minus then -n else n

end Exponent

inductive NumberBody where
  | pattern (mark : BaseMark) (run : DigitRun)
  | decimal (whole : DigitRun) (fraction : Option DigitRun) (exponent : Option Exponent)
deriving DecidableEq, Repr

namespace NumberBody

/-- The fraction at the front of a line: a point with a digit behind it begins one. -/
def fraction? : List UInt8 → Option DigitRun
  | Byte.dot :: b :: rest => if Byte.isDigit b then some (.scan Byte.isDigit (b :: rest)) else none
  | _ => none

/-- The exponent at the front of a line. -/
def exponent? : List UInt8 → Option Exponent
  | [] => none
  | b :: rest => if b ∈ Byte.ofAscii "eE" then some (.scan rest) else none

/-- The text of a fraction, its point included. -/
def fractionText (fraction : Option DigitRun) : List UInt8 :=
  fraction.elim [] fun run => Byte.dot :: run.text

def scanDecimal (line : List UInt8) : NumberBody :=
  let whole := DigitRun.scan Byte.isDigit line
  let afterWhole := line.drop whole.text.length
  let fraction := fraction? afterWhole
  .decimal whole fraction (exponent? (afterWhole.drop (fractionText fraction).length))

/-- The body at the front of a line that starts with a digit. -/
def scan : List UInt8 → NumberBody
  | Byte.zero :: b :: rest =>
    match BaseMark.ofByte? b with
    | some mark => .pattern mark (.scan mark.isDigit rest)
    | none => scanDecimal (Byte.zero :: b :: rest)
  | line => scanDecimal line

/-- The text of the literal. The base letter is normalised, and so is the exponent's. -/
def text : NumberBody → List UInt8
  | pattern mark run => Byte.zero :: mark.letter :: run.text
  | decimal whole fraction exponent =>
    whole.text ++ fractionText fraction ++ exponent.elim [] Exponent.text

/-- How many bytes of the line the body takes: normalising keeps the length. -/
def length (b : NumberBody) : Nat := b.text.length

/-- The complaints about underscores. -/
def groupingFindings : NumberBody → List Finding
  | pattern _ run => run.findings 2
  | decimal whole fraction exponent =>
    let afterWhole := whole.text.length
    let afterFraction := afterWhole + (fractionText fraction).length
    whole.findings 0 ++ fraction.elim [] (·.findings (afterWhole + 1)) ++
      exponent.elim [] fun e => e.run.findings (afterFraction + 1 + e.sign.toList.length)

/-- The kind of the number unless a suffix declares one. -/
def kind : NumberBody → Kind
  | pattern _ _ => .intLit .int
  | decimal _ none none => .intLit .int
  | decimal _ _ _ => .floatLit .float

/-- Whether a base mark has no digits behind it. -/
def isEmpty : NumberBody → Bool
  | pattern _ run => run.text.isEmpty
  | decimal _ _ _ => false

/-- The value of a decimal number as a double; an exponent needs digits. -/
def double? (whole : DigitRun) (fraction : Option DigitRun) (exponent : Option Exponent) :
    Option Binary64 :=
  let places := fraction.elim [] DigitRun.digits
  let digits := digitsValue 10 (whole.digits ++ places)
  match exponent with
  | none => some (.ofDecimal digits (-places.length))
  | some e =>
    if e.run.text.isEmpty then none else some (.ofDecimal digits (e.value - places.length))

/-- The value of the body as a number of the given kind, if it is one. -/
def value? (b : NumberBody) (kind : Kind) : Option NumberValue :=
  match b, kind with
  | pattern mark run, .intLit type => some (.intOfPattern type (.ofDigits mark.radix run.digits))
  | pattern mark run, .floatLit type =>
    some (.floatOfPattern type (.ofDigits mark.radix run.digits))
  | decimal whole none none, .intLit type =>
    some (.intOfDecimalWord type (.ofDigits 10 whole.digits))
  | decimal whole fraction exponent, .floatLit type =>
    (double? whole fraction exponent).map (.ofFloat type · true)
  | _, _ => none

end NumberBody

namespace Number

/-- Bytes that may not follow a complete literal. -/
def sticksToNumber (b : UInt8) : Bool :=
  Byte.isHexDigit b || b ∈ Byte.ofAscii "XxoBbcC_" || b == Byte.apostrophe

/-- Whether a line goes on as if it still belonged to the number. -/
def continues : List UInt8 → Bool
  | [] => false
  | [b] => sticksToNumber b
  | b :: c :: _ => sticksToNumber b || (b == Byte.dot && Byte.isDigit c)

/-- Bytes that are quoted in messages about a number. -/
def isQuoted (b : UInt8) : Bool :=
  Byte.isHexDigit b || b ∈ Byte.ofAscii "XxoOcC_.diu" || b == Byte.apostrophe

/-- The quoted bytes of an exponent's sign and digits, if `line` starts with a sign that stands
behind an exponent letter. -/
def quotedExponent (before : Option UInt8) : List UInt8 → List UInt8
  | [] => []
  | b :: rest =>
    if (b == Byte.plus || b == Byte.minus) && (before == some 101 || before == some 69) then
      b :: rest.takeWhile isQuoted
    else []

/-- The quoted bytes of a suffix. -/
def quotedSuffix : List UInt8 → List UInt8
  | [] => []
  | b :: rest =>
    if b == Byte.apostrophe || Suffix.isLetter b then b :: rest.takeWhile Byte.isDigit else []

/-- The bytes of a line that messages about a number quote. -/
def quotedBytes (line : List UInt8) : List UInt8 :=
  let digits := line.takeWhile isQuoted
  let afterDigits := line.drop digits.length
  let exponent := quotedExponent digits.getLast? afterDigits
  digits ++ exponent ++ quotedSuffix (afterDigits.drop exponent.length)

/-- How messages quote the number at the front of a line. -/
def quotedText (line : List UInt8) : String := Utf8.lossy (quotedBytes line)

/-- The complaint about a base mark. -/
def markFindings (line : List UInt8) : NumberBody → List Finding
  | .pattern .oldOct _ => [⟨0, .deprecatedOctalPrefix (quotedText line)⟩]
  | .pattern .badOct _ => [⟨0, .invalidOctalPrefix (quotedText line)⟩]
  | _ => []

/-- A number's body, suffix and value. A literal with a refused base mark has no value. -/
structure Parts where
  body : NumberBody
  suffix : Suffix
  value : Option NumberValue
  /-- Whether the base mark is the refused one. -/
  refused : Bool
deriving DecidableEq, Repr

namespace Parts

/-- The parts of the number at the front of a line. -/
def scan (line : List UInt8) : Parts :=
  let body := NumberBody.scan line
  let suffix := Suffix.scan (line.drop body.length)
  let refused := match body with
    | .pattern .badOct _ => true
    | _ => false
  ⟨body, suffix, if refused then none else body.value? (suffix.kind.getD body.kind), refused⟩

def length (p : Parts) : Nat := p.body.length + p.suffix.length

/-- Whether the literal is malformed, given what follows it. -/
def isMalformed (p : Parts) (after : List UInt8) : Bool :=
  p.body.isEmpty || !p.suffix.complete || continues after || (p.value.isNone && !p.refused)

/-- The base a token carries; the refused mark leaves it decimal. -/
def base (p : Parts) : Base :=
  match p.body with
  | .pattern mark _ => if p.refused then .decimal else mark.base
  | .decimal _ _ _ => .decimal

/-- The kind a token has. A malformed literal keeps the kind it declares. -/
def kind (p : Parts) : Kind :=
  if p.refused then .invalid
  else p.value.elim (p.suffix.kind.getD p.body.kind) NumberValue.kind

/-- The complaint about the value. -/
def valueFindings (p : Parts) (line : List UInt8) : List Finding :=
  if p.isMalformed (line.drop p.length) then [⟨0, .invalidNumber (quotedText line)⟩]
  else if p.value.elim false (!·.inRange) then [⟨0, .numberOutOfRange (quotedText line)⟩]
  else []

end Parts

/-- The number at the front of a line that starts with a digit. -/
def scan (line : List UInt8) : Piece :=
  let parts := Parts.scan line
  let glued := if Spelling.meetsSymbol (line.drop parts.length) then
    [⟨parts.length, .numberFollowedByIdent⟩] else []
  { kind := parts.kind
    length := parts.length
    int := parts.value.elim 0 NumberValue.int
    float := parts.value.elim .zero NumberValue.float
    base := parts.base
    literal := parts.body.text
    findings := markFindings line parts.body ++ parts.body.groupingFindings ++
      parts.valueFindings line ++ glued }

end Number
end Lexeme
