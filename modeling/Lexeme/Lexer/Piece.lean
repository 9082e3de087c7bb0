import Lexeme.Token.Piece
import Lexeme.Literal.Number
import Lexeme.Literal.Quoted
import Lexeme.Spelling.Symbol
import Lexeme.Spelling.Operator

/-!
# Tokens on one line

Every token but a comment or a triple-quoted string lies on one line, and its first bytes tell
what it is. `Piece.scan` reads one from the front of a line.
-/

set_option autoImplicit false

namespace Lexeme

/-- How a string starts: the quote, or an `r` in front of it. -/
structure StringOpening where
  /-- The form the string has on one line. -/
  form : StringForm
  /-- How many bytes stand in front of the quote. -/
  lead : Nat
deriving DecidableEq, Repr

namespace StringOpening

/-- The string at the front of a line, `before` being the byte in front of it. Right behind a
symbol a string is a generalized one. -/
def ofLine? (before : Option UInt8) : List UInt8 → Option StringOpening
  | [] => none
  | b :: rest =>
    if b == Byte.quote then
      if before.any Byte.isSymbol then some ⟨.generalized, 0⟩ else some ⟨.plain, 0⟩
    else if Byte.toLower b == Byte.ofChar 'r' && rest.head? == some Byte.quote then
      some ⟨.raw, 1⟩
    else none

/-- Whether the string is a triple-quoted one. -/
def isTriple (o : StringOpening) (line : List UInt8) : Bool :=
  [Byte.quote, Byte.quote, Byte.quote].isPrefixOf (line.drop o.lead)

/-- The form a triple-quoted string has. -/
def tripleForm (o : StringOpening) : StringForm :=
  if o.form = .generalized then .generalizedTriple else .triple

end StringOpening

namespace Piece

/-- A string that ends on its line. -/
def ofString (ctx : Escape.Context) (o : StringOpening) (line : List UInt8) : Piece :=
  let body := line.drop (o.lead + 1)
  let q := if o.form = .plain then Quoted.plain ctx 1 body else Quoted.raw 1 body
  { kind := .strLit o.form
    length := o.lead + q.stop
    literal := q.bytes
    findings := q.findings.map (Finding.shift o.lead) }

/-- A character literal. -/
def ofCharacter (ctx : Escape.Context) (line : List UInt8) : Piece :=
  let q := Quoted.character { ctx with inCharacter := true } (line.drop 1)
  { kind := .charLit, length := q.stop, literal := q.bytes, findings := q.findings }

/-- A symbol or a keyword. -/
def ofSymbol (line : List UInt8) : Piece :=
  let s := Spelling.Symbol.scan .empty line
  { kind := .symbol
    length := s.bytes.length
    name := some ⟨.word, s.bytes, s.hash.finish⟩
    findings := if s.dangling then [⟨s.bytes.length, .trailingUnderscore⟩] else [] }

/-- An operator with the given spelling. -/
def ofSpelling (bytes : List UInt8) (spaceAfter : Option Nat) : Piece :=
  { kind := .operator
    length := bytes.length
    name := some ⟨.operator, bytes, (IdentHash.empty.pushAll bytes).finish⟩
    spaceAfter }

/-- An operator and the spaces behind it. -/
def ofOperator (line : List UInt8) : Piece :=
  let bytes := Spelling.operatorRun line
  ofSpelling bytes (Spelling.spacesAhead (line.drop bytes.length))

/-- A byte that begins no token. -/
def stray (b : UInt8) : Piece :=
  { kind := .invalid, length := 1, literal := [b],
    findings := [⟨0, .invalidToken (Byte.toChar b) b⟩] }

/-- An underscore is a symbol of its own, unless a symbol seems to follow. -/
def ofUnderscore (rest : List UInt8) : Piece :=
  if Spelling.meetsSymbol rest then stray Byte.underscore
  else
    { kind := .symbol, length := 1
      name := some ⟨.word, [Byte.underscore], IdentHash.ofBytes [Byte.underscore]⟩ }

/-- A mark of the given length. -/
def ofMark (m : Mark) (length : Nat) : Piece := { kind := .mark m, length }

/-- Whether a bracket is followed by a dot that belongs to it, and not to a range operator. -/
def dotFollows : List UInt8 → Bool
  | [Byte.dot] => true
  | Byte.dot :: b :: _ => b != Byte.dot
  | _ => false

/-- A closing bracket with a dot in front of it. -/
def closingDot? (rest : List UInt8) : Option Mark :=
  match rest with
  | Byte.bracketRight :: _ => some .bracketDotRight
  | Byte.braceRight :: _ => some .curlyDotRight
  | Byte.parenRight :: _ => some .parenDotRight
  | _ => none

/-- The bracket or separator that starts with a byte. -/
def punctuation? (b : UInt8) (rest : List UInt8) : Option Piece :=
  match b with
  | Byte.comma => some (ofMark .comma 1)
  | Byte.semicolon => some (ofMark .semicolon 1)
  | Byte.backtick => some { kind := .accent, length := 1 }
  | Byte.parenRight => some (ofMark .parenRight 1)
  | Byte.bracketRight => some (ofMark .bracketRight 1)
  | Byte.braceRight => some (ofMark .curlyRight 1)
  | Byte.parenLeft => some (if dotFollows rest then ofMark .parenDotLeft 2 else ofMark .parenLeft 1)
  | Byte.bracketLeft =>
    some (if dotFollows rest then ofMark .bracketDotLeft 2
      else if rest.head? = some Byte.colon then ofMark .bracketLeftColon 2
      else ofMark .bracketLeft 1)
  | Byte.braceLeft => some (if dotFollows rest then ofMark .curlyDotLeft 2 else ofMark .curlyLeft 1)
  | Byte.dot => (closingDot? rest).map (ofMark · 2)
  | _ => none

/-- The token on a line from the byte `b` on, strings apart. -/
def ofBytes (ctx : Escape.Context) (b : UInt8) (rest : List UInt8) : Piece :=
  let line := b :: rest
  if Byte.isSymbolStart b then ofSymbol line
  else if Spelling.isExportMark line then ofSpelling [Byte.star] (some 0)
  else match punctuation? b rest with
    | some p => p
    | none =>
      if b == Byte.underscore then ofUnderscore rest
      else if b == Byte.apostrophe then ofCharacter ctx line
      else if Byte.isDigit b then Number.scan line
      else if Byte.isOperator b then ofOperator line
      else stray b

end Piece
end Lexeme
