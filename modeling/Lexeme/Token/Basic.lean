import Lexeme.Token.Kind
import Lexeme.Ident.Table
import Lexeme.Binary64.Shortest
import Lexeme.Power

/-!
# Tokens

A token is what the lexer hands to a parser. Which fields carry a meaning depends on the
kind: numbers have a value and a base, strings, characters and comments a literal, symbols,
keywords and operators an identifier.
-/

set_option autoImplicit false

namespace Lexeme

/-- The base a number is written in. -/
inductive Base where
  | decimal | binary | octal | hexadecimal
deriving DecidableEq, Repr

structure Token where
  kind : Kind := .invalid
  /-- Indentation of the line, on the first token of a line. -/
  indent : Option Nat := none
  ident : Option Ident := none
  /-- Value of an integer as a signed 64-bit number; number of line breaks in a comment. -/
  int : Int := 0
  float : Binary64 := .zero
  base : Base := .decimal
  /-- Decoded contents of strings and characters, text of comments, numbers and stray bytes. -/
  literal : List UInt8 := []
  line : Nat := 0
  column : Nat := 0
  /-- Spaces in front, on the same line. -/
  spaceBefore : Nat := 0
  /-- Spaces behind an operator; `none` where the line ends behind them. -/
  spaceAfter : Option Nat := some 0
deriving DecidableEq, Repr

namespace Token

/-- Counts of spaces stop at 255. -/
def maxSpaces : Nat := 255

/-- The token that carries nothing. -/
def blank : Token := {}

/-- The token with every field set back. -/
def clear (_ : Token) : Token := blank

/-- The literal as text. -/
def literalText (t : Token) : String := Utf8.lossy t.literal

/-- The identifier's text, empty where there is none. -/
def identText (t : Token) : String := t.ident.elim "" Ident.name

/-- The token as text: numbers by their value, an unsigned one by its 64-bit pattern; brackets,
separators and the single colon by their spelling, literals by their contents, and all else
by the identifier. -/
def text (t : Token) : String :=
  match t.kind with
  | .intLit type => if type.isUnsigned then toString (t.int % (pow2 64 : Nat)) else toString t.int
  | .floatLit _ => t.float.text
  | .invalid | .comment | .strLit _ | .charLit => t.literalText
  | .mark m => if m.index ≤ Mark.colon.index then m.spelling else t.identText
  | .eof | .accent => t.kind.name
  | _ => t.identText

/-- Like `text`, with keywords announced as such. -/
def prettyText (t : Token) : String :=
  match t.kind with
  | .keyword k => "keyword " ++ k.spelling
  | _ => t.text

end Token
end Lexeme
