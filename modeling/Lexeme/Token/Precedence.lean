import Lexeme.Token.Basic

/-!
# Operator precedence

Operators bind by their spelling: the first byte puts them on a level from 1 to 10, a final
`=` makes most of them assignments and an arrow head puts them on the lowest level. Some
keywords and `..` are operators with a fixed level. With strong spaces, each space in front
of an operator, up to nine, outweighs all levels.
-/

set_option autoImplicit false

namespace Lexeme

/-- The level of the operators with a kind of their own. -/
def Kind.fixedPrecedence? : Kind → Option Nat
  | .keyword k =>
    if k ∈ [.kwDiv, .kwMod, .kwShl, .kwShr] then some 9
    else if k ∈ [.kwIn, .kwNotin, .kwIs, .kwIsnot, .kwNot, .kwOf, .kwAs] then some 5
    else if k ∈ [.kwAnd] then some 4
    else if k ∈ [.kwOr, .kwXor, .kwPtr, .kwRef] then some 3
    else none
  | .mark .dotDot => some 6
  | _ => none

namespace Precedence

/-- Whether the operator ends in an arrow: `->`, `~>` or `=>`. -/
def isArrow (bytes : List UInt8) : Bool :=
  match bytes.reverse with
  | Byte.greater :: b :: _ => b == Byte.minus || b == 126 || b == Byte.equals
  | _ => false

/-- Whether the operator is longer than one byte and ends in `=`. -/
def isAssignment (bytes : List UInt8) : Bool :=
  match bytes.reverse with
  | Byte.equals :: _ :: _ => true
  | _ => false

/-- The level an operator's first byte puts it on, and whether a final `=` overrides it. -/
def levelOf (first : UInt8) : Nat × Bool :=
  if first ∈ Byte.ofAscii "$^" then (10, true)
  else if first ∈ Byte.ofAscii "*%/\\" then (9, true)
  else if first ∈ Byte.ofAscii "~" then (8, false)
  else if first ∈ Byte.ofAscii "+-|" then (8, true)
  else if first ∈ Byte.ofAscii "&" then (7, true)
  else if first ∈ Byte.ofAscii "=<>!" then (5, false)
  else if first ∈ Byte.ofAscii "." then (6, true)
  else if first ∈ Byte.ofAscii "?" then (2, false)
  else (2, true)

/-- The level of an operator without a kind of its own. -/
def ofBytes (bytes : List UInt8) : Nat :=
  match bytes with
  | [] => 2
  | first :: _ =>
    if isArrow bytes then 1
    else
      let (level, assignable) := levelOf first
      if assignable && isAssignment bytes then 1 else level

/-- The level of an operator given as text. -/
def ofText (text : String) : Nat := ofBytes (Utf8.encode text)

/-- What tokens that are no operators bind with. -/
def notOperator : Int := -10

end Precedence

namespace Token

/-- The level of an operator token; other tokens have none. -/
def level? (t : Token) : Option Nat :=
  match t.kind with
  | .operator => some (Precedence.ofText t.identText)
  | kind => kind.fixedPrecedence?

/-- How strongly the token binds. -/
def precedence (t : Token) (strongSpaces : Bool) : Int :=
  match t.level? with
  | none => Precedence.notOperator
  | some level =>
    if strongSpaces then 100 - 10 * (min t.spaceBefore 9 : Nat) + level else level

end Token

/-- How strongly an identifier binds as an operator, by its number and its text. -/
def Ident.precedence (i : Ident) : Int :=
  let kind := match keywordOf? i.id, markOf? i.id with
    | some k, _ => Kind.keyword k
    | none, some m => .mark m
    | none, none => .operator
  Token.precedence { kind, ident := some i } false

end Lexeme
