import Lexeme.Byte
import Lexeme.Token.Basic

/-!
# Operators

An operator is a maximal run of operator bytes. How many spaces follow it is part of the
token: spacing may change how strongly operators bind.
-/

set_option autoImplicit false

namespace Lexeme.Spelling

/-- The operator at the front of a line. -/
def operatorRun (line : List UInt8) : List UInt8 := line.takeWhile Byte.isOperator

/-- The spaces in front of what follows on the line; `none` where nothing follows. -/
def spacesAhead (line : List UInt8) : Option Nat :=
  match line.dropWhile (· == Byte.space) with
  | [] => none
  | _ :: _ => some (min (line.takeWhile (· == Byte.space)).length Token.maxSpaces)

/-- Whether a line starts with an export mark: a star in front of a colon that is an operator
of its own. The two are separate tokens although their bytes could form one operator. -/
def isExportMark : List UInt8 → Bool
  | Byte.star :: Byte.colon :: b :: _ => !Byte.isOperator b
  | [Byte.star, Byte.colon] => true
  | _ => false

end Lexeme.Spelling
