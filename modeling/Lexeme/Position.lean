import Lexeme.Power

/-!
# Source positions

Lines count from 1 and columns from 0, in bytes, both in 32 bits: behind the last number lines
start again at 0, and columns stay where they are. Files are known by a number that the caller
assigns.
-/

set_option autoImplicit false

namespace Lexeme

/-- The number a caller gave to a source file. -/
structure FileId where
  index : Nat := 0
deriving DecidableEq, Repr

/-- Stands for a source that comes from no file. -/
def FileId.dummy : FileId := ⟨pow2 32 - 1⟩

structure Position where
  file : FileId := {}
  line : Nat := 0
  column : Nat := 0
deriving DecidableEq, Repr

namespace Position

/-- Columns have 32 bits: what lies further right shares the last one. -/
def maxColumn : Nat := pow2 32 - 1

/-- The line and the column with a colon between them; the file is not part of the text. -/
def text (p : Position) : String := toString p.line ++ ":" ++ toString p.column

end Position
end Lexeme
