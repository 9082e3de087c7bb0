import Lexeme.Lexer.Basic

/-!
# Lexers that share a table

Several lexers may enter their identifiers into one table. They take turns in any order; each
turn reads one token.
-/

set_option autoImplicit false

namespace Lexeme

structure LexerFamily (σ : Type) where
  members : List (Lexer σ)
  table : IdentTable

namespace LexerFamily

variable {σ : Type} [LineSource σ]

/-- Let the member with a number read a token. -/
def next? (f : LexerFamily σ) (member : Nat) : Option (LexerStep σ × LexerFamily σ) :=
  f.members[member]?.map fun lexer =>
    let step := lexer.next f.table
    (step, ⟨f.members.set member step.lexer, step.table⟩)

/-- Let the members read in the order of a schedule; numbers without a member are passed over. -/
def run (f : LexerFamily σ) : List Nat → List (LexerStep σ) × LexerFamily σ
  | [] => ([], f)
  | member :: schedule =>
    match f.next? member with
    | none => f.run schedule
    | some (step, f) =>
      let (steps, f) := f.run schedule
      (step :: steps, f)

end LexerFamily
end Lexeme
