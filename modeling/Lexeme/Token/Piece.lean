import Lexeme.Token.Basic
import Lexeme.Diagnostic

/-!
# Pieces

A piece is what a scanner makes of the bytes at the front of a line: a token without its place,
and how many bytes it takes. Words and operators get their kind only when their spelling is
looked up in the identifier table.
-/

set_option autoImplicit false

namespace Lexeme

/-- What a spelling is looked up as. -/
inductive NameRole where
  | word
  | operator
deriving DecidableEq, Repr

/-- A spelling to be looked up, with its hash. -/
structure Name where
  role : NameRole
  bytes : List UInt8
  hash : UInt32
deriving DecidableEq, Repr

/-- The kind of an identifier in a role: a keyword or a mark if its number is reserved. -/
def NameRole.kind (role : NameRole) (i : Ident) : Kind :=
  match role with
  | word => (Ident.keywordOf? i.id).elim .symbol .keyword
  | operator => (Ident.markOf? i.id).elim .operator .mark

structure Piece where
  kind : Kind
  length : Nat
  name : Option Name := none
  int : Int := 0
  float : Binary64 := .zero
  base : Base := .decimal
  literal : List UInt8 := []
  spaceAfter : Option Nat := some 0
  /-- Offsets count from the piece's first byte. -/
  findings : List Finding := []
deriving DecidableEq, Repr

namespace Piece

/-- The token a piece becomes: its name, if it has one, is entered in the table. -/
def toToken (p : Piece) (table : IdentTable) : Token × IdentTable :=
  let token : Token :=
    { kind := p.kind, int := p.int, float := p.float, base := p.base, literal := p.literal,
      spaceAfter := p.spaceAfter }
  match p.name with
  | none => (token, table)
  | some n =>
    let (ident, table) := table.internBytes n.bytes n.hash
    ({ token with kind := n.role.kind ident, ident := some ident }, table)

end Piece
end Lexeme
