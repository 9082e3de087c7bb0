import Lexeme.Source.Cursor

/-!
# Triple-quoted strings

A triple-quoted string runs over lines and has no escapes. It ends at three quotes that no
fourth one follows, so quotes at its end belong to its contents. If the opening quotes are
followed by blanks only, the contents start on the next line.
-/

set_option autoImplicit false

namespace Lexeme

/-- The part of a triple-quoted string on one line. -/
structure TripleLine where
  text : List UInt8
  /-- How many bytes of the line belong to the string, closing quotes included. -/
  length : Nat
  closed : Bool
deriving DecidableEq, Repr

namespace TripleLine

def cons (b : UInt8) (l : TripleLine) : TripleLine :=
  { l with text := b :: l.text, length := l.length + 1 }

/-- Whether a line starts with the closing quotes. -/
def closes : List UInt8 → Bool
  | [Byte.quote, Byte.quote, Byte.quote] => true
  | Byte.quote :: Byte.quote :: Byte.quote :: b :: _ => b != Byte.quote
  | _ => false

def scan : List UInt8 → TripleLine
  | [] => ⟨[], 0, false⟩
  | b :: rest => if closes (b :: rest) then ⟨[], 3, true⟩ else cons b (scan rest)

end TripleLine

/-- A scanned triple-quoted string. -/
structure TripleString (σ : Type) where
  /-- The contents, with a line feed for every terminator. -/
  text : List UInt8
  closed : Bool
  /-- Behind the string. -/
  cursor : Cursor σ
  diagnostics : List Diagnostic

namespace TripleString

variable {σ : Type} [LineSource σ]

/-- The contents from a cursor on. -/
def contents (limit : Nat) (c : Cursor σ) : TripleString σ :=
  let l := TripleLine.scan c.rest
  if l.closed then ⟨l.text, true, c.advance l.length, []⟩
  else if _h : c.isLast then ⟨l.text, false, c.lineEnd, []⟩
  else
    let more := contents limit c.nextLine
    { more with
      text := l.text ++ Byte.lf :: more.text
      diagnostics := c.lengthHint limit ++ more.diagnostics }
termination_by c.unread
decreasing_by exact Cursor.unread_nextLine_lt (by simpa using _h)

def isBlank (b : UInt8) : Bool := b == Byte.space || b == Byte.tab

/-- The string from behind its opening quotes. -/
def scan (limit : Nat) (c : Cursor σ) : TripleString σ :=
  if c.rest.all isBlank ∧ !c.isLast then
    let body := contents limit c.nextLine
    { body with diagnostics := c.lengthHint limit ++ body.diagnostics }
  else contents limit c

end TripleString
end Lexeme
