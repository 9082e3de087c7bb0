import Lexeme.Layout.BlockComment

/-!
# Comments that are tokens

Documentation comments are tokens, and ordinary ones are if they are retained. Documentation
lines that follow each other merge into one token, and the indentation of the line behind them
is noted for the token that starts it.
-/

set_option autoImplicit false

namespace Lexeme

/-- A scanned comment. -/
structure Comment (σ : Type) where
  text : List UInt8
  /-- How many line feeds the text has. -/
  breaks : Nat
  /-- Behind the comment. -/
  cursor : Cursor σ
  /-- Indentation of the line behind documentation lines in 32 bits, if a token starts it. -/
  pendingIndent : Option Nat
  diagnostics : List Diagnostic

namespace Comment

variable {σ : Type} [LineSource σ]

/-- Whether a line goes on with a visible byte. -/
def isVisible : List UInt8 → Bool
  | [] => false
  | b :: _ => Byte.space < b

/-- Whether a line goes on with a documentation comment. -/
def isDocumentation : List UInt8 → Bool
  | Byte.hash :: Byte.hash :: _ => true
  | _ => false

/-- Documentation lines, from the text of the first one on. Every further line loses up to
`strip` spaces behind its mark. -/
def documentationLines (limit strip : Nat) (c : Cursor σ) : Comment σ :=
  if _h : c.isLast then ⟨c.rest, 0, c.lineEnd, none, []⟩
  else
    let indent := leadingSpaces c.nextLine.rest
    let next := c.nextLine.advance indent
    if isDocumentation next.rest then
      let more := documentationLines limit strip (BlockComment.dropSpaces strip (next.advance 2))
      { more with
        text := c.rest ++ Byte.lf :: more.text
        breaks := more.breaks + 1
        diagnostics := c.lengthHint limit ++ more.diagnostics }
    else
      ⟨c.rest, 0, next, if isVisible next.rest then some (wrap32 indent) else none,
        c.lengthHint limit⟩
termination_by c.unread
decreasing_by
  refine Nat.lt_of_le_of_lt (BlockComment.unread_dropSpaces_le _ _) ?_
  refine Nat.lt_of_le_of_lt (Cursor.unread_advance_le _ _) ?_
  exact Nat.lt_of_le_of_lt (Cursor.unread_advance_le _ _)
    (Cursor.unread_nextLine_lt (by simpa using _h))

/-- The comment that a block makes, with its contents as text. -/
def ofBlock (b : BlockComment σ) : Comment σ :=
  ⟨b.text, b.breaks, b.cursor, none, b.diagnostics⟩

/-- The comment that a block makes, delimiters included. -/
def ofBlockVerbatim (form : BlockForm) (b : BlockComment σ) : Comment σ :=
  { ofBlock b with text := form.opener ++ b.text ++ if b.closed then form.closer else [] }

/-- The comment at a cursor that stands on its `#`. -/
def scan (limit : Nat) (c : Cursor σ) : Comment σ :=
  if BlockForm.documentation.opener.isPrefixOf c.rest then
    ofBlock (.documentation limit (c.advance 3))
  else if isDocumentation c.rest then
    let strip := leadingSpaces (c.rest.drop 2)
    documentationLines limit (wrap32 strip) (c.advance (2 + strip))
  else if BlockForm.ordinary.opener.isPrefixOf c.rest then
    ofBlockVerbatim .ordinary (.ordinary limit (c.advance 2))
  else ⟨c.rest, 0, c.lineEnd, none, []⟩

end Comment
end Lexeme
