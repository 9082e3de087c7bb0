import Lexeme.Source.Cursor

/-!
# Block comments

A block comment runs from its opener to the matching closer, over as many lines as it takes;
blocks of one form nest. An ordinary block stands between `#[` and `]#`. A documentation block
stands between `##[` and `]##`, and each of its lines loses the indentation of the first.
-/

set_option autoImplicit false

namespace Lexeme

inductive BlockForm where
  | ordinary
  | documentation
deriving DecidableEq, Repr

namespace BlockForm

def opener : BlockForm → List UInt8
  | ordinary => [Byte.hash, Byte.bracketLeft]
  | documentation => [Byte.hash, Byte.hash, Byte.bracketLeft]

def closer : BlockForm → List UInt8
  | ordinary => [Byte.bracketRight, Byte.hash]
  | documentation => [Byte.bracketRight, Byte.hash, Byte.hash]

end BlockForm

/-- The part of a block comment on one line. -/
structure BlockLine where
  /-- The bytes of the comment, without the closer. -/
  text : List UInt8
  /-- How many bytes of the line belong to the comment, the closer included. -/
  length : Nat
  /-- How many inner blocks are open at the end of the line, in 32 bits; `none` if the comment is
  closed. -/
  depth : Option UInt32
deriving DecidableEq, Repr

namespace BlockLine

def cons (b : UInt8) (l : BlockLine) : BlockLine :=
  { l with text := b :: l.text, length := l.length + 1 }

/-- The part of a comment on a line, with `depth` inner blocks open in front. Openers and closers
are looked for at every byte, so they may overlap. The count of open blocks wraps. -/
def scan (form : BlockForm) : UInt32 → List UInt8 → BlockLine
  | depth, [] => ⟨[], 0, some depth⟩
  | depth, b :: rest =>
    if form.opener.isPrefixOf (b :: rest) then cons b (scan form (depth + 1) rest)
    else if form.closer.isPrefixOf (b :: rest) then
      if depth = 0 then ⟨[], form.closer.length, none⟩
      else cons b (scan form (depth - 1) rest)
    else cons b (scan form depth rest)

end BlockLine

/-- A scanned block comment. -/
structure BlockComment (σ : Type) where
  /-- The contents, with a line feed for every terminator. -/
  text : List UInt8
  /-- How many terminators the contents have. -/
  breaks : Nat
  closed : Bool
  /-- Behind the comment. -/
  cursor : Cursor σ
  diagnostics : List Diagnostic

namespace BlockComment

variable {σ : Type} [LineSource σ]

/-- Pass over at most `count` spaces. -/
def dropSpaces (count : Nat) (c : Cursor σ) : Cursor σ :=
  c.advance (min count (leadingSpaces c.rest))

theorem unread_dropSpaces_le (count : Nat) (c : Cursor σ) :
    (dropSpaces count c).unread ≤ c.unread :=
  c.unread_advance_le _

/-- The rest of a block comment, with `depth` inner blocks open. Every further line loses up to
`strip` spaces; `limit` is the line length from which on hints are due. -/
def scan (form : BlockForm) (limit strip : Nat) (depth : UInt32) (c : Cursor σ) :
    BlockComment σ :=
  let l := BlockLine.scan form depth c.rest
  match l.depth with
  | none => ⟨l.text, 0, true, c.advance l.length, []⟩
  | some depth =>
    if _h : c.isLast then
      ⟨l.text, 0, false, c.lineEnd, [c.lineEnd.report .unterminatedComment]⟩
    else
      let more := scan form limit strip depth (dropSpaces strip c.nextLine)
      { more with
        text := l.text ++ Byte.lf :: more.text
        breaks := more.breaks + 1
        diagnostics := c.lengthHint limit ++ more.diagnostics }
termination_by c.unread
decreasing_by
  exact Nat.lt_of_le_of_lt (unread_dropSpaces_le _ _)
    (Cursor.unread_nextLine_lt (by simpa using _h))

/-- An ordinary block comment, from behind its opener. -/
def ordinary (limit : Nat) (c : Cursor σ) : BlockComment σ := scan .ordinary limit 0 0 c

/-- A documentation block, from behind its opener. If text follows on the opener's line, further
lines are indented as far as the opener reaches; otherwise the contents start on the next line,
and its indentation counts. -/
def documentation (limit : Nat) (c : Cursor σ) : BlockComment σ :=
  let spaces := leadingSpaces c.rest
  if spaces = c.rest.length ∧ !c.isLast then
    let next := c.nextLine
    let indent := leadingSpaces next.rest
    let block := scan .documentation limit (wrap32 indent) 0 (next.advance indent)
    { block with diagnostics := c.lengthHint limit ++ block.diagnostics }
  else scan .documentation limit c.position.column 0 (c.advance spaces)

theorem unread_scan_le (form : BlockForm) (limit strip : Nat) (depth : UInt32) (c : Cursor σ) :
    (scan form limit strip depth c).cursor.unread ≤ c.unread := by
  fun_induction scan form limit strip depth c with
  | case1 depth c l hd => exact c.unread_advance_le _
  | case2 depth c l depth' hd h => exact c.unread_advance_le _
  | case3 depth c l depth' hd h more ih =>
    exact Nat.le_trans ih (Nat.le_trans (unread_dropSpaces_le _ _) c.unread_nextLine_le)

theorem unread_ordinary_le (limit : Nat) (c : Cursor σ) :
    (ordinary limit c).cursor.unread ≤ c.unread :=
  unread_scan_le _ _ _ _ c

end BlockComment
end Lexeme
