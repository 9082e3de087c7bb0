import Lexeme.Layout.Comment
import Lexeme.Options
import Lexeme.Token.Basic

/-!
# What stands between tokens

Spaces, line breaks and discarded comments separate tokens. A token that starts a line carries
the line's indentation, its spaces in front; other tokens carry the spaces between them and what
comes before them.
-/

set_option autoImplicit false

namespace Lexeme

/-- What ends a run of blanks on a line. -/
inductive BlankEnd where
  /-- A token, or the end of the input. -/
  | token
  /-- The line's end; a discarded comment reaches up to it. -/
  | lineEnd
  /-- A discarded block comment. -/
  | block
deriving DecidableEq, Repr

/-- A run of blanks on one line. -/
structure BlankRun where
  length : Nat
  /-- How many spaces there were, with those counted before. -/
  spaces : Nat
  ending : BlankEnd
  findings : List Finding
deriving DecidableEq, Repr

namespace BlankRun

/-- How a `#` ends a run of blanks, by what follows it: documentation comments and retained ones
are tokens, an ordinary block is looked at elsewhere, and an ordinary comment is blank. -/
def endingAtHash (retain : Bool) : List UInt8 → BlankEnd
  | [] => if retain then .token else .lineEnd
  | b :: _ =>
    if b == Byte.hash || retain then .token else if b == Byte.bracketLeft then .block else .lineEnd

/-- The blanks at the front of a line, `offset` bytes behind the start of the run, with `spaces`
counted so far. -/
def scan (options : Options) (offset spaces : Nat) : List UInt8 → BlankRun
  | [] => ⟨offset, spaces, .lineEnd, []⟩
  | b :: rest =>
    if b == Byte.space then scan options (offset + 1) (min (spaces + 1) Token.maxSpaces) rest
    else if b == Byte.tab then
      let run := scan options (offset + 1) spaces rest
      if options.allowTabs then run
      else { run with findings := ⟨offset, .tabsNotAllowed⟩ :: run.findings }
    else if b == Byte.hash then
      match endingAtHash options.retainComments rest with
      | .lineEnd => ⟨offset + 1 + rest.length, spaces, .lineEnd, []⟩
      | ending => ⟨offset, spaces, ending, []⟩
    else ⟨offset, spaces, .token, []⟩

/-- A run that a block comment ends leaves a byte of the line. -/
theorem length_scan_lt (options : Options) (offset spaces : Nat) (line : List UInt8)
    (h : (scan options offset spaces line).ending = .block) :
    (scan options offset spaces line).length < offset + line.length := by
  fun_induction scan options offset spaces line with
  | case1 => simp at h
  | case2 offset spaces b rest hb ih => have := ih h; simp only [List.length_cons]; omega
  | case3 offset spaces b rest hb ht run hallow ih =>
    have := ih h; simp only [List.length_cons, run]; omega
  | case4 offset spaces b rest hb ht run hallow ih =>
    have := ih h; simp only [List.length_cons, run]; omega
  | case5 => simp at h
  | case6 => simp
  | case7 => simp at h

end BlankRun

/-- The indentation of a line: its spaces in front, discarded block comments between them passed
over. -/
structure Indentation (σ : Type) where
  /-- In 32 bits. -/
  width : Nat
  cursor : Cursor σ
  diagnostics : List Diagnostic

namespace Indentation

variable {σ : Type} [LineSource σ]

/-- The indentation from a cursor on, `width` spaces having been counted. -/
def scan (options : Options) (width : Nat) (c : Cursor σ) : Indentation σ :=
  let spaces := leadingSpaces c.rest
  let start := c.advance spaces
  if _h : BlockForm.ordinary.opener.isPrefixOf start.rest ∧ !options.retainComments then
    let block := BlockComment.ordinary options.maxLineLength (start.advance 2)
    let more := scan options (wrap32 (width + spaces)) block.cursor
    { more with diagnostics := block.diagnostics ++ more.diagnostics }
  else ⟨wrap32 (width + spaces), start, []⟩
termination_by c.unread
decreasing_by
  refine Nat.lt_of_le_of_lt (BlockComment.unread_ordinary_le _ _) ?_
  refine Nat.lt_of_lt_of_le (Cursor.unread_advance_lt (by decide) ?_)
      (Cursor.unread_advance_le c _)
  intro hn
  have h' := _h.1
  rw [show start.rest = [] from hn] at h'
  simp [BlockForm.opener] at h'

theorem unread_scan_le (options : Options) (width : Nat) (c : Cursor σ) :
    (scan options width c).cursor.unread ≤ c.unread := by
  fun_induction scan options width c with
  | case1 width c spaces start h block more ih =>
    refine Nat.le_trans ih (Nat.le_trans (BlockComment.unread_ordinary_le _ _) ?_)
    exact Nat.le_trans (Cursor.unread_advance_le _ _) (Cursor.unread_advance_le _ _)
  | case2 width c spaces start h => exact c.unread_advance_le _

/-- Whether a token starts at the end of the indentation. -/
def startsToken (options : Options) (line : List UInt8) : Bool :=
  Comment.isVisible line &&
    (line.head? != some Byte.hash || Comment.isDocumentation line || options.retainComments)

end Indentation

/-- What stands in front of a token. -/
structure Blank (σ : Type) where
  /-- At the token. -/
  cursor : Cursor σ
  /-- Spaces in front of the token. -/
  spaces : Nat
  /-- Indentation of the line, if the token starts one. -/
  indent : Option Nat
  diagnostics : List Diagnostic

namespace Blank

variable {σ : Type} [LineSource σ]

/-- The blank with more diagnostics in front. -/
def prepend (diagnostics : List Diagnostic) (b : Blank σ) : Blank σ :=
  { b with diagnostics := diagnostics ++ b.diagnostics }

/-- The blanks at a cursor, `spaces` having been counted in front. -/
def scan (options : Options) (spaces : Nat) (c : Cursor σ) : Blank σ :=
  let run := BlankRun.scan options 0 spaces c.rest
  let found := run.findings.map c.locate
  let start := c.advance run.length
  match _hend : run.ending with
  | .token => ⟨start, run.spaces, none, found⟩
  | .block =>
    let block := BlockComment.ordinary options.maxLineLength (start.advance 2)
    (scan options run.spaces block.cursor).prepend (found ++ block.diagnostics)
  | .lineEnd =>
    if _hlast : c.isLast then ⟨start, run.spaces, none, found⟩
    else
      let indentation := Indentation.scan options 0 c.nextLine
      let passed := found ++ c.lengthHint options.maxLineLength ++ indentation.diagnostics
      if Indentation.startsToken options indentation.cursor.rest then
        ⟨indentation.cursor, 0, some indentation.width, passed⟩
      else (scan options 0 indentation.cursor).prepend passed
termination_by c.unread
decreasing_by
  · have hlt := BlankRun.length_scan_lt options 0 spaces c.rest _hend
    refine Nat.lt_of_le_of_lt (BlockComment.unread_ordinary_le _ _) ?_
    refine Nat.lt_of_lt_of_le (Cursor.unread_advance_lt (by decide) ?_)
      (Cursor.unread_advance_le c _)
    intro hn
    rw [Cursor.rest_advance, List.drop_eq_nil_iff] at hn
    omega
  · exact Nat.lt_of_le_of_lt (Indentation.unread_scan_le _ _ _)
      (Cursor.unread_nextLine_lt (by simpa using _hlast))

end Blank
end Lexeme
