import Lexeme.Proofs.Layout.LengthHints
import Lexeme.Proofs.Lexer.WholeRun

/-!
# Every long line is told once

A call tells the hints of the terminators between the lexer it starts with and the one it leaves,
so the hints of a whole run are those of all lines that have a terminator. On an input that columns
can count they are read off the bytes: `longLineHints` looks at nothing but the lengths of the
lines.
-/

set_option autoImplicit false

namespace Lexeme

open Diagnostic

section Sources

variable {σ : Type} [LineSource σ]

theorem TokenRead.tells_ofPiece {p : Piece} {c : Cursor σ} (limit : Nat)
    (hle : p.length ≤ c.rest.length) (hfree : HintFree p.findings) (table : IdentTable) :
    c.Tells limit (ofPiece p c table).diagnostics (ofPiece p c table).cursor :=
  (Cursor.tells_advance hle).append_silent (lengthHints_map_locate c hfree)

theorem TokenRead.tells_scan (options : Options) (c : Cursor σ) (table : IdentTable) :
    c.Tells options.maxLineLength (scan options c table).diagnostics
      (scan options c table).cursor := by
  cases way c with
  | nil h =>
    rw [scan_of_nil options h]
    exact .refl _ c
  | comment rest h =>
    rw [scan_of_hash options h]
    exact Comment.tells_scan options.maxLineLength c
  | triple o ho ht =>
    rw [scan_of_triple options ho ht]
    have hopen : c.Tells options.maxLineLength [] (c.advance (o.lead + 3)) :=
      Cursor.tells_advance (StringOpening.lead_add_three_le ht (StringOpening.lead_lt ho))
    refine (hopen.trans (TripleString.tells_scan options.maxLineLength _)).append_silent ?_
    split
    · rfl
    · exact lengthHints_report c Message.noConfusion
  | string o ho ht =>
    rw [scan_of_string options ho ht]
    have hfree := (Piece.aboutPiece_ofString (context options c) o c.rest).hintFree
    exact tells_ofPiece _ (Piece.fits_ofString _ ho).le hfree table
  | bytes b rest h hb ho =>
    have hfits := Piece.fits_ofBytes (context options c) b rest
    rw [← h] at hfits
    rw [scan_of_bytes options h hb ho]
    exact tells_ofPiece _ hfits.le (Piece.aboutPiece_ofBytes _ b rest).hintFree table

namespace Lexer

/-- A call tells the hints of the terminators it passes. -/
theorem tells_next (l : Lexer σ) (table : IdentTable) :
    l.cursor.Tells l.options.maxLineLength (l.next table).diagnostics
      (l.next table).lexer.cursor :=
  (Blank.leads_scan l.options 0 l.cursor).tells.trans
    (TokenRead.tells_scan l.options l.blank.cursor table)

theorem isLast_next_of_eof {l : Lexer σ} {table : IdentTable}
    (h : (l.next table).token.kind = .eof) : (l.next table).lexer.cursor.isLast = true := by
  have hrest := (kind_next_eq_eof_iff l table).1 h
  have hread := TokenRead.scan_of_nil l.options hrest table
  rw [next, hread]
  exact Blank.isLast_of_rest_eq_nil l.options 0 l.cursor hrest

/-- A whole run tells the hints of all lines ahead. -/
theorem lengthHints_diagnostics (l : Lexer σ) (table : IdentTable) :
    lengthHints (l.diagnostics table) = l.cursor.hintsAhead l.options.maxLineLength := by
  induction l, table using runCases with
  | eof l table h =>
    rw [diagnostics_of_eof h, tells_next l table,
      Cursor.hintsAhead_of_isLast (isLast_next_of_eof h),
      List.append_nil]
  | token l table h ih =>
    rw [diagnostics_of_ne_eof h, lengthHints_append, ih, tells_next l table]
    rfl

end Lexer
end Sources

/-! ## Hints by the bytes -/

theorem splitLines_ne_nil (bytes : List UInt8) : splitLines bytes ≠ [] := by
  by_cases h : (Line.first bytes).ending = .eof
  · rw [splitLines_of_eof h]
    exact List.cons_ne_nil _ _
  · rw [Text.splitLines_of_ne_eof h]
    exact List.cons_ne_nil _ _

/-- One hint for each line longer than the limit, at the line's end, the first line having the
number `first` in 32 bits. -/
def longLineHints (file : FileId) (limit first : Nat) (lines : List (List UInt8)) :
    List Diagnostic :=
  (lines.zipIdx first).filterMap fun (line, number) =>
    if limit < line.length then some ⟨⟨file, wrap32 number, line.length⟩, .lineTooLong⟩
    else none

theorem longLineHints_cons (file : FileId) (limit first : Nat) (line : List UInt8)
    (lines : List (List UInt8)) :
    longLineHints file limit first (line :: lines) =
      (if limit < line.length then [⟨⟨file, wrap32 first, line.length⟩, .lineTooLong⟩] else []) ++
        longLineHints file limit (first + 1) lines := by
  by_cases h : limit < line.length
  · simp [longLineHints, h]
  · simp [longLineHints, h]

namespace Cursor

theorem lengthHint_text {c : Cursor Text} (hcol : c.column ≤ c.lineBytes.length)
    (hlen : c.source.rest.length < pow2 32) (limit : Nat) :
    c.lengthHint limit = if limit < c.lineBytes.length then
      [⟨⟨c.file, c.line, c.lineBytes.length⟩, .lineTooLong⟩] else [] := by
  have hfits : c.lineBytes.length ≤ c.source.rest.length :=
    (List.takeWhile_sublist Line.isText).length_le
  have hend : min (c.column + c.rest.length + 0) Position.maxColumn = c.lineBytes.length := by
    rw [rest, List.length_drop, Position.maxColumn]
    omega
  have hpos : c.lineEnd.position = ⟨c.file, c.line, c.lineBytes.length⟩ := by
    rw [position, positionAt, ← hend]
    rfl
  rw [lengthHint, report, hpos]

/-- The hints ahead are those that the lines of the text ahead earn by their lengths. -/
theorem hintsAhead_text (limit : Nat) (c : Cursor Text) (hcol : c.column ≤ c.lineBytes.length)
    (hlen : c.source.rest.length < pow2 32) {first : Nat} (hline : c.line = wrap32 first) :
    c.hintsAhead limit =
      longLineHints c.file limit first (splitLines c.source.rest).dropLast := by
  fun_induction hintsAhead limit c generalizing first with
  | case1 c hlast =>
    have heof : (Line.first c.source.rest).ending = .eof := beq_iff_eq.1 hlast
    rw [splitLines_of_eof heof]
    rfl
  | case2 c hlast ih =>
    have heof : (Line.first c.source.rest).ending ≠ .eof :=
      fun heof => hlast (beq_iff_eq.2 heof)
    have hnext : c.nextLine = ⟨c.file, c.source.nextLine, wrap32 (first + 1), 0⟩ := by
      rw [← wrap32_wrap32_add, ← hline]
      exact if_neg hlast
    have hrest : c.source.nextLine.rest =
        c.source.rest.drop (Text.lineLength c.source.rest) := rfl
    rw [hnext] at ih ⊢
    have hless : c.source.nextLine.rest.length < pow2 32 := by
      rw [hrest, List.length_drop]
      omega
    rw [lengthHint_text hcol hlen, ih (Nat.zero_le _) hless rfl, hrest, hline,
      Text.splitLines_of_ne_eof heof, List.dropLast_cons_of_ne_nil (splitLines_ne_nil _),
      longLineHints_cons]
    rfl

end Cursor

namespace Lexer

theorem lengthHints_ofText (file : FileId) (options : Options) (input : List UInt8)
    (hlen : input.length < pow2 32) (table : IdentTable) :
    lengthHints ((ofText file options input).diagnostics table) =
      longLineHints file options.maxLineLength (1 + options.lineOffset)
        (splitLines (Text.ofBytes input).rest).dropLast := by
  have hrest : (Text.ofBytes input).rest.length ≤ input.length := by
    unfold Text.ofBytes
    split
    · exact (List.drop_sublist 3 input).length_le
    · exact Nat.le_refl _
  rw [lengthHints_diagnostics]
  exact Cursor.hintsAhead_text _ _ (Nat.zero_le _) (Nat.lt_of_le_of_lt hrest hlen) rfl

/-- On any stream shorter than 2³² bytes and whatever the options, the hints about long lines that a
run to the end of the input gives are, in order, one for each line that a terminator ends and that
is longer than the limit: at the line's number in 32 bits and at the column where it ends. The byte
order mark and the terminators do not count, and the last line has no terminator. -/
theorem open?_lengthHints (file : FileId) (stream : ByteStream) (options : Options)
    (h : 0 < options.bufferSize) (hlen : stream.bytes.length < pow2 32) :
    ∃ l, open? file stream options = .ok l ∧ ∀ table,
      lengthHints (l.diagnostics table) =
        longLineHints file options.maxLineLength (1 + options.lineOffset)
          (splitLines (Text.ofBytes stream.bytes).rest).dropLast := by
  refine ⟨_, open?_eq_ok file stream options h, fun table => ?_⟩
  rw [diagnostics_ofStream]
  exact lengthHints_ofText file options stream.bytes hlen table

/-- A byte order mark, a string in triple quotes over a split terminator, a documentation comment
with a lone carriage return behind it, a block comment, a blank, a short line and a last line
without an end. -/
def longLines : ByteStream :=
  ⟨[.chunk 239 [187, 191, 34, 34, 34, 13], .interruption, .chunk 10 [97, 34, 34, 34, 10],
    .chunk 35 [35, 97, 98, 13, 35, 91, 99, 10, 93, 35, 32, 32, 10, 120, 10, 122, 122, 122, 122]],
    .closed⟩

/-- Only the short line and the last one get no hint. -/
theorem open?_lengthHints_longLines :
    0 < 1 ∧ longLines.bytes.length < pow2 32 ∧
      ∃ l, open? {} longLines { bufferSize := 1, maxLineLength := 2, lineOffset := 9 } = .ok l ∧
        ∀ table, lengthHints (l.diagnostics table) =
          [⟨⟨{}, 10, 3⟩, .lineTooLong⟩, ⟨⟨{}, 11, 4⟩, .lineTooLong⟩, ⟨⟨{}, 12, 4⟩, .lineTooLong⟩,
            ⟨⟨{}, 13, 3⟩, .lineTooLong⟩, ⟨⟨{}, 14, 4⟩, .lineTooLong⟩] := by
  obtain ⟨l, hopen, hhints⟩ := open?_lengthHints {} longLines
    { bufferSize := 1, maxLineLength := 2, lineOffset := 9 } (by decide) (by decide)
  refine ⟨by decide, by decide, l, hopen, fun table => (hhints table).trans ?_⟩
  decide

/-- A line longer than the default limit. -/
def overlongLine : ByteStream := .ofBytes (List.replicate 81 (Byte.ofChar 'x') ++ [Byte.lf])

/-- With the largest line offset the first line has the number 0. -/
theorem open?_overlongLine_hint :
    ∃ l, open? {} overlongLine { lineOffset := 4294967295 } = .ok l ∧
      lengthHints (l.diagnostics .fresh) = [⟨⟨{}, 0, 81⟩, .lineTooLong⟩] := by
  refine ⟨_, open?_eq_ok {} overlongLine { lineOffset := 4294967295 } (by decide), ?_⟩
  rw [diagnostics_ofStream, lengthHints_ofText {} _ overlongLine.bytes (by decide)]
  decide +kernel

end Lexer
end Lexeme
