import Lexeme.Proofs.Source.Restyled
import Lexeme.Proofs.Lexer.Resumption

/-!
# Terminator styles do not show

Sources that read alike differ in the bytes that end their lines, and these show in the arguments
of messages only. So replacing line feeds by carriage returns, with or without a line feed, leaves
the tokens of a run as they are, and the diagnostics up to such arguments.
-/

set_option autoImplicit false

namespace Lexeme

section Carry

variable {σ τ : Type} [LineSource σ] [LineSource τ] (f : LineSource.Likeness σ τ) (n : Nat)

namespace TokenRead

/-- The read without the arguments of messages. -/
def bare (read : TokenRead σ) : TokenRead σ :=
  { read with diagnostics := read.diagnostics.map Diagnostic.bare }

omit [LineSource σ] in
theorem bare_ofPiece {p p' : Piece} (h : p'.bare = p.bare) (c : Cursor σ) (table : IdentTable) :
    (ofPiece p' c table).bare = (ofPiece p c table).bare := by
  obtain ⟨htoken, hlength, hfindings⟩ := Piece.of_bare_eq h table
  have hlocated := c.map_bare_locate hfindings
  simp only [bare, ofPiece, htoken, hlength, hlocated]

/-- A token is read alike but for the arguments of messages, whatever ends its line. -/
theorem bare_scan_carry (options : Options) (c : Cursor σ) (table : IdentTable) :
    (scan options (c.carry f n) table).bare = ((scan options c table).carry f n).bare := by
  have hctx : context options (c.carry f n) =
      (context options c).withStop (c.carry f n).ending.byte := rfl
  have hopening : StringOpening.ofLine? (c.carry f n).before? (c.carry f n).rest =
      StringOpening.ofLine? c.before? c.rest := by
    rw [Cursor.before?_carry, Cursor.rest_carry]
  cases way c with
  | nil h =>
    rw [scan_of_nil options h, scan_of_nil options (by rwa [Cursor.rest_carry])]
    rfl
  | comment rest h =>
    rw [scan_of_hash options h, scan_of_hash options (by rwa [Cursor.rest_carry]),
      ofComment_carry]
  | triple o ho ht =>
    rw [scan_of_triple options ho ht,
      scan_of_triple options (hopening.trans ho) (by rwa [Cursor.rest_carry]), ofTriple_carry]
  | string o ho ht =>
    rw [scan_of_string options ho ht,
      scan_of_string options (hopening.trans ho) (by rwa [Cursor.rest_carry]), ← ofPiece_carry,
      Cursor.rest_carry, hctx]
    exact bare_ofPiece (Piece.bare_ofString _ _ _ _) _ table
  | bytes b rest h hb ho =>
    rw [scan_of_bytes options h hb ho,
      scan_of_bytes options (by rwa [Cursor.rest_carry]) hb (hopening.trans ho), ← ofPiece_carry,
      hctx]
    exact bare_ofPiece (Piece.bare_ofBytes _ _ _ _) _ table

end TokenRead

/-- What a caller compares of two steps on texts in different styles. -/
def LexerStep.bareView (step : LexerStep σ) : Token × List Diagnostic :=
  (step.token, step.diagnostics.map Diagnostic.bare)

namespace Lexer

/-- The lexer at the same place of a source that reads alike. -/
def Alike (l : Lexer σ) (l' : Lexer τ) : Prop := l' = l.carry f 0 l.lineIndent

theorem inStep_alike : InStep (Alike f) LexerStep.bareView LexerStep.bareView := by
  rintro l l' rfl table
  have hblank : (l.carry f 0 l.lineIndent).blank = l.blank.carry f 0 :=
    Blank.scan_carry f 0 l.options 0 l.cursor
  have hread := TokenRead.bare_scan_carry f 0 l.options l.blank.cursor table
  simp only [TokenRead.bare, TokenRead.carry, Diagnostic.map_below_zero, TokenRead.mk.injEq]
    at hread
  obtain ⟨htoken, htable, hcursor, hpending, hdiags⟩ := hread
  have hoptions : (l.carry f 0 l.lineIndent).options = l.options := rfl
  simp only [Alike, LexerStep.bareView, next, hblank, hoptions]
  simp only [Blank.carry, Diagnostic.map_below_zero, htoken, htable, hcursor, hpending,
    List.map_append, hdiags]
  exact ⟨rfl, trivial, trivial, rfl⟩

end Lexer
end Carry

namespace Lexer

/-- Runs that agree step by step, up to the arguments of messages, agree as a whole. -/
theorem tokens_of_bareView {σ τ : Type} [LineSource σ] [LineSource τ] {l : Lexer σ} {l' : Lexer τ}
    {table : IdentTable}
    (h : (l'.toEnd table).map LexerStep.bareView = (l.toEnd table).map LexerStep.bareView) :
    l'.tokens table = l.tokens table ∧
      (l'.diagnostics table).map Diagnostic.bare = (l.diagnostics table).map Diagnostic.bare := by
  constructor
  · have htokens := congrArg (List.map Prod.fst) h
    rwa [List.map_map, List.map_map] at htokens
  · have hdiags := congrArg (List.flatMap Prod.snd) h
    rw [List.flatMap_map, List.flatMap_map] at hdiags
    rw [diagnostics, diagnostics, List.map_flatMap, List.map_flatMap]
    exact hdiags

variable (file : FileId) (options : Options)

theorem tokens_restyled {s t : List UInt8} (h : Text.Restyled s t) (table : IdentTable) :
    (ofText file options t).tokens table = (ofText file options s).tokens table ∧
      ((ofText file options t).diagnostics table).map Diagnostic.bare =
        ((ofText file options s).diagnostics table).map Diagnostic.bare := by
  let pair : Lexer TextPair := ofSource file options (.ofBytes h)
  have hplain : ofText file options s = pair.map TextPair.toPlain := rfl
  have hrestyled : Alike TextPair.toRestyled pair (ofText file options t) := rfl
  have hrun := (inStep_alike TextPair.toRestyled).toEnd_eq hrestyled table
  rw [hplain, tokens_map, diagnostics_map]
  exact tokens_of_bareView hrun

/-- Two streams, one of them with line feeds and the other one with any of them replaced by another
terminator, give the same tokens, and the same diagnostics up to the arguments of messages. -/
theorem open?_restyled (h : 0 < options.bufferSize) (s t : ByteStream)
    (hst : Text.Restyled s.bytes t.bytes) :
    ∃ l l', open? file s options = .ok l ∧ open? file t options = .ok l' ∧
      ∀ table, l'.tokens table = l.tokens table ∧
        (l'.diagnostics table).map Diagnostic.bare = (l.diagnostics table).map Diagnostic.bare := by
  refine ⟨_, _, open?_eq_ok file s options h, open?_eq_ok file t options h, fun table => ?_⟩
  rw [tokens_ofStream, tokens_ofStream, diagnostics_ofStream, diagnostics_ofStream]
  exact tokens_restyled file options hst table

/-- A string in triple quotes, an escape that breaks off and an empty line, with line feeds. -/
def feedLines : ByteStream :=
  .ofBytes [34, 34, 34, 10, 97, 10, 34, 34, 34, 10, 39, 92, 120, 10, 10, 98]

/-- The same lines, ended in all three styles. -/
def mixedLines : ByteStream :=
  ⟨[.chunk 34 [34, 34, 13, 97, 13], .interruption, .chunk 10 [34, 34, 34, 13, 10, 39, 92, 120, 13],
    .chunk 13 [10, 98]], .closed⟩

theorem restyled_mixedLines : Text.Restyled feedLines.bytes mixedLines.bytes :=
  .text rfl <| .text rfl <| .text rfl <| .cr (by decide) <| .text rfl <| .crlf <|
    .text rfl <| .text rfl <| .text rfl <| .crlf <| .text rfl <| .text rfl <| .text rfl <|
    .cr (by decide) <| .crlf <| .text rfl .nil

theorem open?_restyled_mixedLines :
    0 < 1 ∧ Text.Restyled feedLines.bytes mixedLines.bytes ∧
      ∃ l l', open? {} feedLines (Options.withWindow {} 1) = .ok l ∧
        open? {} mixedLines (Options.withWindow {} 1) = .ok l' ∧
        ∀ table, l'.tokens table = l.tokens table ∧
          (l'.diagnostics table).map Diagnostic.bare =
            (l.diagnostics table).map Diagnostic.bare :=
  ⟨by decide, restyled_mixedLines, open?_restyled {} (Options.withWindow {} 1) (by decide)
    feedLines mixedLines restyled_mixedLines⟩

end Lexer
end Lexeme
