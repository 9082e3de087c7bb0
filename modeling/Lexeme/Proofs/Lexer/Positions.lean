import Lexeme.Proofs.Source.Location
import Lexeme.Proofs.Lexer.Progress

/-!
# Positions are exact

The line and the column of a token are those of the offset it starts at, and the position that a
lexer tells is that of its cursor's offset: counted in the bytes of the input, without looking at
what the lexer did on its way. Strings in triple quotes and comments are the only tokens behind
which the cursor stands on another line.
-/

set_option autoImplicit false

namespace Lexeme

namespace Lexer

section Routes

variable {σ : Type} [LineSource σ] (l : Lexer σ) (table : IdentTable)

theorem route_blank : Cursor.Route l.cursor l.blank.cursor :=
  Blank.route_scan l.options 0 l.cursor

theorem route_token : Cursor.Route l.blank.cursor (l.next table).lexer.cursor := by
  by_cases hrest : l.blank.cursor.rest = []
  · have hread := TokenRead.scan_of_nil l.options hrest table
    rw [next, hread]
    exact .refl _
  · have hfirst := Cursor.route_advance (List.length_pos_iff.2 hrest)
    exact hfirst.trans (TokenRead.route_scan l.options _ table hrest)

theorem route_reached (tables : Nat → IdentTable) (k : Nat) :
    Cursor.Route l.cursor (l.reached tables k).cursor := by
  induction k with
  | zero => exact .refl _
  | succ k ih => exact (ih.trans (route_blank _)).trans (route_token _ (tables k))

end Routes

/-- The positions of a run on an input, the first line having the number `first`. -/
structure Positioned {σ : Type} [LineSource σ] (file : FileId) (first : Nat) (input : List UInt8)
    (l : Lexer σ) (tables : Nat → IdentTable) : Prop where
  /-- A token has the position of the offset it starts at. -/
  token_eq (k : Nat) :
    ⟨file, (l.turn tables k).token.line, (l.turn tables k).token.column⟩ =
      Text.positionAt file first input (l.reached tables k).tokenOffset
  /-- At the start and after every call, the lexer tells the position of the cursor's offset. -/
  cursor_eq (k : Nat) :
    (l.reached tables k).position =
      Text.positionAt file first input (l.reached tables k).cursor.offset
  sameLine (k : Nat) : (l.turn tables k).token.kind.isMultiline = false →
    (l.reached tables (k + 1)).position.line = (l.turn tables k).token.line

theorem positioned_of_located {input : List UInt8} {first : Nat} {l : Lexer Text}
    (h : l.cursor.Located input first) (hlen : input.length < pow2 32)
    (tables : Nat → IdentTable) : l.Positioned l.cursor.file first input tables where
  token_eq k := by
    have hroute := (route_reached l tables k).trans (route_blank _)
    have hpos := (hroute.located h).position_eq hlen
    rw [hroute.file_eq] at hpos
    rw [tokenOffset, ← hpos, ← hroute.file_eq]
    rfl
  cursor_eq k := by
    have hroute := route_reached l tables k
    have hpos := (hroute.located h).position_eq hlen
    rw [hroute.file_eq] at hpos
    exact hpos
  sameLine k hkind := TokenRead.line_scan_eq _ _ (tables k) hkind

theorem located_ofText (file : FileId) (options : Options) (input : List UInt8) :
    (ofText file options input).cursor.Located input (1 + options.lineOffset) := by
  obtain ⟨hbreaks, hstart⟩ := Text.location_ofBytes input
  refine ⟨within_ofText file options input, ?_, hstart⟩
  change wrap32 (1 + options.lineOffset) =
    wrap32 (1 + options.lineOffset + Text.breaksBefore input (Text.ofBytes input).offset)
  rw [hbreaks, Nat.add_zero]

theorem position_reached_ofStream (file : FileId) (stream : ByteStream) (options : Options)
    (h : 0 < options.bufferSize) (tables : Nat → IdentTable) (k : Nat) :
    (((ofStream file stream options h).map SoundReader.toReader).reached tables k).position =
      ((ofText file options stream.bytes).reached tables k).position := by
  rw [← map_toText_ofStream file stream options h, reached_map, reached_map]
  rfl

/-- On any stream shorter than 2³² bytes, a run tells the positions that the bytes of the stream
have: one more line for each terminator, and columns from the line's start, which for the first
line is behind the byte order mark. -/
theorem open?_positioned (file : FileId) (stream : ByteStream) (options : Options)
    (h : 0 < options.bufferSize) (hlen : stream.bytes.length < pow2 32) :
    ∃ l, open? file stream options = .ok l ∧
      ∀ tables, l.Positioned file (1 + options.lineOffset) stream.bytes tables := by
  refine ⟨_, open?_eq_ok file stream options h, fun tables => ?_⟩
  have htext := positioned_of_located (located_ofText file options stream.bytes) hlen tables
  constructor
  · intro k
    rw [token_turn_ofStream, tokenOffset_reached_ofStream]
    exact htext.token_eq k
  · intro k
    rw [position_reached_ofStream, offset_reached_ofStream]
    exact htext.cursor_eq k
  · intro k hkind
    rw [token_turn_ofStream] at hkind
    rw [token_turn_ofStream, position_reached_ofStream]
    exact htext.sameLine k hkind

/-- A byte order mark, a string in triple quotes over a split terminator, and a lone carriage
return. -/
def markedLines : ByteStream :=
  ⟨[.chunk 239 [187, 191, 34, 34, 34, 13], .interruption, .chunk 10 [34, 34, 34, 97],
    .chunk 13 [32, 98]], .failed [99]⟩

theorem open?_positioned_markedLines :
    0 < 1 ∧ markedLines.bytes.length < pow2 32 ∧
      ∃ l, open? {} markedLines (Options.withWindow {} 1) = .ok l ∧
        ∀ tables, l.Positioned {} 1
          [239, 187, 191, 34, 34, 34, 13, 10, 34, 34, 34, 97, 13, 32, 98] tables :=
  ⟨by decide, by decide, open?_positioned {} markedLines (Options.withWindow {} 1) (by decide)
    (by decide)⟩

end Lexer
end Lexeme
