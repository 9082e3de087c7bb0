import Lexeme.Proofs.Lexer.WindowIndependence
import Lexeme.Proofs.Layout.Passage
import Lexeme.Proofs.Lexer.TokenRead

/-!
# Every call gets on

A call of `next` takes a byte of the input at least, unless it finds the end of the input. So a run
comes to the end, no byte but a separator is left out where there are no comments, and behind the
end nothing changes any more. The tables may be any: what a lexer reads does not depend on them.
-/

set_option autoImplicit false

namespace Lexeme

/-- Where no three quotes stand in a row, no string is triple-quoted. -/
theorem Cursor.Within.isTriple_eq_false {input : List UInt8} {c : Cursor Text}
    (h : c.Within input) (hnone : ¬[Byte.quote, Byte.quote, Byte.quote] <:+: input)
    (o : StringOpening) : o.isTriple c.rest = false := by
  rw [Bool.eq_false_iff]
  intro ht
  have hquotes := (List.isPrefixOf_iff_prefix.1 ht).isInfix.trans (List.drop_suffix _ _).isInfix
  have hline : c.rest <:+: input := by
    have hdrop := List.drop_suffix c.offset input
    rw [h.drop_offset] at hdrop
    exact (List.prefix_append _ _).isInfix.trans hdrop.isInfix
  exact hnone (hquotes.trans hline)

namespace TokenRead

variable {input : List UInt8} {c : Cursor Text}

/-- A token takes a byte at least, and stays within the input. -/
theorem advances_scan (options : Options) (table : IdentTable) (h : c.Within input)
    (hrest : c.rest ≠ []) : Cursor.Advances input c (scan options c table).cursor := by
  have hfirst := Cursor.reaches_advance h (List.length_pos_iff.2 hrest)
  exact ((route_scan options c table hrest).reaches hfirst.within).advances Nat.zero_lt_one

end TokenRead

namespace Lexer

/-! ## The end of the input -/

section End

variable {σ : Type} [LineSource σ]

/-- The lexer has told of the end of the input. -/
structure AtEnd (l : Lexer σ) : Prop where
  rest_eq : l.cursor.rest = []
  isLast : l.cursor.isLast = true
  pendingIndent_eq : l.pendingIndent = none

theorem kind_next_eq_eof_iff (l : Lexer σ) (table : IdentTable) :
    (l.next table).token.kind = .eof ↔ l.blank.cursor.rest = [] :=
  TokenRead.kind_scan_eq_eof_iff l.options l.blank.cursor table

theorem atEnd_next {l : Lexer σ} {table : IdentTable} (h : (l.next table).token.kind = .eof) :
    (l.next table).lexer.AtEnd := by
  have hrest := (kind_next_eq_eof_iff l table).1 h
  have hlast := Blank.isLast_of_rest_eq_nil l.options 0 l.cursor hrest
  have hread := TokenRead.scan_of_nil l.options hrest table
  rw [next, hread]
  exact ⟨hrest, hlast, rfl⟩

/-- There is nothing in front of the end of the input. -/
theorem AtEnd.blank_eq {l : Lexer σ} (h : l.AtEnd) : l.blank = ⟨l.cursor, 0, none, []⟩ := by
  have hrun : Blank.run l.options 0 l.cursor = ⟨0, 0, .lineEnd, []⟩ := by
    rw [Blank.run, h.rest_eq, BlankRun.scan]
  rw [blank, Blank.scan_of_isLast (by rw [hrun]) h.isLast, hrun]
  rfl

/-- Behind the end of the input nothing changes. -/
theorem AtEnd.next_eq {l : Lexer σ} (h : l.AtEnd) (table : IdentTable) :
    (l.next table).token.kind = .eof ∧ (l.next table).token.indent = some 0 ∧
      (l.next table).diagnostics = [] ∧ (l.next table).lexer = l := by
  have hread := TokenRead.scan_of_nil l.options h.rest_eq table
  rw [next, h.blank_eq, hread]
  refine ⟨rfl, rfl, rfl, ?_⟩
  obtain ⟨options, cursor, pendingIndent, lineIndent⟩ := l
  obtain rfl : pendingIndent = none := h.pendingIndent_eq
  rfl

end End

/-! ## Runs -/

section Reached

variable {σ τ : Type} [LineSource σ] [LineSource τ]

/-- Absolute offset of the next token. -/
def tokenOffset (l : Lexer σ) : Nat := l.blank.cursor.offset

theorem tokenOffset_map (f : LineSource.Hom σ τ) (l : Lexer σ) :
    (l.map f).tokenOffset = l.tokenOffset := by
  rw [tokenOffset, blank_map]
  exact Cursor.offset_map f l.blank.cursor

/-- From the first end of input on, every call finds the lexer as that one left it. -/
theorem reached_of_eof {l : Lexer σ} {tables : Nat → IdentTable} {j k : Nat} (hjk : j < k)
    (h : (l.turn tables j).token.kind = .eof) :
    l.reached tables k = (l.turn tables j).lexer := by
  induction k, hjk using Nat.le_induction with
  | base => rfl
  | succ k hjk ih =>
    have hend : (l.turn tables j).lexer.AtEnd := atEnd_next h
    obtain ⟨-, -, -, hsame⟩ := hend.next_eq (tables k)
    rw [reached, ih, hsame]

theorem turn_of_eof {l : Lexer σ} {tables : Nat → IdentTable} {j k : Nat} (hjk : j < k)
    (h : (l.turn tables j).token.kind = .eof) :
    (l.turn tables k).token.kind = .eof ∧ (l.turn tables k).token.indent = some 0 ∧
      (l.turn tables k).diagnostics = [] ∧ (l.turn tables k).lexer = (l.turn tables j).lexer := by
  have hend : (l.turn tables j).lexer.AtEnd := atEnd_next h
  rw [turn, reached_of_eof hjk h]
  exact hend.next_eq (tables k)

end Reached

section Text

variable {input : List UInt8} {l : Lexer Text}

theorem passes_blank (h : l.cursor.Within input) :
    Cursor.Passes input (Blank.Separates input) l.cursor l.blank.cursor :=
  Blank.passes_scan l.options 0 h

/-- The end of the input is found where the input ends, and nowhere else. -/
theorem next_eof_iff (h : l.cursor.Within input) (table : IdentTable) :
    (l.next table).token.kind = .eof ↔ l.tokenOffset = input.length := by
  have hblank := (passes_blank h).within
  rw [kind_next_eq_eof_iff]
  constructor
  · intro hrest
    exact hblank.offset_eq (Blank.isLast_of_rest_eq_nil l.options 0 l.cursor hrest) hrest
  · intro hoffset
    have hle := hblank.offset_le
    rw [tokenOffset] at hoffset
    exact List.length_eq_zero_iff.1 (by omega)

theorem offset_next_of_eof {table : IdentTable} (h : l.cursor.Within input)
    (heof : (l.next table).token.kind = .eof) :
    (l.next table).lexer.cursor.Within input ∧
      (l.next table).lexer.cursor.offset = input.length := by
  have hrest := (kind_next_eq_eof_iff l table).1 heof
  have hoffset := (next_eof_iff h table).1 heof
  have hcursor : (l.next table).lexer.cursor = l.blank.cursor := by
    rw [next, TokenRead.scan_of_nil l.options hrest table]
    rfl
  rw [hcursor]
  exact ⟨(passes_blank h).within, hoffset⟩

theorem advances_token {table : IdentTable} (h : l.cursor.Within input)
    (hne : (l.next table).token.kind ≠ .eof) :
    Cursor.Advances input l.blank.cursor (l.next table).lexer.cursor := by
  have hrest : l.blank.cursor.rest ≠ [] := fun hnil => hne ((kind_next_eq_eof_iff l table).2 hnil)
  exact TokenRead.advances_scan l.options table (passes_blank h).within hrest

/-- A token leads to a later place in the input. -/
theorem advances_next {table : IdentTable} (h : l.cursor.Within input)
    (hne : (l.next table).token.kind ≠ .eof) :
    Cursor.Advances input l.cursor (l.next table).lexer.cursor := by
  have htoken := advances_token h hne
  exact ⟨htoken.within, Nat.lt_of_le_of_lt (passes_blank h).le htoken.lt⟩

theorem within_reached (h : l.cursor.Within input) (tables : Nat → IdentTable) (k : Nat) :
    (l.reached tables k).cursor.Within input := by
  induction k with
  | zero => exact h
  | succ k ih =>
    by_cases heof : (l.turn tables k).token.kind = .eof
    · exact (offset_next_of_eof ih heof).1
    · exact (advances_next ih heof).within

end Text

theorem within_ofText (file : FileId) (options : Options) (input : List UInt8) :
    (ofText file options input).cursor.Within input := by
  have hsource : Text.ofBytes input = Text.within input (Text.ofBytes input).offset := by
    unfold Text.ofBytes
    split <;> rfl
  have hle : (Text.ofBytes input).offset ≤ input.length := by
    unfold Text.ofBytes
    split
    · rename_i hmark
      exact (List.isPrefixOf_iff_prefix.1 hmark).length_le
    · exact Nat.zero_le _
  exact ⟨hsource, hle, Nat.zero_le _⟩

section Sides

variable (file : FileId) (stream : ByteStream) (options : Options) (h : 0 < options.bufferSize)
  (tables : Nat → IdentTable) (k : Nat)

theorem token_turn_ofStream :
    (((ofStream file stream options h).map SoundReader.toReader).turn tables k).token =
      ((ofText file options stream.bytes).turn tables k).token := by
  rw [← map_toText_ofStream file stream options h, turn_map, turn_map]
  rfl

theorem diagnostics_turn_ofStream :
    (((ofStream file stream options h).map SoundReader.toReader).turn tables k).diagnostics =
      ((ofText file options stream.bytes).turn tables k).diagnostics := by
  rw [← map_toText_ofStream file stream options h, turn_map, turn_map]
  rfl

theorem offset_reached_ofStream :
    (((ofStream file stream options h).map SoundReader.toReader).reached tables k).cursor.offset =
      ((ofText file options stream.bytes).reached tables k).cursor.offset := by
  rw [← map_toText_ofStream file stream options h, reached_map, reached_map]
  exact (Cursor.offset_map _ _).trans (Cursor.offset_map _ _).symm

theorem tokenOffset_reached_ofStream :
    (((ofStream file stream options h).map SoundReader.toReader).reached tables k).tokenOffset =
      ((ofText file options stream.bytes).reached tables k).tokenOffset := by
  rw [← map_toText_ofStream file stream options h, reached_map, reached_map, tokenOffset_map,
    tokenOffset_map]

end Sides

end Lexer
end Lexeme
