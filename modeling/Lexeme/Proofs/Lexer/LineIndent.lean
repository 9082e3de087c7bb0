import Lexeme.Proofs.Layout.Indented
import Lexeme.Proofs.Lexer.Positions
import Lexeme.Proofs.Literal.TripleContents

/-!
# Indentation of tokens

Behind a token its line is not indented any more, since the token starts with a byte that is no
space; a string in triple quotes ends behind a quote. So without comments every call starts from a
cursor behind which nothing of the line is indented, and the token gets the indentation that the
bytes have at its place. The lexer tells the latest of these.
-/

set_option autoImplicit false

namespace Lexeme

/-! ## Behind tokens -/

namespace Cursor

variable {input : List UInt8} {first : Nat} {c : Cursor Text}

/-- The first line has no indentation. -/
theorem Located.unindented_of_first (h : c.Located input first)
    (hfirst : Text.breaksBefore input c.source.offset = 0) : c.Unindented input := by
  intro n k hn hindented
  have hbreaks := (h.advance hn).location_eq.1
  have hbehind := hindented.behind
  rw [hbreaks, advance_source, hfirst] at hbehind
  exact Nat.lt_irrefl 0 hbehind

/-- Behind the first byte of a token nothing of its line is indented. -/
theorem Located.unindented_advance (h : c.Located input first) {b : UInt8} {rest : List UInt8}
    (hrest : c.rest = b :: rest) (hb : b ≠ Byte.space) {n : Nat} (hpos : 0 < n)
    (hn : n ≤ c.rest.length) : (c.advance n).Unindented input := by
  have hbyte : input[c.offset]? = some b := by
    have hfirst := h.within.getElem?_rest (i := 0) (by omega)
    rwa [hrest] at hfirst
  have hoffset := c.offset_advance n
  exact (h.advance hn).unindented_of_passed (i := c.offset) (Nat.le_add_right _ _) (by omega) hbyte
    hb

end Cursor

namespace TripleString

variable {input : List UInt8} {first : Nat} {c : Cursor Text}

theorem unindented_contents (limit : Nat) (h : c.Located input first) :
    (contents limit c).cursor.Unindented input := by
  fun_induction contents limit c with
  | case1 c l hclosed =>
    obtain ⟨n, hcloses, -, hscan⟩ | ⟨-, hscan⟩ := TripleLine.scan_cases c.rest
    · obtain ⟨more, hmore, -⟩ := TripleLine.closes_iff.1 hcloses
      have hlen := congrArg List.length hmore
      rw [List.length_drop, List.length_cons] at hlen
      have hquote : (c.advance n).rest = Byte.quote :: Byte.quote :: Byte.quote :: more := by
        rw [Cursor.rest_advance, hmore]
      have hafter := (h.advance (n := n) (by omega)).unindented_advance (n := 3) hquote (by decide)
        (by decide) (by rw [hquote]; exact Nat.le_add_left 3 _)
      have hlength : l.length = n + 3 := congrArg TripleLine.length hscan
      rw [hlength, ← Cursor.advance_advance]
      exact hafter
    · have hopen : l.closed = false := congrArg TripleLine.closed hscan
      rw [hopen] at hclosed
      cases hclosed
  | case2 c l hopen hlast =>
    have hend : c.lineEnd.rest = [] := c.rest_lineEnd
    have hlineEnd := h.advance (Nat.le_refl c.rest.length)
    refine hlineEnd.unindented_of_head? ?_ ?_
    · change c.lineEnd.rest.head? ≠ _
      rw [hend]
      exact (Option.some_ne_none _).symm
    · change Comment.isVisible c.lineEnd.rest = false
      rw [hend]
      rfl
  | case3 c l hopen hlast more ih => exact ih h.nextLine

theorem unindented_scan (limit : Nat) (h : c.Located input first) :
    (scan limit c).cursor.Unindented input := by
  unfold scan
  split
  · exact unindented_contents limit h.nextLine
  · exact unindented_contents limit h

end TripleString

theorem TokenRead.unindented_scan {input : List UInt8} (hhash : Byte.hash ∉ input) {first : Nat}
    {c : Cursor Text} (h : c.Located input first) (options : Options) (table : IdentTable)
    {b : UInt8} {rest : List UInt8} (hrest : c.rest = b :: rest) (hb : b ≠ Byte.space) :
    (scan options c table).cursor.Unindented input := by
  cases way c with
  | nil hnil =>
    rw [hnil] at hrest
    cases hrest
  | comment rest' hcomment =>
    exact absurd (h.within.mem_of_mem_rest (hcomment ▸ List.mem_cons_self)) hhash
  | triple o ho ht =>
    have hquotes := StringOpening.lead_add_three_le ht (StringOpening.lead_lt ho)
    rw [scan_of_triple options ho ht]
    exact TripleString.unindented_scan options.maxLineLength (h.advance hquotes)
  | string o ho ht =>
    have hfits := Piece.fits_ofString (context options c) ho
    rw [scan_of_string options ho ht]
    exact h.unindented_advance hrest hb hfits.pos hfits.le
  | bytes b' rest' hbytes hb' ho =>
    have hfits := Piece.fits_ofBytes (context options c) b' rest'
    rw [← hbytes] at hfits
    rw [scan_of_bytes options hbytes hb' ho]
    exact h.unindented_advance hrest hb hfits.pos hfits.le

/-! ## Runs -/

/-- The indentation a token has, the end of the input having none. -/
def Token.indentation? (t : Token) : Option Nat := if t.kind = .eof then none else t.indent

/-- The indentation of the latest token that has one. -/
def Token.latestIndent (ts : List Token) : Nat := (ts.filterMap indentation?).getLast?.getD 0

theorem Token.latestIndent_append (ts : List Token) (t : Token) :
    latestIndent (ts ++ [t]) = t.indentation?.getD (latestIndent ts) := by
  rw [latestIndent, List.filterMap_append]
  cases h : t.indentation? <;> simp [latestIndent, h]

namespace Lexer

section Next

variable {σ : Type} [LineSource σ] (l : Lexer σ) (table : IdentTable)

/-- The indentation of the next token, if it starts a line. -/
def nextIndent : Option Nat := l.blank.indent <|> l.pendingIndent

theorem nextIndent_of_pendingIndent {l : Lexer σ} (h : l.pendingIndent = none) :
    l.nextIndent = l.blank.indent := by
  rw [nextIndent, h]
  cases l.blank.indent with
  | none => rfl
  | some k => rfl

theorem indent_next : (l.next table).token.indent =
    if (l.next table).token.kind = .eof then some 0 else l.nextIndent := rfl

theorem lineIndent_next : (l.next table).lexer.lineIndent = l.nextIndent.getD l.lineIndent := rfl

/-- At the end of the input the blanks find no indentation. -/
theorem indent_blank_of_eof {l : Lexer σ} {table : IdentTable}
    (h : (l.next table).token.kind = .eof) : l.blank.indent = none := by
  by_contra hindent
  have hstart := (Blank.startsToken_of_indent l.options 0 l.cursor hindent).1
  change Indentation.startsToken l.options l.blank.cursor.rest = true at hstart
  rw [(kind_next_eq_eof_iff l table).1 h] at hstart
  cases hstart

end Next

/-- The lexer is on a line of the input, nothing ahead on that line is indented, and no indentation
is kept for a token to come. -/
structure Unindented (input : List UInt8) (first : Nat) (l : Lexer Text) : Prop where
  located : l.cursor.Located input first
  unindented : l.cursor.Unindented input
  pendingIndent_eq : l.pendingIndent = none

section Text

variable {input : List UInt8} {first : Nat} {l : Lexer Text}

theorem unindented_ofText (file : FileId) (options : Options) (input : List UInt8) :
    (ofText file options input).Unindented input (1 + options.lineOffset) := by
  have hlocated := located_ofText file options input
  exact ⟨hlocated, hlocated.unindented_of_first (Text.location_ofBytes input).1, rfl⟩

variable (hhash : Byte.hash ∉ input) (h : l.Unindented input first) (table : IdentTable)

include h

theorem Unindented.blank_located : l.blank.cursor.Located input first :=
  (route_blank l).located h.located

/-- A call keeps the indentation that the lexer tells, unless the token has one. -/
theorem Unindented.lineIndent_next :
    (l.next table).lexer.lineIndent = (l.next table).token.indentation?.getD l.lineIndent := by
  rw [Lexer.lineIndent_next, Token.indentation?, indent_next]
  have hindent := nextIndent_of_pendingIndent h.pendingIndent_eq
  split
  · rename_i heof
    rw [hindent, indent_blank_of_eof heof]
  · rfl

include hhash

theorem Unindented.indent_blank_iff (i : Nat) :
    l.blank.indent = some i ↔ ∃ k, Text.Indented input l.tokenOffset k ∧ i = wrap32 k :=
  Blank.indent_scan_iff hhash l.options 0 h.located h.unindented i

theorem Unindented.pendingIndent_next : (l.next table).lexer.pendingIndent = none := by
  change (TokenRead.scan l.options l.blank.cursor table).pendingIndent = none
  cases TokenRead.way l.blank.cursor with
  | nil hnil => rw [TokenRead.scan_of_nil l.options hnil]; rfl
  | comment rest hcomment =>
    exact absurd (h.blank_located.within.mem_of_mem_rest (hcomment ▸ List.mem_cons_self)) hhash
  | triple o ho ht => rw [TokenRead.scan_of_triple l.options ho ht]; rfl
  | string o ho ht => rw [TokenRead.scan_of_string l.options ho ht]; rfl
  | bytes b rest hbytes hb ho => rw [TokenRead.scan_of_bytes l.options hbytes hb ho]; rfl

theorem Unindented.next : (l.next table).lexer.Unindented input first := by
  refine ⟨(route_token l table).located h.blank_located, ?_, h.pendingIndent_next hhash table⟩
  have hlocated := h.blank_located
  cases hrest : l.blank.cursor.rest with
  | nil =>
    have hread := TokenRead.scan_of_nil l.options hrest table
    have hcursor : (l.next table).lexer.cursor = l.blank.cursor := by
      rw [Lexer.next, hread]
      rfl
    rw [hcursor]
    exact hlocated.unindented_of_head? (by simp [hrest]) (by rw [hrest]; rfl)
  | cons b rest =>
    have hblank := Blank.isBlank_head_scan l.options 0 l.cursor hrest
    have hb : b ≠ Byte.space := by
      rintro rfl
      cases hblank
    exact TokenRead.unindented_scan hhash hlocated l.options table hrest hb

theorem Unindented.reached (tables : Nat → IdentTable) (k : Nat) :
    (l.reached tables k).Unindented input first := by
  induction k with
  | zero => exact h
  | succ k ih => exact ih.next hhash (tables k)

theorem Unindented.indent_next_iff (hne : (l.next table).token.kind ≠ .eof) (i : Nat) :
    (l.next table).token.indent = some i ↔
      ∃ k, Text.Indented input l.tokenOffset k ∧ i = wrap32 k := by
  rw [indent_next, if_neg hne, nextIndent_of_pendingIndent h.pendingIndent_eq]
  exact h.indent_blank_iff hhash i

theorem Unindented.lineIndent_reached (hstart : l.lineIndent = 0) (tables : Nat → IdentTable)
    (k : Nat) :
    (l.reached tables k).lineIndent =
      Token.latestIndent ((List.range k).map fun j => (l.turn tables j).token) := by
  induction k with
  | zero => exact hstart
  | succ k ih =>
    rw [List.range_succ, List.map_append, List.map_cons, List.map_nil, Token.latestIndent_append,
      ← ih]
    exact (h.reached hhash tables k).lineIndent_next (tables k)

end Text

/-- What a run tells of the indentation of lines. -/
structure Indents {σ : Type} [LineSource σ] (input : List UInt8) (l : Lexer σ)
    (tables : Nat → IdentTable) : Prop where
  /-- A token has the indentation that the bytes have where it starts, or none. -/
  indent_iff (k i : Nat) : (l.turn tables k).token.kind ≠ .eof →
    ((l.turn tables k).token.indent = some i ↔
      Text.Indented input (l.reached tables k).tokenOffset i)
  /-- An indentation is the token's column, and no other spaces are in front. -/
  column_eq (k i : Nat) : (l.turn tables k).token.kind ≠ .eof →
    (l.turn tables k).token.indent = some i →
    (l.turn tables k).token.column = i ∧ (l.turn tables k).token.spaceBefore = 0
  lineIndent_eq (k : Nat) : (l.reached tables k).lineIndent =
    Token.latestIndent ((List.range k).map fun j => (l.turn tables j).token)

theorem indents_of_unindented {input : List UInt8} {first : Nat} {l : Lexer Text}
    (hhash : Byte.hash ∉ input) (h : l.Unindented input first) (hstart : l.lineIndent = 0)
    (hlen : input.length < pow2 32) (tables : Nat → IdentTable) : l.Indents input tables where
  indent_iff k i hne :=
    ((h.reached hhash tables k).indent_next_iff hhash (tables k) hne i).trans
      (Text.exists_indented_iff hlen)
  column_eq k i hne hindent := by
    have hk := h.reached hhash tables k
    have hspaces := (hk.indent_next_iff hhash (tables k) hne i).1 hindent
    have hindented := (Text.exists_indented_iff hlen).1 hspaces
    have hblank := (hk.indent_blank_iff hhash i).2 hspaces
    have hposition := (positioned_of_located h.located hlen tables).token_eq k
    have hcolumn : (l.turn tables k).token.column = (l.reached tables k).tokenOffset -
        Text.lineStart input (l.reached tables k).tokenOffset :=
      congrArg Position.column hposition
    have hstart := hindented.start_add
    refine ⟨by omega, ?_⟩
    exact (Blank.startsToken_of_indent _ 0 _ fun hnone => by
      rw [show (l.reached tables k).blank.indent = none from hnone] at hblank
      cases hblank).2
  lineIndent_eq k := h.lineIndent_reached hhash hstart tables k

theorem lineIndent_reached_ofStream (file : FileId) (stream : ByteStream) (options : Options)
    (h : 0 < options.bufferSize) (tables : Nat → IdentTable) (k : Nat) :
    (((ofStream file stream options h).map SoundReader.toReader).reached tables k).lineIndent =
      ((ofText file options stream.bytes).reached tables k).lineIndent := by
  rw [← map_toText_ofStream file stream options h, reached_map, reached_map]
  rfl

/-- On any stream without comments that is shorter than 2³² bytes, a token is indented exactly
where the bytes of the stream are, by as many spaces as its column tells, and after every call the
lexer tells the indentation of the latest token that had one. -/
theorem open?_indents (file : FileId) (stream : ByteStream) (options : Options)
    (h : 0 < options.bufferSize) (hlen : stream.bytes.length < pow2 32)
    (hhash : Byte.hash ∉ stream.bytes) :
    ∃ l, open? file stream options = .ok l ∧ ∀ tables, l.Indents stream.bytes tables := by
  refine ⟨_, open?_eq_ok file stream options h, fun tables => ?_⟩
  have htext := indents_of_unindented hhash (unindented_ofText file options stream.bytes) rfl hlen
    tables
  constructor
  · intro k i hne
    rw [token_turn_ofStream] at hne
    rw [token_turn_ofStream, tokenOffset_reached_ofStream]
    exact htext.indent_iff k i hne
  · intro k i hne
    rw [token_turn_ofStream] at hne
    rw [token_turn_ofStream]
    exact htext.column_eq k i hne
  · intro k
    have htoken : (fun j => (((ofStream file stream options h).map SoundReader.toReader).turn
        tables j).token) = fun j => ((ofText file options stream.bytes).turn tables j).token :=
      funext fun j => token_turn_ofStream file stream options h tables j
    rw [lineIndent_reached_ofStream, htoken]
    exact htext.lineIndent_eq k

/-- Indented lines, one with a tab in its indentation, blank lines with and without spaces, and a
byte below the space. -/
def steppedLines : ByteStream :=
  ⟨[.chunk 32 [97, 13], .interruption, .chunk 10 [32, 32, 98, 32, 99, 13, 32, 10],
    .chunk 32 [9, 100, 10, 32, 1, 101, 10, 32, 102]], .closed⟩

theorem open?_indents_steppedLines :
    0 < 1 ∧ steppedLines.bytes.length < pow2 32 ∧ Byte.hash ∉ steppedLines.bytes ∧
      ∃ l, open? {} steppedLines (Options.withWindow {} 1) = .ok l ∧
        ∀ tables, l.Indents
          [32, 97, 13, 10, 32, 32, 98, 32, 99, 13, 32, 10, 32, 9, 100, 10, 32, 1, 101, 10, 32, 102]
          tables :=
  ⟨by decide, by decide, by decide, open?_indents {} steppedLines (Options.withWindow {} 1)
    (by decide) (by decide) (by decide)⟩

end Lexer
end Lexeme
