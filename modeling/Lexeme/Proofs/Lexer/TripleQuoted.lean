import Lexeme.Proofs.Literal.PieceFindings
import Lexeme.Proofs.Literal.TripleContents
import Lexeme.Proofs.Lexer.PlainString

/-!
# Triple-quoted strings

A triple-quoted string ends at the first three quotes behind its opening that no fourth one follows.
If there are none, it takes the rest of the input, and that is reported where the string starts. So
quotes at the end of the contents are read back, and whatever terminators are in between are read as
line feeds.
-/

set_option autoImplicit false

namespace Lexeme

/-- The tokens in triple quotes. -/
def Kind.isTriple : Kind → Bool
  | .strLit .triple | .strLit .generalizedTriple => true
  | _ => false

namespace Text

/-- Where the opening quotes end of a string in triple quotes that starts at an offset. A raw one
has a letter in front of them. -/
def openingEnd (input : List UInt8) (o : Nat) : Nat :=
  if input[o]? = some Byte.quote then o + 3 else o + 4

/-- A string in triple quotes at an offset, its contents on lines of their own. No symbol stands in
front of it and no fourth quote behind it. Where three quotes in a row start in the contents, there
are only quotes to the contents' end. -/
structure TripleQuoted (input : List UInt8) (o : Nat) (blanks bytes : List UInt8) : Prop where
  before : (before? input o).any Byte.isSymbol = false
  isBlank : ∀ b ∈ blanks, TripleString.isBlank b = true
  quotes_last : ∀ i, [Byte.quote, Byte.quote, Byte.quote] <+: bytes.drop i →
    ∀ b ∈ bytes.drop i, b = Byte.quote
  exists_more : ∃ more, input.drop o = Byte.quote :: Byte.quote :: Byte.quote ::
      (blanks ++ Byte.lf :: (bytes ++ Byte.quote :: Byte.quote :: Byte.quote :: more)) ∧
    more.head? ≠ some Byte.quote

namespace TripleQuoted

variable {input blanks bytes text : List UInt8} {o stop : Nat} {closed : Bool}

theorem exists_line (h : TripleQuoted input o blanks bytes) :
    ∃ rest, (Line.first (input.drop o)).bytes =
      Byte.quote :: Byte.quote :: Byte.quote :: rest := by
  obtain ⟨more, hdrop, -⟩ := h.exists_more
  have hquotes : ∀ b ∈ [Byte.quote, Byte.quote, Byte.quote], Line.isText b = true :=
    List.all_eq_true.1 (by decide)
  rw [hdrop]
  exact ⟨_, Line.bytes_first_append hquotes _⟩

theorem openingEnd_eq (h : TripleQuoted input o blanks bytes) : openingEnd input o = o + 3 := by
  obtain ⟨more, hdrop, -⟩ := h.exists_more
  have hquote : (input.drop o).head? = input[o]? := List.head?_drop
  rw [hdrop] at hquote
  exact if_pos hquote.symm

/-- The contents start on the line behind the opening quotes, and they end at the quotes that stand
behind them. -/
theorem eq_of_ends (h : TripleQuoted input o blanks bytes)
    (hends : TripleEnds input (contentsStart input (o + 3)) text closed stop) :
    text = unify bytes ∧ closed = true ∧ stop = o + blanks.length + bytes.length + 7 := by
  obtain ⟨more, hdrop, hmore⟩ := h.exists_more
  have hblanks : ∀ b ∈ blanks, Line.isText b = true := fun b hb =>
    Line.isText_of_class (p := TripleString.isBlank) rfl rfl (h.isBlank b hb)
  have hbreak : Byte.isBreak Byte.lf = true := rfl
  have hopening := congrArg (List.drop 3) hdrop
  rw [List.drop_drop] at hopening
  change input.drop (o + 3) = blanks ++ Byte.lf :: _ at hopening
  have hstart : contentsStart input (o + 3) = o + 3 + (blanks.length + 1) := by
    rw [contentsStart, lineLength, hopening, Line.first_append_cons hblanks hbreak,
      Line.afterText_append_cons hblanks hbreak]
    exact if_pos ⟨List.all_eq_true.2 h.isBlank, LineEnd.noConfusion⟩
  have hcontents : input.drop (o + 3 + (blanks.length + 1)) =
      bytes ++ Byte.quote :: Byte.quote :: Byte.quote :: more := by
    rw [← List.drop_drop, hopening, List.drop_length_add_append]
    rfl
  have hcloses : ClosesAt input (o + 3 + (blanks.length + 1) + bytes.length) := by
    refine ⟨more, ?_, hmore⟩
    rw [← List.drop_drop, hcontents, List.drop_left]
  have hfirst : ∀ i < bytes.length, ¬ClosesAt input (o + 3 + (blanks.length + 1) + i) := by
    intro i hi
    rw [closesAt_iff, ← List.drop_drop, hcontents,
      List.drop_append_of_le_length (Nat.le_of_lt hi),
      TripleLine.closes_append_quotes hi (h.quotes_last i)]
    exact Bool.false_ne_true
  rw [hstart] at hends
  obtain ⟨htext, hclosed, hstop⟩ := hends.eq_of_closesAt hcloses hfirst
  rw [hcontents, List.take_left] at htext
  exact ⟨htext, hclosed, by omega⟩

end TripleQuoted
end Text

/-! ## Reading a string -/

theorem StringOpening.isTriple_tripleForm (o : StringOpening) :
    (Kind.strLit o.tripleForm).isTriple = true := by
  unfold tripleForm
  split
  · rfl
  · rfl

/-- The opening quotes end where the bytes tell. -/
theorem Cursor.Within.openingEnd_eq {input : List UInt8} {c : Cursor Text} (h : c.Within input)
    {o : StringOpening} (ho : StringOpening.ofLine? c.before? c.rest = some o) :
    Text.openingEnd input c.offset = (c.advance (o.lead + 3)).offset := by
  have hline := h.first_eq
  rw [offset_advance, Text.openingEnd]
  obtain ⟨rest, hrest, rfl⟩ | ⟨b, rest, hrest, hb, rfl⟩ := StringOpening.ofLine?_cases ho
  · rw [hrest] at hline
    exact if_pos (Line.first_eq_cons hline).1
  · rw [hrest] at hline
    rw [(Line.first_eq_cons hline).1]
    refine if_neg fun hquote => ?_
    rw [Option.some.inj hquote] at hb
    exact absurd hb (by decide)

namespace TokenRead

variable {σ : Type} [LineSource σ] (options : Options) (c : Cursor σ) (table : IdentTable)

theorem scan_of_isTriple (h : (scan options c table).token.kind.isTriple = true) :
    ∃ o, StringOpening.ofLine? c.before? c.rest = some o ∧ o.isTriple c.rest = true ∧
      scan options c table = ofTriple options o c table := by
  obtain ⟨form, hform⟩ : ∃ form, (scan options c table).token.kind = .strLit form := by
    unfold Kind.isTriple at h
    split at h
    · exact ⟨_, ‹_›⟩
    · exact ⟨_, ‹_›⟩
    · cases h
  obtain ⟨o, ho, heq⟩ := exists_opening options c table hform
  have ht : o.isTriple c.rest = true := by
    by_contra ht
    rw [if_neg ht] at heq
    rw [hform, heq] at h
    obtain ⟨rest, -, rfl⟩ | ⟨b, rest, -, -, rfl⟩ := StringOpening.ofLine?_cases ho
    · dsimp only at h
      split at h <;> cases h
    · cases h
  exact ⟨o, ho, ht, scan_of_triple options ho ht table⟩

/-- Tokens of other kinds do not miss closing quotes. -/
theorem about_scan_of_not_isTriple (h : (scan options c table).token.kind.isTriple = false) :
    Diagnostic.about .unterminatedTripleString (scan options c table).diagnostics = [] := by
  cases way c with
  | nil hrest => rw [scan_of_nil options hrest]; rfl
  | comment rest hrest =>
    rw [scan_of_hash options hrest]
    exact Diagnostic.about_eq_nil_of_class (p := Message.isLayout) rfl
      (Comment.isLayout_scan options.maxLineLength c)
  | triple o ho ht =>
    rw [scan_of_triple options ho ht] at h
    change (Kind.strLit o.tripleForm).isTriple = false at h
    rw [o.isTriple_tripleForm] at h
    cases h
  | string o ho ht =>
    rw [scan_of_string options ho ht]
    exact Diagnostic.about_eq_nil_of_class (p := Message.isPiece) rfl
      (List.forall_mem_map.2 (Piece.aboutPiece_ofString _ o c.rest))
  | bytes b rest hrest hb ho =>
    rw [scan_of_bytes options hrest hb ho]
    exact Diagnostic.about_eq_nil_of_class (p := Message.isPiece) rfl
      (List.forall_mem_map.2 (Piece.aboutPiece_ofBytes _ b rest))

end TokenRead

namespace Lexer

section Text

variable {input blanks bytes : List UInt8} {first o : Nat} {l : Lexer Text}

/-- A call that reads a string in triple quotes takes it to where the bytes tell. -/
theorem next_of_isTriple (hl : l.cursor.Within input) (table : IdentTable)
    (hkind : (l.next table).token.kind.isTriple = true) :
    ∃ closed ds,
      Text.TripleEnds input (Text.contentsStart input (Text.openingEnd input l.tokenOffset))
        (l.next table).token.literal closed (l.next table).lexer.cursor.offset ∧
      (closed = true ↔ ∃ i, Text.openingEnd input l.tokenOffset ≤ i ∧ Text.ClosesAt input i) ∧
      (∀ d ∈ ds, d.message = .lineTooLong) ∧
      (l.next table).diagnostics = l.blank.diagnostics ++ (ds ++ if closed then [] else
        [⟨⟨l.cursor.file, (l.next table).token.line, (l.next table).token.column⟩,
          .unterminatedTripleString⟩]) := by
  obtain ⟨o, ho, ht, hread⟩ := TokenRead.scan_of_isTriple l.options l.blank.cursor table hkind
  have hwithin := (passes_blank hl).within
  have hopen := hwithin.advance
    (StringOpening.lead_add_three_le ht (StringOpening.lead_lt ho))
  have hend : Text.openingEnd input l.tokenOffset = (l.blank.cursor.advance (o.lead + 3)).offset :=
    hwithin.openingEnd_eq ho
  obtain ⟨string, hstring⟩ : ∃ string, string =
      TripleString.scan l.options.maxLineLength (l.blank.cursor.advance (o.lead + 3)) := ⟨_, rfl⟩
  rw [TokenRead.ofTriple, ← hstring] at hread
  refine ⟨string.closed, string.diagnostics, ?_, ?_, ?_, ?_⟩
  · rw [next, hread, hend, hstring]
    exact TripleString.ends_scan _ hopen
  · rw [hend, hstring]
    exact TripleString.closed_scan_iff _ hopen
  · rw [hstring]
    exact TripleString.message_scan _ _
  · rw [next, hread, ← (route_blank l).file_eq]
    rfl

theorem next_tripleQuoted (hl : l.cursor.Located input first)
    (h : Text.TripleQuoted input o blanks bytes) (ho : l.tokenOffset = o) (table : IdentTable) :
    (l.next table).token.kind = .strLit .triple ∧
      (l.next table).token.literal = Text.unify bytes ∧
      (l.next table).lexer.cursor.offset = o + blanks.length + bytes.length + 7 ∧
      ∃ ds, (l.next table).diagnostics = l.blank.diagnostics ++ ds ∧
        ∀ d ∈ ds, d.message = .lineTooLong := by
  obtain ⟨rest, hline⟩ := h.exists_line
  have hrest := (rest_blank hl.within ho).trans hline
  have hopening : StringOpening.ofLine? l.blank.cursor.before? l.blank.cursor.rest =
      some ⟨.plain, 0⟩ := by
    rw [hrest, before?_blank hl ho]
    exact StringOpening.ofLine?_quote h.before _
  have htriple : StringOpening.isTriple ⟨.plain, 0⟩ l.blank.cursor.rest = true := by
    rw [hrest]
    rfl
  have hread := TokenRead.scan_of_triple l.options hopening htriple table
  have hkind : (l.next table).token.kind = .strLit .triple := by
    rw [next, hread]
    rfl
  obtain ⟨closed, ds, hends, -, hhints, hdiags⟩ :=
    next_of_isTriple hl.within table (congrArg Kind.isTriple hkind)
  rw [ho, h.openingEnd_eq] at hends
  obtain ⟨hliteral, rfl, hstop⟩ := h.eq_of_ends hends
  rw [if_pos rfl, List.append_nil] at hdiags
  exact ⟨hkind, hliteral, hstop, ds, hdiags, hhints⟩

end Text
/-- A call of a run on an input reads a string in triple quotes. -/
structure ReadsTriple {σ : Type} [LineSource σ] (l : Lexer σ) (file : FileId) (input : List UInt8)
    (tables : Nat → IdentTable) (k : Nat) : Prop where
  /-- The literal and the end are those that the bytes tell. -/
  ends : ∃ closed, Text.TripleEnds input
    (Text.contentsStart input (Text.openingEnd input (l.reached tables k).tokenOffset))
    (l.turn tables k).token.literal closed (l.reached tables (k + 1)).cursor.offset
  cr_notMem : Byte.cr ∉ (l.turn tables k).token.literal
  about_of_closesAt :
    (∃ i, Text.openingEnd input (l.reached tables k).tokenOffset ≤ i ∧ Text.ClosesAt input i) →
      Diagnostic.about .unterminatedTripleString (l.turn tables k).diagnostics = []
  /-- Without closing quotes behind the opening ones, the start of the string is reported, once. -/
  about_of_not_closesAt :
    (¬∃ i, Text.openingEnd input (l.reached tables k).tokenOffset ≤ i ∧ Text.ClosesAt input i) →
      Diagnostic.about .unterminatedTripleString (l.turn tables k).diagnostics =
        [⟨⟨file, (l.turn tables k).token.line, (l.turn tables k).token.column⟩,
          .unterminatedTripleString⟩]

/-- A call of a run reads a string in triple quotes that starts at an offset, and it gives hints
only. -/
structure ReadsTripleQuoted {σ : Type} [LineSource σ] (l : Lexer σ) (tables : Nat → IdentTable)
    (k o : Nat) (blanks bytes : List UInt8) : Prop where
  kind_eq : (l.turn tables k).token.kind = .strLit .triple
  literal_eq : (l.turn tables k).token.literal = Text.unify bytes
  /-- The call takes the blanks, the line feed, the contents and six quotes. -/
  offset_eq : (l.reached tables (k + 1)).cursor.offset = o + blanks.length + bytes.length + 7
  hints : ∃ ds, (l.turn tables k).diagnostics = (l.reached tables k).blank.diagnostics ++ ds ∧
    ∀ d ∈ ds, d.message = .lineTooLong

theorem readsTriple_of_within {input : List UInt8} {l : Lexer Text} {tables : Nat → IdentTable}
    {k : Nat} (hl : l.cursor.Within input)
    (hkind : (l.turn tables k).token.kind.isTriple = true) :
    l.ReadsTriple l.cursor.file input tables k := by
  obtain ⟨closed, ds, hends, hclosed, hhints, hdiags⟩ :=
    next_of_isTriple (within_reached hl tables k) (tables k) hkind
  have habout : Diagnostic.about .unterminatedTripleString (l.turn tables k).diagnostics =
      if closed then [] else [⟨⟨l.cursor.file, (l.turn tables k).token.line,
        (l.turn tables k).token.column⟩, .unterminatedTripleString⟩] := by
    have hfile := (route_reached l tables k).file_eq
    have hds : Diagnostic.about .unterminatedTripleString ds = [] :=
      Diagnostic.about_eq_nil fun d hd => hhints d hd ▸ Message.noConfusion
    rw [turn, hdiags, Diagnostic.about_append, Diagnostic.about_append, about_blank _ rfl, hds,
      hfile]
    cases closed with
    | true => rfl
    | false => rfl
  refine ⟨⟨closed, hends⟩, hends.cr_notMem, fun hexists => ?_, fun hnone => ?_⟩
  · rw [habout, if_pos (hclosed.2 hexists)]
  · rw [habout, if_neg fun h => hnone (hclosed.1 h)]

theorem about_next_of_not_isTriple {σ : Type} [LineSource σ] {l : Lexer σ} {table : IdentTable}
    (hkind : (l.next table).token.kind.isTriple = false) :
    Diagnostic.about .unterminatedTripleString (l.next table).diagnostics = [] := by
  have hread := TokenRead.about_scan_of_not_isTriple l.options l.blank.cursor table hkind
  rw [next, Diagnostic.about_append, about_blank l rfl, hread, List.append_nil]

/-- On every stream, a call that reads a string in triple quotes takes it to the first closing
quotes or to the end of the input. Its literal has no carriage return, and the start of the string
is reported if and only if there are no closing quotes; other calls do not miss any. Whichever
call's token starts at a string whose contents stand on lines of their own reads it as these
contents with a line feed for every terminator. At the start of a line such a call is reached over
spaces and terminators, and hints about long lines are all that is told. -/
theorem open?_tripleStrings (file : FileId) (stream : ByteStream) (options : Options)
    (h : 0 < options.bufferSize) :
    ∃ l, open? file stream options = .ok l ∧
      l.cursor.offset = Text.lineStart stream.bytes 0 ∧
      ∀ tables k,
        ((l.turn tables k).token.kind.isTriple = true →
          l.ReadsTriple file stream.bytes tables k) ∧
        ((l.turn tables k).token.kind.isTriple = false →
          Diagnostic.about .unterminatedTripleString (l.turn tables k).diagnostics = []) ∧
        ∀ o blanks bytes, Text.TripleQuoted stream.bytes o blanks bytes →
          (Text.lineStart stream.bytes o = o →
            Text.Clear stream.bytes (l.reached tables k).cursor.offset o →
            (l.reached tables k).tokenOffset = o ∧
              ∀ d ∈ (l.reached tables k).blank.diagnostics, d.message = .lineTooLong) ∧
          ((l.reached tables k).tokenOffset = o →
            l.ReadsTripleQuoted tables k o blanks bytes) := by
  refine ⟨_, open?_eq_ok file stream options h, offset_ofStream file stream options h, ?_⟩
  intro tables k
  have hlocated := located_reached file options stream.bytes tables k
  rw [token_turn_ofStream, diagnostics_turn_ofStream, offset_reached_ofStream,
    tokenOffset_reached_ofStream, blank_diagnostics_ofStream]
  refine ⟨fun hkind => ?_, about_next_of_not_isTriple, fun o blanks bytes hstring =>
    ⟨fun hstart hclear => ?_, fun ho => ?_⟩⟩
  · obtain ⟨hends, hcr, hclosed, hnone⟩ :=
      readsTriple_of_within (within_ofText file options stream.bytes) hkind
    constructor
    · rw [tokenOffset_reached_ofStream, token_turn_ofStream, offset_reached_ofStream]
      exact hends
    · rw [token_turn_ofStream]
      exact hcr
    · rw [tokenOffset_reached_ofStream, diagnostics_turn_ofStream]
      exact hclosed
    · rw [tokenOffset_reached_ofStream, diagnostics_turn_ofStream, token_turn_ofStream]
      exact hnone
  · obtain ⟨rest, hline⟩ := hstring.exists_line
    refine blank_of_startsToken hlocated hstart ?_ hclear
    rw [hline]
    rfl
  · obtain ⟨hkind, hliteral, hoffset, hhints⟩ :=
      next_tripleQuoted hlocated hstring ho (tables k)
    constructor
    · rw [token_turn_ofStream]
      exact hkind
    · rw [token_turn_ofStream]
      exact hliteral
    · rw [offset_reached_ofStream]
      exact hoffset
    · rw [diagnostics_turn_ofStream, blank_diagnostics_ofStream]
      exact hhints

/-- A string with quotes at its end and a terminator that windows split, and right behind a symbol
one that is not closed. -/
def quotedLines : ByteStream :=
  ⟨[.chunk 34 [34, 34, 32, 10, 97, 13], .interruption, .chunk 10 [34, 98, 34, 34, 34, 34],
    .chunk 34 [34, 34, 10, 120, 34, 34, 34], .chunk 99 [13, 34, 34]], .failed [34]⟩

theorem tripleQuoted_quotedLines :
    Text.TripleQuoted quotedLines.bytes 0 [32] [97, 13, 10, 34, 98, 34, 34, 34, 34] where
  before := by decide
  isBlank := List.all_eq_true.1 (by decide)
  quotes_last i h := by
    have hlen := h.length_le
    rw [List.length_drop] at hlen
    have hrun : ∀ i < 9, [Byte.quote, Byte.quote, Byte.quote] <+:
        [97, 13, 10, 34, 98, 34, 34, 34, 34].drop i →
          ∀ b ∈ [97, 13, 10, 34, 98, 34, 34, 34, 34].drop i, b = Byte.quote := by
      decide +kernel
    exact hrun i (Nat.lt_of_sub_pos (Nat.lt_of_lt_of_le (by decide) hlen)) h
  exists_more := ⟨[10, 120, 34, 34, 34, 99, 13, 34, 34], by decide, by decide⟩

theorem not_closesAt_quotedLines :
    ¬∃ i, Text.openingEnd quotedLines.bytes 19 ≤ i ∧ Text.ClosesAt quotedLines.bytes i := by
  rintro ⟨i, hi, hcloses⟩
  have hlt : i < quotedLines.bytes.length := (List.getElem?_eq_some_iff.1 hcloses.getElem?).1
  have hnone : ∀ i < quotedLines.bytes.length,
      Text.openingEnd quotedLines.bytes 19 ≤ i → ¬Text.ClosesAt quotedLines.bytes i := by
    decide
  exact hnone i hlt hi hcloses

theorem open?_tripleStrings_quotedLines :
    0 < 1 ∧ Text.TripleQuoted quotedLines.bytes 0 [32] [97, 13, 10, 34, 98, 34, 34, 34, 34] ∧
      ∃ l, open? {} quotedLines (Options.withWindow {} 1) = .ok l ∧
        l.ReadsTripleQuoted (fun _ => .fresh) 0 0 [32] [97, 13, 10, 34, 98, 34, 34, 34, 34] ∧
        (l.turn (fun _ => .fresh) 0).token.literal = [97, 10, 34, 98, 34, 34, 34, 34] ∧
        (l.turn (fun _ => .fresh) 1).token.kind.isTriple = false ∧
        Diagnostic.about .unterminatedTripleString (l.turn (fun _ => .fresh) 1).diagnostics = [] ∧
        (l.turn (fun _ => .fresh) 2).token.kind.isTriple = true ∧
        Diagnostic.about .unterminatedTripleString (l.turn (fun _ => .fresh) 2).diagnostics =
          [⟨⟨{}, 4, 1⟩, .unterminatedTripleString⟩] := by
  have hwindow : 0 < (Options.withWindow {} 1).bufferSize := by decide
  obtain ⟨l, hopen, hstart, hcalls⟩ :=
    open?_tripleStrings {} quotedLines (Options.withWindow {} 1) hwindow
  obtain rfl := Except.ok.inj ((open?_eq_ok _ _ _ hwindow).symm.trans hopen)
  have hzero : Text.lineStart quotedLines.bytes 0 = 0 := by decide
  rw [hzero] at hstart
  obtain ⟨-, -, hquoted⟩ := hcalls (fun _ => .fresh) 0
  obtain ⟨hway, hreads⟩ := hquoted 0 _ _ tripleQuoted_quotedLines
  have hfirst := hreads (hway hzero ⟨Nat.le_of_eq hstart, nofun⟩).1
  obtain ⟨hsymbol, htriple, hplace, hline, hcolumn⟩ :
      let l := ofText {} (Options.withWindow {} 1) quotedLines.bytes
      (l.turn (fun _ => .fresh) 1).token.kind.isTriple = false ∧
        (l.turn (fun _ => .fresh) 2).token.kind.isTriple = true ∧
        (l.reached (fun _ => .fresh) 2).tokenOffset = 19 ∧
        (l.turn (fun _ => .fresh) 2).token.line = 4 ∧
        (l.turn (fun _ => .fresh) 2).token.column = 1 := by
    decide +kernel
  rw [← token_turn_ofStream _ _ _ hwindow] at hsymbol htriple hline hcolumn
  rw [← tokenOffset_reached_ofStream _ _ _ hwindow] at hplace
  have hopened := ((hcalls (fun _ => .fresh) 2).1 htriple).about_of_not_closesAt
    (hplace ▸ not_closesAt_quotedLines)
  rw [hline, hcolumn] at hopened
  exact ⟨by decide, tripleQuoted_quotedLines, _, hopen, hfirst, hfirst.literal_eq, hsymbol,
    (hcalls (fun _ => .fresh) 1).2.1 hsymbol, htriple, hopened⟩

end Lexer
end Lexeme
