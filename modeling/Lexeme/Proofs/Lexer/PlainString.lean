import Lexeme.Proofs.Literal.StringGrammar
import Lexeme.Proofs.Lexer.ErrorFree
import Lexeme.Proofs.Lexer.Positions
import Lexeme.Proofs.Lexer.WholeRun

/-!
# Plain strings as tokens

A plain string at the start of a line becomes one token, with the bytes that it was written for, and
no error is reported about it. A lexer gets there over spaces and empty lines; at the start of a
line no symbol stands in front of the quote, and what follows the closing quote tells an empty
string from the opening of a string in triple quotes.
-/

set_option autoImplicit false

namespace Lexeme

namespace Text

/-- A plain string that is written for some bytes, at the start of a line. -/
structure PlainString (input : List UInt8) (o : Nat) (bytes body : List UInt8) : Prop where
  start_eq : lineStart input o = o
  written : Quoted.Written bytes body
  exists_more : ∃ more, input.drop o = Byte.quote :: (body ++ Byte.quote :: more) ∧
    more.head? ≠ some Byte.quote

/-- There are only spaces and terminators between two offsets. -/
def Clear (input : List UInt8) (p o : Nat) : Prop :=
  p ≤ o ∧ ∀ i < o, p ≤ i → input[i]?.all (fun b => b == Byte.space || Byte.isBreak b) = true

end Text

/-! ## The way to a line -/

namespace Cursor

variable {input : List UInt8} {first o : Nat} {c : Cursor Text}

/-- At the start of a line nothing of it has been passed. -/
theorem Located.column_eq (h : c.Located input first) (hoff : c.offset = o)
    (ho : Text.lineStart input o = o) : c.source.offset = o ∧ c.column = 0 := by
  have hstart := h.location_eq.2
  have hsum : c.offset = c.source.offset + c.column := rfl
  rw [hoff, ho] at hstart
  omega

/-- A cursor in front of a line is not on the last one. -/
theorem Located.isLast_eq_false (h : c.Located input first) (hlt : c.offset < o)
    (hle : o ≤ input.length) (ho : Text.lineStart input o = o) : c.isLast = false := by
  rw [Bool.eq_false_iff]
  intro hlast
  have hend : c.lineEnd.offset = input.length :=
    (h.within.advance (Nat.le_refl _)).offset_eq hlast (rest_lineEnd c)
  have hoff : c.offset = c.source.offset + c.column := rfl
  have hlineEnd : c.lineEnd.offset = c.source.offset + (c.column + c.rest.length) := rfl
  rw [rest, List.length_drop] at hlineEnd
  have hsame := Text.location_eq (s := c.source.offset) (o := o) (by omega)
    fun i hlo hhi => h.within.endsBreak_eq_false hlo (by omega)
  rw [ho, h.start_eq] at hsame
  omega

/-- The next line is the first to start behind a cursor. -/
theorem Located.offset_nextLine_le (h : c.Located input first) (hlast : c.isLast = false)
    (hlt : c.offset < o) (ho : Text.lineStart input o = o) : c.nextLine.offset ≤ o := by
  have hoff : c.offset = c.source.offset + c.column := rfl
  by_contra hbefore
  have hsame := Text.location_eq (s := c.source.offset) (o := o) (by omega)
    fun i hlo hhi => h.within.endsBreak_before_nextLine hlast hlo (by omega)
  rw [ho, h.start_eq] at hsame
  omega

/-- What is clear of a line are spaces. -/
theorem Within.eq_space_of_clear (h : c.Within input) (hclear : Text.Clear input c.offset o)
    (hle : c.offset + c.rest.length ≤ o) : ∀ b ∈ c.rest, b = Byte.space := by
  intro b hb
  obtain ⟨i, hi, rfl⟩ := List.getElem_of_mem hb
  have hbyte := h.getElem?_rest hi
  rw [List.getElem?_eq_getElem hi] at hbyte
  have htext : Line.isText c.rest[i] = true := h.isText_of_mem_rest hb
  have hblank := hclear.2 (c.offset + i) (by omega) (by omega)
  rw [hbyte, Option.all_some, Bool.or_eq_true] at hblank
  rcases hblank with hspace | hbreak
  · exact beq_iff_eq.1 hspace
  · rw [Line.isText_eq_false_iff.2 hbreak] at htext
    cases htext

end Cursor

/-- A line of spaces is blank. -/
theorem BlankRun.scan_spaces (options : Options) {line : List UInt8}
    (h : ∀ b ∈ line, b = Byte.space) :
    (scan options 0 0 line).ending = .lineEnd ∧ (scan options 0 0 line).findings = [] := by
  have hall : leadingSpaces line = line.length := by
    rw [leadingSpaces, List.takeWhile_eq_self_iff.2 fun b hb => beq_iff_eq.2 (h b hb)]
  obtain ⟨-, hend, hfindings⟩ := alike_leadingSpaces options 0 0 line
  rw [hall, List.drop_length] at hend hfindings
  exact ⟨hend, hfindings⟩

namespace Blank

/-- Over spaces and terminators blanks lead to the line behind them, if a token starts it: every
line passed leaves less in between. All that is told on the way is that lines are too long. -/
theorem leads_of_clear (options : Options) {input : List UInt8} {first o : Nat}
    (hle : o ≤ input.length) (ho : Text.lineStart input o = o)
    (htoken : Indentation.startsToken options (Line.first (input.drop o)).bytes = true)
    {c : Cursor Text} (h : c.Located input first) (hclear : Text.Clear input c.offset o) :
    ∃ ds d, Leads options c ds d ∧ d.offset = o ∧ ∀ e ∈ ds, e.message = .lineTooLong := by
  induction hn : o - c.offset using Nat.strong_induction_on generalizing c with
  | _ n ih =>
    rcases Nat.eq_or_lt_of_le hclear.1 with heq | hlt
    · have hhere : Leads options c [] c := by
        refine .here ?_
        rw [h.within.rest_eq, heq]
        exact htoken
      exact ⟨[], c, hhere, heq, List.forall_mem_nil _⟩
    · have hlast := h.isLast_eq_false hlt hle ho
      have hnext := h.offset_nextLine_le hlast hlt ho
      obtain ⟨b, rest, hdrop, hb, hoffset⟩ := h.within.exists_terminator hlast
      have hpos := Text.terminatorLength_pos (List.cons_ne_nil b rest)
      have hspaces := h.within.eq_space_of_clear hclear (by omega)
      obtain ⟨hend, hfindings⟩ := BlankRun.scan_spaces options hspaces
      have hrest : Text.Clear input c.nextLine.offset o :=
        ⟨hnext, fun i hhi hlo => hclear.2 i hhi (by omega)⟩
      obtain ⟨ds, d, hleads, hd, hhints⟩ := ih _ (by omega) h.nextLine hrest rfl
      have hline := Leads.line (c := c) hend hlast hleads
      have hfound : (run options 0 c).findings.map c.locate = [] := by
        rw [run, hfindings, List.map_nil]
      rw [hfound, List.nil_append] at hline
      exact ⟨_, d, hline, hd, List.forall_mem_append.2 ⟨c.message_lengthHint _, hhints⟩⟩

end Blank

/-! ## The string -/

/-- A string that is not empty does not open with two quotes, and behind an empty one there is no
third. -/
theorem StringOpening.isTriple_eq_false {o : StringOpening} {line body more : List UInt8}
    (hline : line.drop o.lead = Byte.quote :: (body ++ Byte.quote :: more))
    (hbody : body.head? ≠ some Byte.quote) (hmore : body = [] → more.head? ≠ some Byte.quote) :
    o.isTriple line = false := by
  rw [Bool.eq_false_iff, isTriple, hline]
  intro htriple
  obtain ⟨rest, hrest⟩ := List.isPrefixOf_iff_prefix.1 htriple
  cases body with
  | nil =>
    cases more with
    | nil => cases hrest
    | cons b more =>
      simp only [List.cons_append, List.nil_append, List.cons.injEq] at hrest
      exact hmore rfl (congrArg some hrest.2.2.1.symm)
  | cons b body =>
    simp only [List.cons_append, List.nil_append, List.cons.injEq] at hrest
    exact hbody (congrArg some hrest.2.1.symm)

/-- A quote that no symbol stands in front of opens a plain string. -/
theorem StringOpening.ofLine?_quote {before : Option UInt8}
    (h : before.any Byte.isSymbol = false) (rest : List UInt8) :
    ofLine? before (Byte.quote :: rest) = some ⟨.plain, 0⟩ := by
  rw [ofLine?, if_pos (by decide), h]
  rfl

theorem Piece.ofString_plain (ctx : Escape.Context) (rest : List UInt8) :
    ofString ctx ⟨.plain, 0⟩ (Byte.quote :: rest) =
      { kind := .strLit .plain
        length := (Quoted.plain ctx 1 rest).stop
        literal := (Quoted.plain ctx 1 rest).bytes
        findings := (Quoted.plain ctx 1 rest).findings } := by
  have hid := List.map_id (Quoted.plain ctx 1 rest).findings
  rw [← Finding.shift_zero] at hid
  have hlen := Nat.zero_add (Quoted.plain ctx 1 rest).stop
  change Piece.mk _ (0 + (Quoted.plain ctx 1 rest).stop) _ _ _ _ _ _
    ((Quoted.plain ctx 1 rest).findings.map (Finding.shift 0)) = _
  rw [hid, hlen]
  rfl

/-- The line of a string: its text goes on behind the string, up to the line's end. -/
theorem Text.PlainString.exists_line {input : List UInt8} {o : Nat} {bytes body : List UInt8}
    (h : PlainString input o bytes body) :
    ∃ more, (Line.first (input.drop o)).bytes = Byte.quote :: (body ++ Byte.quote :: more) ∧
      more.head? ≠ some Byte.quote := by
  obtain ⟨-, hwritten, more, hdrop, hmore⟩ := h
  refine ⟨(Line.first more).bytes, ?_, Line.head?_first_ne hmore⟩
  rw [hdrop, Line.bytes_first_quoted hwritten.isText]

theorem TokenRead.scan_of_plain {σ : Type} [LineSource σ] (options : Options) {c : Cursor σ}
    {body more : List UInt8} (hbefore : c.before?.any Byte.isSymbol = false)
    (hrest : c.rest = Byte.quote :: (body ++ Byte.quote :: more))
    (hbody : body.head? ≠ some Byte.quote) (hmore : body = [] → more.head? ≠ some Byte.quote)
    (table : IdentTable) :
    scan options c table =
      .ofPiece (.ofString (context options c) ⟨.plain, 0⟩ c.rest) c table := by
  have hopening : StringOpening.ofLine? c.before? c.rest = some ⟨.plain, 0⟩ := by
    rw [hrest, StringOpening.ofLine?_quote hbefore]
  exact scan_of_string options hopening
    (StringOpening.isTriple_eq_false (o := ⟨.plain, 0⟩) hrest hbody hmore) table

theorem TokenRead.scan_plainString {σ : Type} [LineSource σ] (options : Options) {c : Cursor σ}
    (table : IdentTable) {bytes body more : List UInt8} (hcolumn : c.column = 0)
    (hrest : c.rest = Byte.quote :: (body ++ Byte.quote :: more)) (h : Quoted.Written bytes body)
    (hmore : more.head? ≠ some Byte.quote) :
    ∃ fs, ErrorFree fs ∧ scan options c table =
      .ofPiece
        { kind := .strLit .plain, length := body.length + 2, literal := bytes, findings := fs }
        c table := by
  have hbefore : c.before?.any Byte.isSymbol = false := by
    rw [Cursor.before?, if_pos hcolumn]
    rfl
  obtain ⟨fs, hread, hfree⟩ := h.plain_eq (context options c) 1 rfl more
  have hlen : 1 + body.length + 1 = body.length + 2 := by omega
  refine ⟨fs, hfree, ?_⟩
  rw [scan_of_plain options hbefore hrest h.head?_ne (fun _ => hmore), hrest, Piece.ofString_plain,
    hread, hlen]

namespace Lexer

/-- A call that finds a piece without a name gives what the piece says, at its place. -/
theorem next_of_piece {σ : Type} [LineSource σ] {l : Lexer σ} {table : IdentTable} {p : Piece}
    (hname : p.name = none)
    (hread : TokenRead.scan l.options l.blank.cursor table = .ofPiece p l.blank.cursor table) :
    (l.next table).token.kind = p.kind ∧ (l.next table).token.literal = p.literal ∧
      (l.next table).lexer.cursor = l.blank.cursor.advance p.length ∧
      (l.next table).diagnostics =
        l.blank.diagnostics ++ p.findings.map l.blank.cursor.locate := by
  have htoken : p.toToken table =
      ({ kind := p.kind, int := p.int, float := p.float, base := p.base, literal := p.literal,
         spaceAfter := p.spaceAfter }, table) := by
    rw [Piece.toToken, hname]
  rw [next, hread, TokenRead.ofPiece, htoken]
  exact ⟨rfl, rfl, rfl, rfl⟩

section Text

variable {input : List UInt8} {first o : Nat} {bytes body : List UInt8} {l : Lexer Text}

/-- What is left of the line where a token starts. -/
theorem rest_blank (hl : l.cursor.Within input) (ho : l.tokenOffset = o) :
    l.blank.cursor.rest = (Line.first (input.drop o)).bytes := by
  subst ho
  exact (passes_blank hl).within.rest_eq

theorem before?_blank (hl : l.cursor.Located input first) (ho : l.tokenOffset = o) :
    l.blank.cursor.before? = Text.before? input o := by
  subst ho
  exact ((route_blank l).located hl).before?_eq

/-- From the end of a call, spaces and terminators lead to a token that starts a line, and they
give hints only. -/
theorem blank_of_startsToken (hl : l.cursor.Located input first)
    (hstart : Text.lineStart input o = o)
    (htoken : Indentation.startsToken l.options (Line.first (input.drop o)).bytes = true)
    (hclear : Text.Clear input l.cursor.offset o) :
    l.tokenOffset = o ∧ ∀ d ∈ l.blank.diagnostics, d.message = .lineTooLong := by
  have hle : o ≤ input.length := by
    by_contra hbeyond
    rw [List.drop_eq_nil_iff.2 (by omega)] at htoken
    cases htoken
  obtain ⟨ds, d, hleads, hoffset, hhints⟩ :=
    Blank.leads_of_clear l.options hle hstart htoken hl hclear
  obtain ⟨hdiags, hcursor⟩ := blank_eq_of_leads hleads
  rw [tokenOffset, hcursor, hdiags]
  exact ⟨hoffset, hhints⟩

theorem tokenOffset_of_startsToken (hl : l.cursor.Located input first)
    (hstart : Text.lineStart input o = o)
    (htoken : Indentation.startsToken l.options (Line.first (input.drop o)).bytes = true)
    (hclear : Text.Clear input l.cursor.offset o) :
    l.tokenOffset = o ∧ Diagnostic.ErrorFree l.blank.diagnostics := by
  obtain ⟨hoffset, hhints⟩ := blank_of_startsToken hl hstart htoken hclear
  exact ⟨hoffset, .of_lineTooLong hhints⟩

theorem tokenOffset_of_clear (hl : l.cursor.Located input first)
    (h : Text.PlainString input o bytes body) (hclear : Text.Clear input l.cursor.offset o) :
    l.tokenOffset = o ∧ Diagnostic.ErrorFree l.blank.diagnostics := by
  obtain ⟨more, hline, -⟩ := h.exists_line
  refine tokenOffset_of_startsToken hl h.start_eq ?_ hclear
  rw [hline]
  rfl

/-- The call that reads the string. -/
theorem next_plainString (hl : l.cursor.Located input first)
    (h : Text.PlainString input o bytes body) (ho : l.tokenOffset = o) (table : IdentTable) :
    (l.next table).token.kind = .strLit .plain ∧ (l.next table).token.literal = bytes ∧
      (l.next table).lexer.cursor.offset = o + body.length + 2 ∧
      ∃ ds, (l.next table).diagnostics = l.blank.diagnostics ++ ds ∧ Diagnostic.ErrorFree ds := by
  obtain ⟨more, hline, hmore⟩ := h.exists_line
  have hlocated := (route_blank l).located hl
  obtain ⟨-, hcolumn⟩ := hlocated.column_eq ho h.start_eq
  have hrest := (rest_blank hl.within ho).trans hline
  obtain ⟨fs, hfree, hread⟩ :=
    TokenRead.scan_plainString l.options table hcolumn hrest h.written hmore
  obtain ⟨hkind, hliteral, hcursor, hdiags⟩ := next_of_piece rfl hread
  refine ⟨hkind, hliteral, ?_, _, hdiags, Diagnostic.ErrorFree.map_locate_iff.2 hfree⟩
  rw [hcursor, Cursor.offset_advance, ← ho, Nat.add_assoc]
  rfl

end Text

/-- A call of a run reads a plain string that starts at an offset, and no error is reported about
it. -/
structure ReadsString {σ : Type} [LineSource σ] (l : Lexer σ) (tables : Nat → IdentTable)
    (k o : Nat) (bytes body : List UInt8) : Prop where
  kind_eq : (l.turn tables k).token.kind = .strLit .plain
  literal_eq : (l.turn tables k).token.literal = bytes
  /-- The call takes the string and its two quotes. -/
  offset_eq : (l.reached tables (k + 1)).cursor.offset = o + body.length + 2
  errorFree : ∃ ds, (l.turn tables k).diagnostics = (l.reached tables k).blank.diagnostics ++ ds ∧
    Diagnostic.ErrorFree ds

theorem offset_ofText (file : FileId) (options : Options) (input : List UInt8) :
    (ofText file options input).cursor.offset = Text.lineStart input 0 := by
  change (Text.ofBytes input).offset + 0 = _
  rw [Text.ofBytes, Text.lineStart]
  split
  · rfl
  · rfl

theorem offset_ofStream (file : FileId) (stream : ByteStream) (options : Options)
    (h : 0 < options.bufferSize) :
    ((ofStream file stream options h).map SoundReader.toReader).cursor.offset =
      Text.lineStart stream.bytes 0 :=
  (offset_reached_ofStream file stream options h (fun _ => .fresh) 0).trans
    (offset_ofText file options stream.bytes)

theorem located_reached (file : FileId) (options : Options) (input : List UInt8)
    (tables : Nat → IdentTable) (k : Nat) :
    ((ofText file options input).reached tables k).cursor.Located input (1 + options.lineOffset) :=
  (route_reached _ tables k).located (located_ofText file options input)

theorem blank_diagnostics_ofStream (file : FileId) (stream : ByteStream) (options : Options)
    (h : 0 < options.bufferSize) (tables : Nat → IdentTable) (k : Nat) :
    (((ofStream file stream options h).map SoundReader.toReader).reached tables
        k).blank.diagnostics =
      ((ofText file options stream.bytes).reached tables k).blank.diagnostics := by
  rw [← map_toText_ofStream file stream options h, reached_map, reached_map, blank_map, blank_map]
  rfl

/-- On every stream a lexer starts behind the byte order mark, if there is one. To a plain string at
the start of a line a call gets over spaces and terminators, without an error; and whichever call's
token starts there reads the string back as the bytes that it was written for. -/
theorem open?_plainString (file : FileId) (stream : ByteStream) (options : Options)
    (h : 0 < options.bufferSize) :
    ∃ l, open? file stream options = .ok l ∧
      l.cursor.offset = Text.lineStart stream.bytes 0 ∧
      ∀ tables k o bytes body, Text.PlainString stream.bytes o bytes body →
        (Text.Clear stream.bytes (l.reached tables k).cursor.offset o →
          (l.reached tables k).tokenOffset = o ∧
            Diagnostic.ErrorFree (l.reached tables k).blank.diagnostics) ∧
        ((l.reached tables k).tokenOffset = o → l.ReadsString tables k o bytes body) := by
  refine ⟨_, open?_eq_ok file stream options h, offset_ofStream file stream options h, ?_⟩
  intro tables k o bytes body hstring
  have hlocated := located_reached file options stream.bytes tables k
  rw [offset_reached_ofStream, tokenOffset_reached_ofStream, blank_diagnostics_ofStream]
  refine ⟨tokenOffset_of_clear hlocated hstring, fun ho => ?_⟩
  obtain ⟨hkind, hliteral, hoffset, hfree⟩ :=
    next_plainString hlocated hstring ho (tables k)
  constructor
  · rw [token_turn_ofStream]
    exact hkind
  · rw [token_turn_ofStream]
    exact hliteral
  · rw [offset_reached_ofStream]
    exact hoffset
  · rw [diagnostics_turn_ofStream, blank_diagnostics_ofStream]
    exact hfree

/-- Behind a semicolon and a line with a space: NUL, a byte outside ASCII as it is and in
hexadecimal digits, a decimal value with a digit behind it, a newline and a quote. -/
def escapedBytes : ByteStream :=
  ⟨[.chunk 59 [13, 10, 32, 10, 34, 0, 255, 92, 88], .interruption,
    .chunk 102 [70, 92, 48, 54, 53, 49, 92], .chunk 78 [92, 34, 34]], .failed [34]⟩

theorem plainString_escapedBytes :
    Text.PlainString escapedBytes.bytes 5 [0, 255, 255, 65, 49, 10, 34]
      [0, 255, 92, 88, 102, 70, 92, 48, 54, 53, 49, 92, 78, 92, 34] where
  start_eq := by decide
  written := by
    have hhex : Escape.Written 255 [88, 102, 70] := .hex (by decide) rfl rfl (by decide)
    have hdecimal : Escape.Written 65 [48, 54, 53] :=
      .decimal (List.all_eq_true.1 (by decide)) (by decide)
    have hnewline : Escape.Written 10 [78] :=
      .letter (List.mem_cons_of_mem _ List.mem_cons_self) (by decide)
    have hquote : Escape.Written 34 [34] := .itself (by decide)
    exact .asIs (by decide) (.asIs (by decide) (.escape hhex (.escape hdecimal
      (.asIs (by decide) (.escape hnewline (.escape hquote .nil))))))
  exists_more := ⟨[], by decide, by decide⟩

theorem open?_plainString_escapedBytes :
    0 < 1 ∧ Text.Clear escapedBytes.bytes 1 5 ∧
      Text.PlainString escapedBytes.bytes 5 [0, 255, 255, 65, 49, 10, 34]
        [0, 255, 92, 88, 102, 70, 92, 48, 54, 53, 49, 92, 78, 92, 34] ∧
      ∃ l, open? {} escapedBytes { bufferSize := 1, legacyNewlineEscape := true } = .ok l ∧
        (l.reached (fun _ => .fresh) 1).cursor.offset = 1 ∧
        (l.turn (fun _ => .fresh) 1).token.literal = [0, 255, 255, 65, 49, 10, 34] ∧
        (l.reached (fun _ => .fresh) 2).cursor.offset = escapedBytes.bytes.length ∧
        Diagnostic.ErrorFree (l.turn (fun _ => .fresh) 1).diagnostics := by
  have hwindow : 0 < Options.bufferSize { bufferSize := 1, legacyNewlineEscape := true } := by
    decide
  have hclear : Text.Clear escapedBytes.bytes 1 5 := by
    rw [Text.Clear]
    decide
  obtain ⟨l, hopen, -, hcalls⟩ := open?_plainString {} escapedBytes _ hwindow
  obtain rfl := Except.ok.inj ((open?_eq_ok _ _ _ hwindow).symm.trans hopen)
  obtain ⟨hway, hread⟩ := hcalls (fun _ => .fresh) 1 5 _ _ plainString_escapedBytes
  have hoffset : ((ofText {} { bufferSize := 1, legacyNewlineEscape := true }
      escapedBytes.bytes).reached (fun _ => .fresh) 1).cursor.offset = 1 := by
    decide +kernel
  rw [← offset_reached_ofStream _ _ _ hwindow] at hoffset
  rw [hoffset] at hway
  obtain ⟨hstart, hblank⟩ := hway hclear
  obtain ⟨-, hliteral, hend, ds, hdiags, hfree⟩ := hread hstart
  refine ⟨by decide, hclear, plainString_escapedBytes, _, hopen, hoffset, hliteral, hend, ?_⟩
  rw [hdiags]
  exact Diagnostic.ErrorFree.append_iff.2 ⟨hblank, hfree⟩

end Lexer
end Lexeme
