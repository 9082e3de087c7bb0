import Lexeme.Proofs.Literal.NumberLiteral
import Lexeme.Proofs.Lexer.WholeRun

/-!
# Numbers as tokens

On an input that starts with a digit, the first call takes the whole input and complains about
nothing exactly if the input is a number literal of the grammar. Then no later call complains
either.
-/

set_option autoImplicit false

namespace Lexeme

/-! ## Literals are on one line -/

namespace Number

theorem isText_of_grouped {isDigit : UInt8 → Bool} (hcr : isDigit Byte.cr = false)
    (hlf : isDigit Byte.lf = false) {run : List UInt8} (h : DigitRun.Grouped isDigit run) :
    ∀ b ∈ run, Line.isText b = true := by
  have hdigit : ∀ b, isDigit b = true → Line.isText b = true :=
    fun _ => Line.isText_of_class hcr hlf
  induction h with
  | single hb => exact List.forall_mem_singleton.2 (hdigit _ hb)
  | digit hb _ ih => exact List.forall_mem_cons.2 ⟨hdigit _ hb, ih⟩
  | group hb _ ih =>
    exact List.forall_mem_cons.2 ⟨hdigit _ hb, List.forall_mem_cons.2 ⟨by decide, ih⟩⟩

theorem isText_of_suffix {text : List UInt8} {declared : Option Kind}
    (h : Suffix.Written text declared) : ∀ b ∈ text, Line.isText b = true := by
  have hall : ∀ b ∈ Suffix.letters, ∀ entry ∈ Suffix.widths b,
      (b :: entry.1).all Line.isText = true := List.all_iff_forall_prop.1 (by decide)
  have htext : ∀ {letter : UInt8} {width : List UInt8} {kind : Kind},
      (width, kind) ∈ Suffix.widths letter → ∀ b ∈ letter :: width, Line.isText b = true :=
    fun hmem => List.all_eq_true.1 (hall _ (Suffix.mem_letters hmem) _ hmem)
  cases h with
  | absent => exact fun _ => nofun
  | plain hmem => exact htext hmem
  | quoted hmem => exact List.forall_mem_cons.2 ⟨by decide, htext hmem⟩

theorem isText_of_body {body : NumberBody} {text : List UInt8} (h : body.Written text) :
    ∀ b ∈ text, Line.isText b = true := by
  have hdecimal : ∀ {run : List UInt8}, DigitRun.Grouped Byte.isDigit run →
      ∀ b ∈ run, Line.isText b = true := isText_of_grouped (by decide) (by decide)
  cases h with
  | @pattern mark letter run hmark hrun =>
    have hmarks : ∀ entry ∈ BaseMark.letters, Line.isText entry.1 = true := by decide
    have hdigits := isText_of_grouped (by cases mark <;> decide) (by cases mark <;> decide) hrun
    exact List.forall_mem_cons.2 ⟨by decide, List.forall_mem_cons.2 ⟨hmarks _ hmark, hdigits⟩⟩
  | decimal hwhole hfraction hexponent =>
    refine List.forall_mem_append.2 ⟨hdecimal hwhole, List.forall_mem_append.2 ⟨?_, ?_⟩⟩
    · cases hfraction with
      | absent => exact fun _ => nofun
      | present hrun => exact List.forall_mem_cons.2 ⟨by decide, hdecimal hrun⟩
    · cases hexponent with
      | absent => exact fun _ => nofun
      | @present letter sign run hletter hsign hrun =>
        have hletters : ∀ b ∈ Byte.ofAscii "eE", Line.isText b = true :=
          List.all_eq_true.1 (by decide)
        have hsigns : ∀ b ∈ [Byte.plus, Byte.minus], Line.isText b = true :=
          List.all_eq_true.1 (by decide)
        refine List.forall_mem_cons.2 ⟨hletters _ hletter, ?_⟩
        refine List.forall_mem_append.2 ⟨?_, hdecimal hrun⟩
        intro b hb
        exact hsigns b (hsign b (Option.mem_toList.1 hb))

/-- A literal has no terminator in it. -/
theorem Written.isText {body : NumberBody} {declared : Option Kind} {text : List UInt8}
    (h : Written body declared text) : ∀ b ∈ text, Line.isText b = true := by
  obtain ⟨hbody, hsuffix, -⟩ := h
  exact List.forall_mem_append.2 ⟨isText_of_body hbody, isText_of_suffix hsuffix⟩

end Number

/-! ## The first call -/

theorem Byte.ne_of_isDigit {b c : UInt8} (hb : isDigit b = true) (hc : isDigit c = false) :
    b ≠ c := by
  rintro rfl
  rw [hc] at hb
  cases hb

theorem Byte.isSymbolStart_of_isDigit {b : UInt8} (h : isDigit b = true) :
    isSymbolStart b = false := by
  simp only [isDigit, isSymbolStart, isUpper, isLower] at *
  grind

theorem StringOpening.ofLine?_of_isDigit (before : Option UInt8) {b : UInt8}
    (hb : Byte.isDigit b = true) (rest : List UInt8) : ofLine? before (b :: rest) = none := by
  have hletter : (Byte.toLower b == Byte.ofChar 'r') = false := by
    rw [beq_eq_false_iff_ne]
    intro hr
    rcases Byte.toLower_eq hr with rfl | rfl
    · cases hb
    · cases hb
  rw [ofLine?, if_neg (by simpa using Byte.ne_of_isDigit hb rfl), hletter]
  rfl

theorem Piece.ofBytes_of_isDigit (ctx : Escape.Context) {b : UInt8} (hb : Byte.isDigit b = true)
    (rest : List UInt8) : ofBytes ctx b rest = Number.scan (b :: rest) := by
  have hexport : Spelling.isExportMark (b :: rest) = false := by
    unfold Spelling.isExportMark
    split
    · rename_i heq
      exact absurd (List.cons.inj heq).1 (Byte.ne_of_isDigit hb rfl)
    · rename_i heq
      exact absurd (List.cons.inj heq).1 (Byte.ne_of_isDigit hb rfl)
    · rfl
  have hpunctuation : punctuation? b rest = none := by
    unfold punctuation?
    split
    all_goals first | cases hb | rfl
  rw [ofBytes, if_neg (by simp [Byte.isSymbolStart_of_isDigit hb]), if_neg (by simp [hexport]),
    hpunctuation]
  dsimp only
  rw [if_neg (by simpa using Byte.ne_of_isDigit hb rfl),
    if_neg (by simpa using Byte.ne_of_isDigit hb rfl), if_pos hb]

namespace Lexer

section Start

variable (file : FileId) (options : Options) {b : UInt8} {rest : List UInt8}

theorem cursor_ofText (h : ¬Reader.byteOrderMark <+: b :: rest) :
    (ofText file options (b :: rest)).cursor =
      ⟨file, ⟨0, b :: rest⟩, wrap32 (1 + options.lineOffset), 0⟩ := by
  have hsource : Text.ofBytes (b :: rest) = ⟨0, b :: rest⟩ :=
    if_neg fun hprefix => h (List.isPrefixOf_iff_prefix.1 hprefix)
  exact congrArg (Cursor.mk file · _ 0) hsource

/-- In front of a token that the input starts with, there are no blanks. -/
theorem blank_ofText (hmark : ¬Reader.byteOrderMark <+: b :: rest)
    (hb : b ∉ [Byte.space, Byte.tab, Byte.hash]) (htext : Line.isText b = true) :
    (ofText file options (b :: rest)).cursor.rest = b :: rest.takeWhile Line.isText ∧
      (ofText file options (b :: rest)).blank =
        ⟨(ofText file options (b :: rest)).cursor, 0, none, []⟩ := by
  have hrest : (ofText file options (b :: rest)).cursor.rest = b :: rest.takeWhile Line.isText := by
    rw [cursor_ofText file options hmark]
    exact List.takeWhile_cons_of_pos htext
  refine ⟨hrest, ?_⟩
  simp only [List.mem_cons, List.not_mem_nil, or_false, not_or] at hb
  obtain ⟨hspace, htab, hhash⟩ := hb
  have hrun : Blank.run options 0 (ofText file options (b :: rest)).cursor =
      ⟨0, 0, .token, []⟩ := by
    rw [Blank.run, hrest, BlankRun.scan, if_neg (by simpa using hspace),
      if_neg (by simpa using htab), if_neg (by simpa using hhash)]
  have hend : (Blank.run options 0 (ofText file options (b :: rest)).cursor).ending = .token := by
    rw [hrun]
  rw [blank]
  refine (Blank.scan_of_token hend).trans ?_
  rw [hrun]
  rfl

section Digit

variable (hb : Byte.isDigit b = true)
include hb

theorem not_byteOrderMark_of_isDigit : ¬Reader.byteOrderMark <+: b :: rest := by
  rintro ⟨more, hmore⟩
  exact Byte.ne_of_isDigit hb rfl (List.cons.inj hmore).1.symm

/-- On an input that starts with a digit, the first token is a number. -/
theorem read_ofText_of_isDigit (table : IdentTable) :
    let l := ofText file options (b :: rest)
    l.cursor.rest = b :: rest.takeWhile Line.isText ∧ l.blank = ⟨l.cursor, 0, none, []⟩ ∧
      TokenRead.scan l.options l.cursor table =
        .ofPiece (Number.scan (b :: rest.takeWhile Line.isText)) l.cursor table := by
  intro l
  have hblanks : b ∉ [Byte.space, Byte.tab, Byte.hash] := by
    have hnot : ∀ c ∈ [Byte.space, Byte.tab, Byte.hash], Byte.isDigit c = false :=
      List.all_iff_forall_prop.1 (by decide)
    exact fun hmem => Byte.ne_of_isDigit hb (hnot b hmem) rfl
  have htext : Line.isText b = true := Line.isText_of_class rfl rfl hb
  obtain ⟨hrest, hblank⟩ :=
    blank_ofText file options (not_byteOrderMark_of_isDigit hb) hblanks htext
  have hopening : StringOpening.ofLine? l.cursor.before? l.cursor.rest = none := by
    rw [hrest]
    exact StringOpening.ofLine?_of_isDigit _ hb _
  refine ⟨hrest, hblank, ?_⟩
  rw [TokenRead.scan_of_bytes _ hrest (Byte.ne_of_isDigit hb rfl) hopening,
    Piece.ofBytes_of_isDigit _ hb]

theorem next_ofText_of_isDigit (table : IdentTable) :
    let l := ofText file options (b :: rest)
    let piece := Number.scan (b :: rest.takeWhile Line.isText)
    l.tokenOffset = 0 ∧ (l.next table).lexer.cursor.offset = piece.length ∧
      (l.next table).diagnostics = piece.findings.map l.cursor.locate ∧
      (l.next table).token.kind = piece.kind ∧ (l.next table).token.base = piece.base := by
  intro l piece
  obtain ⟨-, hblank, hread⟩ := read_ofText_of_isDigit file options hb table
  have hoffset : ∀ n, (l.cursor.advance n).offset = n := by
    intro n
    change ((ofText file options (b :: rest)).cursor.advance n).offset = n
    rw [cursor_ofText file options (not_byteOrderMark_of_isDigit hb)]
    change 0 + (0 + n) = n
    omega
  refine ⟨?_, ?_, ?_, ?_, ?_⟩
  · rw [tokenOffset, hblank]
    exact hoffset 0
  all_goals rw [next, hblank, hread]
  · exact hoffset piece.length
  all_goals rfl

end Digit

end Start

/-- The first call takes the whole input and complains about nothing. -/
def TakesAll {σ : Type} [LineSource σ] (l : Lexer σ) (table : IdentTable) (input : List UInt8) :
    Prop :=
  l.tokenOffset = 0 ∧ (l.next table).lexer.cursor.offset = input.length ∧
    (l.next table).diagnostics = []

section Literals

variable (file : FileId) (options : Options) {b : UInt8} {rest : List UInt8}
  (hb : Byte.isDigit b = true) (table : IdentTable)
include hb

omit hb in
theorem takeWhile_rest_of_written {body : NumberBody} {declared : Option Kind}
    (h : Number.Written body declared (b :: rest)) : rest.takeWhile Line.isText = rest := by
  have htext := h.isText
  exact List.takeWhile_eq_self_iff.2 fun c hc => htext c (List.mem_cons_of_mem _ hc)

theorem takesAll_ofText_iff :
    TakesAll (ofText file options (b :: rest)) table (b :: rest) ↔
      ∃ body declared, Number.Literal body declared (b :: rest) := by
  obtain ⟨hstart, hend, hdiags, -, -⟩ := next_ofText_of_isDigit file options hb table
  rw [TakesAll, hend, hdiags, List.map_eq_nil_iff]
  constructor
  · rintro ⟨-, hlen, hfindings⟩
    have hfits := (Piece.fits_number hb (rest.takeWhile Line.isText)).le
    have hline := List.takeWhile_prefix Line.isText (l := rest)
    have hwhole : rest.takeWhile Line.isText = rest := by
      refine hline.eq_of_length (Nat.le_antisymm hline.length_le ?_)
      simp only [List.length_cons] at hfits hlen
      omega
    rw [hwhole] at hlen hfindings
    exact (Number.scan_whole_iff hb).1 ⟨hlen, hfindings⟩
  · rintro ⟨body, declared, hliteral⟩
    rw [takeWhile_rest_of_written hliteral.written]
    exact ⟨hstart, (Number.scan_whole_iff hb).2 ⟨body, declared, hliteral⟩⟩

theorem kind_next_ofText {body : NumberBody} {declared : Option Kind}
    (h : Number.Literal body declared (b :: rest)) :
    ((ofText file options (b :: rest)).next table).token.base = body.base ∧
      ((ofText file options (b :: rest)).next table).token.kind =
        declared.getD body.literalKind := by
  obtain ⟨-, -, -, hkind, hbase⟩ := next_ofText_of_isDigit file options hb table
  obtain ⟨hbase', hkind'⟩ := h.kind_scan
  rw [hkind, hbase, takeWhile_rest_of_written h.written]
  exact ⟨hbase', hkind'⟩

/-- Behind a number that is the whole input comes its end. -/
theorem atEnd_next_of_written {body : NumberBody} {declared : Option Kind}
    (h : Number.Written body declared (b :: rest)) :
    ((ofText file options (b :: rest)).next table).lexer.AtEnd := by
  have hlen : (Number.scan (b :: rest)).length = (b :: rest).length := h.scan_parts.2.2.2
  obtain ⟨hrest, hblank, hread⟩ := read_ofText_of_isDigit file options hb table
  rw [next, hblank, hread]
  rw [takeWhile_rest_of_written h] at hrest ⊢
  refine ⟨?_, ?_, rfl⟩
  · change ((ofText file options (b :: rest)).cursor.advance _).rest = []
    rw [Cursor.rest_advance, hrest, hlen, List.drop_length]
  · change (ofText file options (b :: rest)).cursor.isLast = true
    rw [cursor_ofText file options (not_byteOrderMark_of_isDigit hb)]
    exact beq_iff_eq.2 (Line.ending_eq_eof_iff.2 h.isText)

/-- The calls behind such a number have nothing to say. -/
theorem diagnostics_of_written {body : NumberBody} {declared : Option Kind}
    (h : Number.Written body declared (b :: rest)) :
    (ofText file options (b :: rest)).diagnostics table =
      ((ofText file options (b :: rest)).next table).diagnostics := by
  obtain ⟨heof, -, hsecond, -⟩ := (atEnd_next_of_written file options hb table h).next_eq
    ((ofText file options (b :: rest)).next table).table
  by_cases hempty : ((ofText file options (b :: rest)).next table).token.kind = .eof
  · exact diagnostics_of_eof hempty
  · rw [diagnostics_of_ne_eof hempty, diagnostics_of_eof heof, hsecond, List.append_nil]

theorem diagnostics_ofText_of_literal {body : NumberBody} {declared : Option Kind}
    (h : Number.Literal body declared (b :: rest)) :
    (ofText file options (b :: rest)).diagnostics table = [] := by
  rw [diagnostics_of_written file options hb table h.written]
  exact ((takesAll_ofText_iff file options hb table).2 ⟨body, declared, h⟩).2.2

end Literals

/-- On a stream that starts with a digit, the first call takes all bytes and complains about nothing
exactly if they are a number literal of the grammar. The run then has no diagnostic at all, and base
and kind of the token are those that the spelling gives it. -/
theorem open?_number (file : FileId) (stream : ByteStream) (options : Options)
    (h : 0 < options.bufferSize) {b : UInt8} {rest : List UInt8} (hbytes : stream.bytes = b :: rest)
    (hb : Byte.isDigit b = true) :
    ∃ l, open? file stream options = .ok l ∧ ∀ table,
      (l.TakesAll table stream.bytes ↔
        ∃ body declared, Number.Literal body declared stream.bytes) ∧
      ∀ body declared, Number.Literal body declared stream.bytes →
        l.diagnostics table = [] ∧ (l.next table).token.base = body.base ∧
          (l.next table).token.kind = declared.getD body.literalKind := by
  refine ⟨_, open?_eq_ok file stream options h, fun table => ?_⟩
  have htoken := token_turn_ofStream file stream options h (fun _ => table) 0
  have hdiags := diagnostics_turn_ofStream file stream options h (fun _ => table) 0
  have hstart := tokenOffset_reached_ofStream file stream options h (fun _ => table) 0
  have hend := offset_reached_ofStream file stream options h (fun _ => table) 1
  simp only [turn, reached] at htoken hdiags hstart hend
  rw [TakesAll, htoken, hdiags, hstart, hend, diagnostics_ofStream, hbytes]
  refine ⟨takesAll_ofText_iff file options hb table, fun body declared hliteral => ⟨?_, ?_⟩⟩
  · exact diagnostics_ofText_of_literal file options hb table hliteral
  · exact kind_next_ofText file options hb table hliteral

/-- Hexadecimal digits in two groups and a suffix in capitals. -/
def groupedPattern : ByteStream :=
  ⟨[.chunk 48 [120, 70, 102], .interruption, .chunk 95 [102, 39, 73, 49, 54]], .closed⟩

theorem literal_groupedPattern :
    Number.Literal (.pattern .hex ⟨[70, 102, 95, 102], false⟩) (some (.intLit .int16))
      groupedPattern.bytes := by
  have hbody : NumberBody.Written (.pattern .hex ⟨[70, 102, 95, 102], false⟩)
      [48, 120, 70, 102, 95, 102] :=
    .pattern (by decide) (.digit rfl (.group rfl (.single rfl)))
  have hsuffix : Suffix.Written [39, 73, 49, 54] (some (.intLit .int16)) := .quoted (by decide)
  have hbytes : groupedPattern.bytes = [48, 120, 70, 102, 95, 102] ++ [39, 73, 49, 54] := by decide
  rw [hbytes]
  refine ⟨.mk hbody hsuffix ?_, ?_⟩
  · rintro c hc
    obtain rfl := Option.some.inj hc
    decide
  · change digitsValue 16 (DigitRun.digits ⟨[70, 102, 95, 102], false⟩) < pow2 16
    decide

theorem open?_number_groupedPattern :
    0 < 1 ∧ groupedPattern.bytes = 48 :: [120, 70, 102, 95, 102, 39, 73, 49, 54] ∧
      Byte.isDigit 48 = true ∧
      ∃ l, open? {} groupedPattern (Options.withWindow {} 1) = .ok l ∧
        ∀ table, l.TakesAll table groupedPattern.bytes ∧ l.diagnostics table = [] ∧
          (l.next table).token.base = .hexadecimal ∧
          (l.next table).token.kind = .intLit .int16 := by
  have hbytes : groupedPattern.bytes = 48 :: [120, 70, 102, 95, 102, 39, 73, 49, 54] := by decide
  obtain ⟨l, hopen, hnumber⟩ :=
    open?_number {} groupedPattern (Options.withWindow {} 1) (by decide) hbytes (by decide)
  refine ⟨by decide, hbytes, by decide, l, hopen, fun table => ?_⟩
  obtain ⟨htakes, hkind⟩ := hnumber table
  exact ⟨htakes.2 ⟨_, _, literal_groupedPattern⟩, hkind _ _ literal_groupedPattern⟩

end Lexer
end Lexeme
