import Lexeme.Proofs.Literal.EscapeExtent
import Lexeme.Proofs.Lexer.PlainString

/-!
# Where strings end

How far an escape reaches is told by the bytes behind its backslash, up to the end of the line. It
stays inside its literal: it ends on its line, and beyond the byte right behind the backslash it
takes no quote and no apostrophe. So a plain string, which goes from byte to byte and from escape to
escape, ends behind the first quote that it meets. If it meets none, it ends where its line does,
and that place is reported, once.
-/

set_option autoImplicit false

namespace Lexeme

namespace Text

/-- The escape whose backslash stands at an offset. -/
def escapeAt (options : Options) (inCharacter : Bool) (input : List UInt8) (p : Nat) : Escape :=
  let line := Line.first (input.drop (p + 1))
  Escape.scan ⟨options.legacyNewlineEscape, inCharacter, line.ending.byte⟩ line.bytes

/-- The offset behind the escape whose backslash stands at an offset. -/
def escapeEnd (options : Options) (inCharacter : Bool) (input : List UInt8) (p : Nat) : Nat :=
  p + 1 + (escapeAt options inCharacter input p).length

/-- An escape stays inside the literal that it stands in. -/
structure EscapeInside (options : Options) (inCharacter : Bool) (input : List UInt8) (p : Nat) :
    Prop where
  lt : p < escapeEnd options inCharacter input p
  le : escapeEnd options inCharacter input p ≤ input.length
  /-- It does not step over a terminator. -/
  isText : ∀ i, p ≤ i → i < escapeEnd options inCharacter input p →
    input[i]?.any Byte.isBreak = false
  /-- It does not take what may close a literal, but for the byte behind the backslash. -/
  spares : ∀ i, p + 1 < i → i < escapeEnd options inCharacter input p →
    input[i]?.any Escape.closesLiteral = false

/-- The offsets that a plain string which opens at an offset gets to, byte by byte and escape by
escape. -/
inductive Meets (options : Options) (input : List UInt8) (o : Nat) : Nat → Prop
  | opening : Meets options input o (o + 1)
  | byte {p : Nat} {b : UInt8} (h : Meets options input o p) (hb : input[p]? = some b)
      (hplain : b ∉ [Byte.quote, Byte.backslash, Byte.cr, Byte.lf]) :
      Meets options input o (p + 1)
  | escape {p : Nat} (h : Meets options input o p) (hb : input[p]? = some Byte.backslash) :
      Meets options input o (escapeEnd options false input p)

/-- The ends of a plain string: right behind a quote that it meets, or else where it meets the end
of its line. -/
inductive StringEnds (options : Options) (input : List UInt8) (o : Nat) : Nat → Bool → Prop
  | closed {p : Nat} (h : Meets options input o p) (hquote : input[p]? = some Byte.quote) :
      StringEnds options input o (p + 1) true
  | unterminated {p : Nat} (h : Meets options input o p)
      (hbreak : input[p]?.all Byte.isBreak = true) : StringEnds options input o p false

/-- The ends of a character that is written as an escape: behind the escape, or behind an apostrophe
there. -/
inductive CharacterEnds (options : Options) (input : List UInt8) (o : Nat) : Nat → Prop
  | unterminated : CharacterEnds options input o (escapeEnd options true input (o + 1))
  | closed (h : input[escapeEnd options true input (o + 1)]? = some Byte.apostrophe) :
      CharacterEnds options input o (escapeEnd options true input (o + 1) + 1)

variable {options : Options} {input : List UInt8} {o p : Nat}

/-- Every escape stays inside, whatever is wrong with it. -/
theorem escapeInside (options : Options) (inCharacter : Bool)
    (h : input[p]? = some Byte.backslash) : EscapeInside options inCharacter input p := by
  have hlen : (escapeAt options inCharacter input p).length ≤
      (Line.first (input.drop (p + 1))).bytes.length := Escape.length_scan_le _ _
  have hend : escapeEnd options inCharacter input p =
      p + 1 + (escapeAt options inCharacter input p).length := rfl
  have hline := Line.length_first_add (input.drop (p + 1))
  rw [List.length_drop] at hline
  have hp := (List.getElem?_eq_some_iff.1 h).1
  constructor
  · omega
  · omega
  · intro i hlo hhi
    rcases Nat.eq_or_lt_of_le hlo with rfl | hlt
    · rw [h]
      rfl
    · obtain ⟨j, rfl⟩ := Nat.exists_eq_add_of_le hlt
      have hj : j < (Line.first (input.drop (p + 1))).bytes.length := by omega
      have htext := Line.isText_of_mem_first (List.getElem_mem hj)
      rw [Nat.succ_eq_add_one, ← List.getElem?_drop, Line.getElem?_of_lt_first hj, Option.any_some]
      exact Bool.not_eq_true' _ ▸ htext
  · intro i hlo hhi
    obtain ⟨j, rfl⟩ := Nat.exists_eq_add_of_le hlo
    cases hbytes : (Line.first (input.drop (p + 1))).bytes with
    | nil =>
      rw [hbytes, List.length_nil] at hlen
      omega
    | cons b rest =>
      have hspares := Escape.spares_scan ⟨options.legacyNewlineEscape, inCharacter,
        (Line.first (input.drop (p + 1))).ending.byte⟩ b rest
      rw [← hbytes] at hspares
      change Escape.Spares ((escapeAt options inCharacter input p).length - 1) rest at hspares
      have hj : j + 1 < (Line.first (input.drop (p + 1))).bytes.length := by omega
      have hoffset : p + 1 + 1 + j = p + 1 + (j + 1) := by omega
      have hmem : (Line.first (input.drop (p + 1))).bytes[j + 1] ∈
          rest.take ((escapeAt options inCharacter input p).length - 1) := by
        rw [List.mem_take_iff_getElem]
        refine ⟨j, ?_, ?_⟩
        · rw [hbytes, List.length_cons] at hj
          omega
        · simp only [hbytes, List.getElem_cons_succ]
      rw [Nat.succ_eq_add_one, hoffset, ← List.getElem?_drop, Line.getElem?_of_lt_first hj,
        Option.any_some]
      exact hspares _ hmem

/-- From an offset that it meets on, a plain string comes to an end, and it complains about its
escapes and about the end only. -/
theorem Meets.exists_end {ending : LineEnd} {offset : Nat} {bytes : List UInt8} {q : Quoted}
    (h : Meets options input o (o + offset))
    (hline : Line.first (input.drop (o + offset)) = ⟨bytes, ending⟩)
    (hq : Quoted.plain ⟨options.legacyNewlineEscape, false, ending.byte⟩ offset bytes = q) :
    ∃ closed fs, StringEnds options input o (o + q.stop) closed ∧
      (∀ f ∈ fs, f.message.isEscape = true) ∧
      q.findings = fs ++ if closed then [] else [⟨q.stop, .unterminatedString⟩] := by
  subst hq
  fun_induction Quoted.plain ⟨options.legacyNewlineEscape, false, ending.byte⟩ offset bytes with
  | case1 offset =>
    have hbyte := Line.getElem?_length_first (input.drop (o + offset))
    rw [hline, List.getElem?_drop] at hbyte
    have hbreak : input[o + offset]?.all Byte.isBreak = true := by
      refine (congrArg (Option.all Byte.isBreak) hbyte).trans ?_
      cases ending <;> rfl
    exact ⟨false, [], .unterminated h hbreak, List.forall_mem_nil _, rfl⟩
  | case2 offset b rest hb =>
    obtain rfl := beq_iff_eq.1 hb
    exact ⟨true, [], .closed h (Line.first_eq_cons hline).1, List.forall_mem_nil _, rfl⟩
  | case3 offset b rest hb hs e ih =>
    obtain rfl := beq_iff_eq.1 hs
    obtain ⟨hbyte, -, hnext⟩ := Line.first_eq_cons hline
    have hescape : escapeAt options false input (o + offset) = e := by
      rw [escapeAt, hnext]
    have hend : escapeEnd options false input (o + offset) = o + (offset + 1 + e.length) := by
      rw [escapeEnd, hescape]
      omega
    have hmeets := h.escape hbyte
    rw [hend] at hmeets
    have hrest : Line.first (input.drop (o + (offset + 1 + e.length))) =
        ⟨rest.drop e.length, ending⟩ := by
      have hlen : e.length ≤ (Line.first (input.drop (o + offset + 1))).bytes.length := by
        rw [hnext]
        exact Escape.length_scan_le _ _
      have hdrop := Line.first_drop hlen
      rw [hnext, List.drop_drop] at hdrop
      rw [← hdrop]
      congr 2
      omega
    obtain ⟨closed, fs, hstop, hfs, hfindings⟩ := ih hmeets hrest
    refine ⟨closed, e.findings.map (Finding.shift (offset + 1)) ++ fs, hstop, ?_, ?_⟩
    · exact List.forall_mem_append.2 ⟨List.forall_mem_map.2 (Escape.isEscape_scan _ rest), hfs⟩
    · rw [Quoted.prepend, hfindings, List.append_assoc]
  | case4 offset b rest hb hs ih =>
    obtain ⟨hbyte, htext, hnext⟩ := Line.first_eq_cons hline
    have hplain : b ∉ [Byte.quote, Byte.backslash, Byte.cr, Byte.lf] := by
      simp only [List.mem_cons, List.not_mem_nil, or_false, not_or]
      refine ⟨fun hq => hb (beq_iff_eq.2 hq), fun hq => hs (beq_iff_eq.2 hq), ?_, ?_⟩
      · rintro rfl
        cases htext
      · rintro rfl
        cases htext
    exact ih (h.byte hbyte hplain) hnext

end Text

/-- A character that is written as an escape: its byte is the escape's, and it ends behind the
escape or behind an apostrophe there. -/
theorem Quoted.character_backslash (ctx : Escape.Context) (rest : List UInt8) :
    (character ctx (Byte.backslash :: rest)).bytes = (Escape.scan ctx rest).bytes ∧
      ((character ctx (Byte.backslash :: rest)).stop = 2 + (Escape.scan ctx rest).length ∨
        (character ctx (Byte.backslash :: rest)).stop = 2 + (Escape.scan ctx rest).length + 1 ∧
          rest[(Escape.scan ctx rest).length]? = some Byte.apostrophe) := by
  have hcontents : characterContents ctx (Byte.backslash :: rest) =
      ⟨(Escape.scan ctx rest).bytes, 2 + (Escape.scan ctx rest).length,
        (Escape.scan ctx rest).findings.map (Finding.shift 2)⟩ := by
    rw [characterContents]
    exact (if_neg (by decide)).trans ((if_neg (by decide)).trans (if_pos (by decide)))
  rw [character, hcontents]
  dsimp only
  split
  · rename_i hclosed
    refine ⟨rfl, .inr ⟨rfl, ?_⟩⟩
    have hstop : 2 + (Escape.scan ctx rest).length - 1 = (Escape.scan ctx rest).length + 1 := by
      omega
    rwa [hstop, List.drop_succ_cons, List.head?_drop] at hclosed
  · exact ⟨rfl, .inl rfl⟩

namespace Lexer

section Text

variable {input : List UInt8} {l : Lexer Text}

theorem next_plain (hl : l.cursor.Within input) (table : IdentTable)
    (hkind : (l.next table).token.kind = .strLit .plain) :
    ∃ closed,
      Text.StringEnds l.options input l.tokenOffset (l.next table).lexer.cursor.offset closed ∧
      Diagnostic.about .unterminatedString (l.next table).diagnostics =
        if closed then [] else [⟨(l.next table).lexer.position, .unterminatedString⟩] := by
  obtain ⟨rest, hrest, hread⟩ := TokenRead.scan_of_strLit_plain l.options l.blank.cursor table hkind
  have hline := (passes_blank hl).within.first_eq
  rw [hrest] at hline
  have hopening : Text.Meets l.options input l.blank.cursor.offset (l.blank.cursor.offset + 1) :=
    .opening
  obtain ⟨closed, fs, hends, hfs, hfindings⟩ :=
    hopening.exists_end (Line.first_eq_cons hline).2.2 rfl
  rw [Piece.ofString_plain] at hread
  obtain ⟨-, -, hcursor, hdiags⟩ := next_of_piece rfl hread
  refine ⟨closed, ?_, ?_⟩
  · rw [hcursor, Cursor.offset_advance]
    exact hends
  · have hescapes : ∀ d ∈ fs.map l.blank.cursor.locate, d.message.isEscape = true :=
      List.forall_mem_map.2 hfs
    rw [hdiags, position, hcursor, TokenRead.context, hfindings, List.map_append,
      Diagnostic.about_append, Diagnostic.about_append, about_blank l rfl,
      Diagnostic.about_eq_nil_of_class (p := Message.isEscape) rfl hescapes]
    cases closed with
    | true => rfl
    | false => rfl

theorem next_character (hl : l.cursor.Within input) (table : IdentTable)
    (hkind : (l.next table).token.kind = .charLit)
    (hbackslash : input[l.tokenOffset + 1]? = some Byte.backslash) :
    (l.next table).token.literal =
        (Text.escapeAt l.options true input (l.tokenOffset + 1)).bytes ∧
      Text.CharacterEnds l.options input l.tokenOffset (l.next table).lexer.cursor.offset := by
  obtain ⟨b, rest, hrest, hread⟩ := TokenRead.scan_of_charLit l.options l.blank.cursor table hkind
  have hline := (passes_blank hl).within.first_eq
  rw [hrest] at hline
  obtain ⟨-, -, hinside⟩ := Line.first_eq_cons hline
  cases rest with
  | nil =>
    have hbyte := Line.getElem?_length_first (input.drop (l.blank.cursor.offset + 1))
    rw [hinside, List.getElem?_drop] at hbyte
    have hnone := hbyte.symm.trans hbackslash
    generalize l.blank.cursor.ending = ending at hnone
    cases ending <;> cases hnone
  | cons c rest =>
    obtain ⟨hbyte, -, hbehind⟩ := Line.first_eq_cons hinside
    obtain rfl := Option.some.inj (hbyte.symm.trans hbackslash)
    obtain ⟨ctx, hctx⟩ : ∃ ctx : Escape.Context,
        ⟨l.options.legacyNewlineEscape, true, l.blank.cursor.ending.byte⟩ = ctx := ⟨_, rfl⟩
    have hescape : Text.escapeAt l.options true input (l.tokenOffset + 1) =
        Escape.scan ctx rest := by
      rw [Text.escapeAt, tokenOffset, hbehind, hctx]
    obtain ⟨-, hliteral, hcursor, -⟩ := next_of_piece rfl hread
    change _ = (Quoted.character ⟨_, _, _⟩ (Byte.backslash :: rest)).bytes at hliteral
    change _ = l.blank.cursor.advance
      (Quoted.character ⟨_, _, _⟩ (Byte.backslash :: rest)).stop at hcursor
    obtain ⟨hbytes, hstop⟩ := Quoted.character_backslash ctx rest
    rw [TokenRead.context, hctx] at hliteral hcursor
    refine ⟨by rw [hliteral, hbytes, hescape], ?_⟩
    have hend : Text.escapeEnd l.options true input (l.tokenOffset + 1) =
        l.blank.cursor.offset + (2 + (Escape.scan ctx rest).length) := by
      rw [Text.escapeEnd, hescape, tokenOffset]
      omega
    rw [hcursor, Cursor.offset_advance]
    rcases hstop with hopen | ⟨hclosed, happo⟩
    · rw [hopen, ← hend]
      exact .unterminated
    · rw [hclosed, ← Nat.add_assoc, ← hend]
      refine .closed ?_
      have hlt := (List.getElem?_eq_some_iff.1 happo).1
      have hsplit := Line.bytes_append_afterText (input.drop (l.blank.cursor.offset + 1 + 1))
      rw [hbehind] at hsplit
      rw [Text.escapeEnd, hescape, tokenOffset, ← List.getElem?_drop, ← hsplit,
        List.getElem?_append_left hlt, happo]

end Text

/-- On every stream, whatever the options: every escape stays inside its literal. So a plain string
ends right behind a quote that it meets, without a complaint about its end, or it meets a
terminator or the end of the input and complains about that place, once. A character that is
written as an escape ends behind the escape or behind an apostrophe there. -/
theorem open?_escapesInside (file : FileId) (stream : ByteStream) (options : Options)
    (h : 0 < options.bufferSize) :
    (∀ inCharacter p, stream.bytes[p]? = some Byte.backslash →
      Text.EscapeInside options inCharacter stream.bytes p) ∧
    ∃ l, open? file stream options = .ok l ∧ ∀ tables k,
      ((l.turn tables k).token.kind = .strLit .plain → ∃ closed,
        Text.StringEnds options stream.bytes (l.reached tables k).tokenOffset
          (l.reached tables (k + 1)).cursor.offset closed ∧
        Diagnostic.about .unterminatedString (l.turn tables k).diagnostics =
          if closed then []
          else [⟨(l.reached tables (k + 1)).position, .unterminatedString⟩]) ∧
      ((l.turn tables k).token.kind = .charLit →
        stream.bytes[(l.reached tables k).tokenOffset + 1]? = some Byte.backslash →
        (l.turn tables k).token.literal = (Text.escapeAt options true stream.bytes
          ((l.reached tables k).tokenOffset + 1)).bytes ∧
        Text.CharacterEnds options stream.bytes (l.reached tables k).tokenOffset
          (l.reached tables (k + 1)).cursor.offset) := by
  refine ⟨fun inCharacter p => Text.escapeInside options inCharacter, _,
    open?_eq_ok file stream options h, fun tables k => ?_⟩
  have hwithin := within_reached (within_ofText file options stream.bytes) tables k
  have hoptions := options_reached (ofText file options stream.bytes) tables k
  rw [token_turn_ofStream, diagnostics_turn_ofStream, tokenOffset_reached_ofStream,
    offset_reached_ofStream, position_reached_ofStream]
  have hstring := next_plain hwithin (tables k)
  have hcharacter := next_character hwithin (tables k)
  rw [hoptions] at hstring hcharacter
  exact ⟨hstring, hcharacter⟩

/-- A string whose escape lacks its digits, an escaped apostrophe, and a backslash at the end of a
line. -/
def brokenEscapes : ByteStream :=
  ⟨[.chunk 34 [97, 92, 120], .interruption, .chunk 34 [32, 39, 92], .chunk 39 [39, 32, 34, 92],
    .chunk 10 []], .failed [34]⟩

theorem open?_escapesInside_brokenEscapes :
    0 < 1 ∧ Text.EscapeInside (Options.withWindow {} 1) false brokenEscapes.bytes 2 ∧
      ∃ l, open? {} brokenEscapes (Options.withWindow {} 1) = .ok l ∧
        Text.StringEnds (Options.withWindow {} 1) brokenEscapes.bytes 0 5 true ∧
        (l.turn (fun _ => .fresh) 1).token.literal = [Byte.apostrophe] ∧
        Text.StringEnds (Options.withWindow {} 1) brokenEscapes.bytes 11 13 false := by
  have hwindow : 0 < (Options.withWindow {} 1).bufferSize := by decide
  obtain ⟨hescapes, l, hopen, hcalls⟩ :=
    open?_escapesInside {} brokenEscapes (Options.withWindow {} 1) hwindow
  obtain rfl := Except.ok.inj ((open?_eq_ok _ _ _ hwindow).symm.trans hopen)
  have hfirst := (hcalls (fun _ => .fresh) 0).1
  have hsecond := (hcalls (fun _ => .fresh) 1).2
  have hthird := (hcalls (fun _ => .fresh) 2).1
  rw [token_turn_ofStream, tokenOffset_reached_ofStream, offset_reached_ofStream,
    position_reached_ofStream, diagnostics_turn_ofStream] at hfirst hthird
  rw [token_turn_ofStream, tokenOffset_reached_ofStream] at hsecond
  obtain ⟨closed, hends, habout⟩ := hfirst (by decide +kernel)
  obtain ⟨closed', hends', habout'⟩ := hthird (by decide +kernel)
  refine ⟨by decide, hescapes false 2 (by decide), _, hopen, ?_, ?_, ?_⟩
  · have hplaces : ((ofText {} (Options.withWindow {} 1) brokenEscapes.bytes).reached
          (fun _ => .fresh) 0).tokenOffset = 0 ∧
        ((ofText {} (Options.withWindow {} 1) brokenEscapes.bytes).reached
          (fun _ => .fresh) 1).cursor.offset = 5 ∧
        Diagnostic.about .unterminatedString ((ofText {} (Options.withWindow {} 1)
          brokenEscapes.bytes).turn (fun _ => .fresh) 0).diagnostics = [] := by
      decide +kernel
    rw [hplaces.1, hplaces.2.1] at hends
    rw [hplaces.2.2] at habout
    cases closed with
    | true => exact hends
    | false => cases habout
  · rw [token_turn_ofStream, (hsecond (by decide +kernel) (by decide +kernel)).1]
    decide +kernel
  · have hplaces : ((ofText {} (Options.withWindow {} 1) brokenEscapes.bytes).reached
          (fun _ => .fresh) 2).tokenOffset = 11 ∧
        ((ofText {} (Options.withWindow {} 1) brokenEscapes.bytes).reached
          (fun _ => .fresh) 3).cursor.offset = 13 ∧
        Diagnostic.about .unterminatedString ((ofText {} (Options.withWindow {} 1)
          brokenEscapes.bytes).turn (fun _ => .fresh) 2).diagnostics ≠ [] := by
      decide +kernel
    rw [hplaces.1, hplaces.2.1] at hends'
    cases closed' with
    | true => exact absurd habout' hplaces.2.2
    | false => exact hends'

end Lexer
end Lexeme
