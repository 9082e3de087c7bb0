import Lexeme.Proofs.Literal.CodePointEscape
import Lexeme.Proofs.Lexer.PlainString

/-!
# Strings with code points

A plain string may have code points in it, written in four hexadecimal digits or in braces with as
many digits as one likes, and bytes between them. Its literal is put together from their forms, one
after the other. A code point beyond the largest one is reported with its digits and nothing else
is; it has a form all the same, as long as it fits in 31 bits.
-/

set_option autoImplicit false

namespace Lexeme

/-- A plain string of parts at an offset. No symbol stands in front of it, and if it is empty, no
third quote behind it. -/
structure Text.StringOfParts (input : List UInt8) (o : Nat) (parts : List Quoted.Part) : Prop where
  before : (before? input o).any Byte.isSymbol = false
  exists_more : ∃ more,
    input.drop o = Byte.quote :: (parts.flatMap Quoted.Part.text ++ Byte.quote :: more) ∧
      (parts = [] → more.head? ≠ some Byte.quote)

theorem Quoted.eq_nil_of_flatMap_text {parts : List Part} (h : parts.flatMap Part.text = []) :
    parts = [] := by
  cases parts with
  | nil => rfl
  | cons part parts =>
    have hnil : part.text = [] := List.flatMap_eq_nil_iff.1 h part List.mem_cons_self
    cases part with
    | asIs => cases hnil
    | escape => cases hnil
    | point => cases hnil

theorem Text.StringOfParts.exists_line {input : List UInt8} {o : Nat} {parts : List Quoted.Part}
    (h : StringOfParts input o parts) :
    ∃ more, (Line.first (input.drop o)).bytes =
        Byte.quote :: (parts.flatMap Quoted.Part.text ++ Byte.quote :: more) ∧
      (parts.flatMap Quoted.Part.text = [] → more.head? ≠ some Byte.quote) := by
  obtain ⟨more, hdrop, hmore⟩ := h.exists_more
  have htext : ∀ c ∈ parts.flatMap Quoted.Part.text, Line.isText c = true := by
    intro c hc
    obtain ⟨part, -, hpart⟩ := List.mem_flatMap.1 hc
    exact part.isText c hpart
  refine ⟨(Line.first more).bytes, ?_, fun hnil => ?_⟩
  · rw [hdrop, Line.bytes_first_quoted htext]
  · exact Line.head?_first_ne (hmore (Quoted.eq_nil_of_flatMap_text hnil))

namespace Lexer

section Text

variable {input : List UInt8} {first o : Nat} {parts : List Quoted.Part} {l : Lexer Text}

theorem next_stringOfParts (hl : l.cursor.Located input first)
    (h : Text.StringOfParts input o parts) (ho : l.tokenOffset = o) (table : IdentTable) :
    (l.next table).token.kind = .strLit .plain ∧
      (∃ pieces, List.Forall₂ Quoted.Part.Means parts pieces ∧
        (l.next table).token.literal = pieces.flatten) ∧
      (l.next table).lexer.cursor.offset = o + (parts.flatMap Quoted.Part.text).length + 2 ∧
      ∃ ds, (l.next table).diagnostics = l.blank.diagnostics ++ ds ∧
        ds.map Diagnostic.message = parts.flatMap Quoted.Part.messages := by
  obtain ⟨more, hline, hmore⟩ := h.exists_line
  have hrest := (rest_blank hl.within ho).trans hline
  have hsymbol : l.blank.cursor.before?.any Byte.isSymbol = false := by
    rw [before?_blank hl ho]
    exact h.before
  have hread :=
    TokenRead.scan_of_plain l.options hsymbol hrest (Quoted.head?_parts parts) hmore table
  obtain ⟨pieces, fs, hmeans, hmessages, hplain⟩ :=
    Quoted.plain_parts (TokenRead.context l.options l.blank.cursor) rfl parts 1 more
  rw [hrest, Piece.ofString_plain, hplain] at hread
  obtain ⟨hkind, hliteral, hcursor, hdiags⟩ := next_of_piece rfl hread
  refine ⟨hkind, ⟨pieces, hmeans, hliteral⟩, ?_, _, hdiags, ?_⟩
  · rw [hcursor, Cursor.offset_advance, ← tokenOffset, ho]
    dsimp only
    omega
  · rw [List.map_map, ← hmessages]
    rfl

end Text

/-- A call of a run reads a string of parts that starts at an offset. -/
structure ReadsParts {σ : Type} [LineSource σ] (l : Lexer σ) (tables : Nat → IdentTable)
    (k o : Nat) (parts : List Quoted.Part) : Prop where
  kind_eq : (l.turn tables k).token.kind = .strLit .plain
  /-- The literal is what the parts stand for, one behind the other. -/
  literal_eq : ∃ pieces, List.Forall₂ Quoted.Part.Means parts pieces ∧
    (l.turn tables k).token.literal = pieces.flatten
  /-- The call takes the string and its two quotes. -/
  offset_eq : (l.reached tables (k + 1)).cursor.offset =
    o + (parts.flatMap Quoted.Part.text).length + 2
  /-- The parts are all that there is to report about. -/
  messages_eq : ∃ ds,
    (l.turn tables k).diagnostics = (l.reached tables k).blank.diagnostics ++ ds ∧
      ds.map Diagnostic.message = parts.flatMap Quoted.Part.messages

/-- On every stream, whichever call's token starts at a plain string with code points reads it as
the shortest forms of their values, which for characters are their UTF-8 forms. At the start of a
line such a call is reached over spaces and terminators, without an error. -/
theorem open?_codePoints (file : FileId) (stream : ByteStream) (options : Options)
    (h : 0 < options.bufferSize) :
    (∀ (c : Char) bytes, CodePoint.Shortest c.toNat bytes ↔ bytes = String.utf8EncodeChar c) ∧
    ∃ l, open? file stream options = .ok l ∧
      l.cursor.offset = Text.lineStart stream.bytes 0 ∧
      ∀ tables k o parts, Text.StringOfParts stream.bytes o parts →
        (Text.lineStart stream.bytes o = o →
          Text.Clear stream.bytes (l.reached tables k).cursor.offset o →
          (l.reached tables k).tokenOffset = o ∧
            Diagnostic.ErrorFree (l.reached tables k).blank.diagnostics) ∧
        ((l.reached tables k).tokenOffset = o → l.ReadsParts tables k o parts) := by
  refine ⟨fun c _ => CodePoint.shortest_toNat_iff c, _,
    open?_eq_ok file stream options h, offset_ofStream file stream options h, ?_⟩
  intro tables k o parts hstring
  have hlocated := located_reached file options stream.bytes tables k
  rw [offset_reached_ofStream, tokenOffset_reached_ofStream, blank_diagnostics_ofStream]
  refine ⟨fun hstart hclear => ?_, fun ho => ?_⟩
  · obtain ⟨more, hline, -⟩ := hstring.exists_line
    refine tokenOffset_of_startsToken hlocated hstart ?_ hclear
    rw [hline]
    rfl
  · obtain ⟨hkind, hliteral, hoffset, hmessages⟩ :=
      next_stringOfParts hlocated hstring ho (tables k)
    constructor
    · rw [token_turn_ofStream]
      exact hkind
    · rw [token_turn_ofStream]
      exact hliteral
    · rw [offset_reached_ofStream]
      exact hoffset
    · rw [diagnostics_turn_ofStream, blank_diagnostics_ofStream]
      exact hmessages

/-- Behind a byte as it is: a character, a surrogate, a value that only the extended form has, and
one that has no form, with a zero in front. -/
def codePointBytes : ByteStream :=
  ⟨[.chunk 34 [97, 92, 117, 123, 49, 70, 54, 48, 48, 125, 92, 85], .interruption,
    .chunk 68 [56, 48, 48, 92, 117, 123, 49, 49, 48, 48, 48, 48, 125, 92, 117, 123, 48, 56],
    .chunk 48 [48, 48, 48, 48, 48, 48, 125, 34]], .failed [34]⟩

def codePointParts : List Quoted.Part :=
  [.asIs 97 (by decide),
    .point ⟨117, [49, 70, 54, 48, 48], true, by decide, List.all_eq_true.1 (by decide),
      by decide, by decide⟩,
    .point ⟨85, [68, 56, 48, 48], false, by decide, List.all_eq_true.1 (by decide),
      by decide, by decide⟩,
    .point ⟨117, [49, 49, 48, 48, 48, 48], true, by decide, List.all_eq_true.1 (by decide),
      by decide, by decide⟩,
    .point ⟨117, [48, 56, 48, 48, 48, 48, 48, 48, 48], true, by decide,
      List.all_eq_true.1 (by decide), by decide, by decide⟩]

theorem stringOfParts_codePointBytes :
    Text.StringOfParts codePointBytes.bytes 0 codePointParts where
  before := by decide
  exists_more := ⟨[], by decide, by decide⟩

theorem open?_codePoints_codePointBytes :
    0 < 1 ∧ Text.StringOfParts codePointBytes.bytes 0 codePointParts ∧
      ∃ l, open? {} codePointBytes (Options.withWindow {} 1) = .ok l ∧
        l.ReadsParts (fun _ => .fresh) 0 0 codePointParts ∧
        (l.turn (fun _ => .fresh) 0).token.literal =
          97 :: String.utf8EncodeChar (.ofNat 0x1F600) ++ [237, 160, 128, 244, 144, 128, 128] ∧
        (l.turn (fun _ => .fresh) 0).diagnostics.map Diagnostic.message =
          [.codePointTooLarge "110000", .codePointTooLarge "080000000"] := by
  have hwindow : 0 < Options.bufferSize (Options.withWindow {} 1) := by decide
  obtain ⟨-, l, hopen, hstart, hcalls⟩ := open?_codePoints {} codePointBytes _ hwindow
  obtain rfl := Except.ok.inj ((open?_eq_ok _ _ _ hwindow).symm.trans hopen)
  obtain ⟨hway, hread⟩ := hcalls (fun _ => .fresh) 0 0 _ stringOfParts_codePointBytes
  have hclear : Text.Clear codePointBytes.bytes 0 0 := ⟨Nat.le_refl _, nofun⟩
  have hzero : Text.lineStart codePointBytes.bytes 0 = 0 := by decide
  refine ⟨by decide, stringOfParts_codePointBytes, _, hopen, hread ?_, ?_, ?_⟩
  · refine (hway hzero ?_).1
    rw [reached, hstart, hzero]
    exact hclear
  · rw [token_turn_ofStream]
    decide +kernel
  · rw [diagnostics_turn_ofStream]
    decide +kernel

end Lexer
end Lexeme
