import Lexeme.Proofs.Lexer.DiagnosticPlaces
import Lexeme.Proofs.Lexer.SourceText
import Lexeme.Proofs.Literal.NumberQuote

/-!
# Messages about numbers out of range

A message about a number out of range starts with the bytes the number is read from. Whether it
ends with them is told by these bytes and the one behind them: a range, a call or an operator right
behind the number may be quoted with it.
-/

set_option autoImplicit false

namespace Lexeme

open Number (quotesPast)

/-- A quote does not go over the end of a line. -/
theorem Number.quotesPast_of_isBreak (literal : List UInt8) {b : UInt8}
    (h : Byte.isBreak b = true) : quotesPast literal (some b) = false := by
  have hnone : ∀ b ∈ [Byte.cr, Byte.lf], b ∉ Byte.ofAscii ".OiuIU" ∧ b ∉ Byte.ofAscii "+-" :=
    List.all_iff_forall_prop.1 (by decide)
  have hmem : b ∈ [Byte.cr, Byte.lf] := by simpa [Byte.isBreak] using h
  simp [quotesPast, hnone b hmem]

/-- Behind some bytes of a line, a quote depends on the line only. -/
theorem Cursor.Within.quotesPast_ahead {input : List UInt8} {c : Cursor Text} (h : c.Within input)
    {n : Nat} (hn : n ≤ c.rest.length) (literal : List UInt8) :
    quotesPast literal input[c.offset + n]? = quotesPast literal (c.rest.drop n).head? := by
  rw [List.head?_drop]
  rcases Nat.lt_or_eq_of_le hn with hlt | rfl
  · rw [h.getElem?_rest hlt]
  · have hend : quotesPast literal none = false := by
      rw [quotesPast, Option.any_none, Bool.and_false]
    rw [← List.getElem?_drop, h.drop_offset, List.getElem?_append_right (Nat.le_refl _),
      Nat.sub_self, List.getElem?_eq_none (Nat.le_refl _), hend]
    cases htext : Line.afterText (input.drop c.source.offset) with
    | nil => exact hend
    | cons b rest =>
      exact Number.quotesPast_of_isBreak literal (Line.isBreak_of_afterText_eq_cons htext)

namespace Lexer

/-- The bytes of a number, and what a message about it says. -/
structure QuotesSource (source : List UInt8) (next : Option UInt8) (text : String) : Prop where
  isPrefix : source <+: Utf8.encode text
  eq_iff : Utf8.encode text = source ↔ quotesPast source next = false

theorem quotesSource_turn {input : List UInt8} {l : Lexer Text} (h : l.cursor.Within input)
    (tables : Nat → IdentTable) (k : Nat) {d : Diagnostic} {text : String}
    (hd : d ∈ (l.turn tables k).diagnostics) (hmessage : d.message = .numberOutOfRange text) :
    QuotesSource (l.sourceText input tables k)
      input[(l.reached tables (k + 1)).cursor.offset]? text := by
  have hblank := (passes_blank (within_reached h tables k)).within
  have hfault : d ∈ Diagnostic.numberFaults (l.turn tables k).diagnostics :=
    Diagnostic.mem_numberFaults.2 ⟨hd, by rw [hmessage]; rfl⟩
  rcases numberFaults_next (l.reached tables k) (tables k) with hnil | ⟨line, hread, hvalue⟩
  · rw [turn, hnil] at hfault
    cases hfault
  · rw [turn, hvalue] at hfault
    obtain ⟨f, hf, rfl⟩ := List.mem_map.1 hfault
    obtain ⟨hfront, heq⟩ := Number.quotes_outOfRange hf hmessage
    obtain ⟨b, rest, rfl, hb⟩ := hread.isDigit
    have hle : (Number.Parts.scan (b :: rest)).length ≤ (b :: rest).length :=
      (Piece.fits_number hb rest).le
    rw [← hread.rest_eq] at hfront heq hle
    have hcursor : (l.reached tables (k + 1)).cursor =
        (l.reached tables k).blank.cursor.advance (Number.Parts.scan (b :: rest)).length := by
      rw [reached, next, hread.scan_eq]
      rfl
    rw [← hread.rest_eq] at hcursor
    have hoffset := (congrArg Cursor.offset hcursor).trans (Cursor.offset_advance _ _)
    rw [sourceText, hoffset, tokenOffset, Nat.add_sub_cancel_left, hblank.take_drop hle]
    refine ⟨hfront, ?_⟩
    rw [hblank.quotesPast_ahead hle]
    exact heq

/-- On any stream and whatever the options, a message about a number out of range starts with the
bytes of the number; it consists of them exactly if the byte behind the number is none that the
quote goes on with. -/
theorem open?_outOfRangeText (file : FileId) (stream : ByteStream) (options : Options)
    (h : 0 < options.bufferSize) :
    ∃ l, open? file stream options = .ok l ∧ ∀ tables k, ∀ d ∈ (l.turn tables k).diagnostics,
      ∀ text, d.message = .numberOutOfRange text →
        QuotesSource (l.sourceText stream.bytes tables k)
          stream.bytes[(l.reached tables (k + 1)).cursor.offset]? text := by
  refine ⟨_, open?_eq_ok file stream options h, fun tables k d hd text hmessage => ?_⟩
  rw [diagnostics_turn_ofStream] at hd
  rw [sourceText_ofStream, offset_reached_ofStream]
  exact quotesSource_turn (within_ofText file options stream.bytes) tables k hd hmessage

/-- A number with a capital suffix in front of a call, and one that ends like an exponent in front
of a sign. -/
def largeNumbers : ByteStream :=
  ⟨[.chunk 51 [48, 48, 39, 85, 56, 46], .interruption, .chunk 120 [32, 48, 120, 49, 70],
    .chunk 48 [48, 48, 48, 48, 48, 48, 48, 48, 48, 48, 48, 48, 48, 101, 43, 49]], .closed⟩

/-- The first message quotes the number only, the last one quotes the sum. -/
theorem open?_outOfRangeText_largeNumbers :
    0 < 1 ∧ ∃ l, open? {} largeNumbers (Options.withWindow {} 1) = .ok l ∧
      (l.turn (fun _ => .fresh) 0).diagnostics = [⟨⟨{}, 1, 0⟩, .numberOutOfRange "300'U8"⟩] ∧
      QuotesSource (Utf8.encode "300'U8") (some Byte.dot) "300'U8" ∧
      (l.turn (fun _ => .fresh) 3).diagnostics =
        [⟨⟨{}, 1, 9⟩, .numberOutOfRange "0x1F00000000000000e+1"⟩] ∧
      QuotesSource (Utf8.encode "0x1F00000000000000e") (some Byte.plus)
        "0x1F00000000000000e+1" := by
  have hwindow : 0 < (Options.withWindow {} 1).bufferSize := by decide
  obtain ⟨l, hopen, hcalls⟩ :=
    open?_outOfRangeText {} largeNumbers (Options.withWindow {} 1) hwindow
  obtain rfl := Except.ok.inj ((open?_eq_ok _ _ _ hwindow).symm.trans hopen)
  let run := ofText {} (Options.withWindow {} 1) largeNumbers.bytes
  have hplain : (run.turn (fun _ => .fresh) 0).diagnostics =
        [⟨⟨{}, 1, 0⟩, .numberOutOfRange "300'U8"⟩] ∧
      run.sourceText largeNumbers.bytes (fun _ => .fresh) 0 = Utf8.encode "300'U8" ∧
      largeNumbers.bytes[(run.reached (fun _ => .fresh) 1).cursor.offset]? = some Byte.dot := by
    decide +kernel
  have hsum : (run.turn (fun _ => .fresh) 3).diagnostics =
        [⟨⟨{}, 1, 9⟩, .numberOutOfRange "0x1F00000000000000e+1"⟩] ∧
      run.sourceText largeNumbers.bytes (fun _ => .fresh) 3 = Utf8.encode "0x1F00000000000000e" ∧
      largeNumbers.bytes[(run.reached (fun _ => .fresh) 4).cursor.offset]? = some Byte.plus := by
    decide +kernel
  have hfirst := hcalls (fun _ => .fresh) 0
  have hlast := hcalls (fun _ => .fresh) 3
  rw [diagnostics_turn_ofStream, sourceText_ofStream, offset_reached_ofStream, hplain.1, hplain.2.1,
    hplain.2.2] at hfirst
  rw [diagnostics_turn_ofStream, sourceText_ofStream, offset_reached_ofStream, hsum.1, hsum.2.1,
    hsum.2.2] at hlast
  refine ⟨by decide, _, hopen, ?_, hfirst _ (List.mem_singleton.2 rfl) _ rfl, ?_,
    hlast _ (List.mem_singleton.2 rfl) _ rfl⟩
  · rw [diagnostics_turn_ofStream]
    exact hplain.1
  · rw [diagnostics_turn_ofStream]
    exact hsum.1

/-- In front of a range, the message quotes the range with the number. -/
theorem open?_rangeBehindNumber_text :
    ∃ l, open? {} (.ofBytes (Utf8.encode "300'u8..5")) {} = .ok l ∧
      (l.turn (fun _ => .fresh) 0).diagnostics = [⟨⟨{}, 1, 0⟩, .numberOutOfRange "300'u8..5"⟩] ∧
      l.sourceText (Utf8.encode "300'u8..5") (fun _ => .fresh) 0 = Utf8.encode "300'u8" ∧
      Utf8.encode "300'u8..5" ≠ l.sourceText (Utf8.encode "300'u8..5") (fun _ => .fresh) 0 := by
  refine ⟨_, open?_eq_ok {} _ {} (by decide), ?_⟩
  simp only [diagnostics_turn_ofStream, sourceText_ofStream]
  decide +kernel

end Lexer
end Lexeme
