import Lexeme.Proofs.Layout.Enclosed
import Lexeme.Proofs.Lexer.Positions
import Lexeme.Proofs.Literal.TripleContents

/-!
# Every diagnostic lies in the text that was scanned

A call passes over blanks and reads a token, and it complains about nothing outside of these: its
diagnostics lie between the position that the lexer told before the call and the one that it tells
afterwards, as long as the lines can be counted. What it says of a number's value it says once, and
only where it reads a number.
-/

set_option autoImplicit false

namespace Lexeme

/-! ## The order of positions -/

namespace Position

/-- A position comes no later than another one of the same file: positions are ordered by their
lines, and on one line by their columns. -/
instance : LE Position where
  le p q := p.file = q.file ∧ (p.line < q.line ∨ p.line = q.line ∧ p.column ≤ q.column)

theorem le_def {p q : Position} :
    p ≤ q ↔ p.file = q.file ∧ (p.line < q.line ∨ p.line = q.line ∧ p.column ≤ q.column) := Iff.rfl

instance (p q : Position) : Decidable (p ≤ q) := decidable_of_iff _ le_def.symm

end Position

/-- Further along the input comes later, as far as lines can be counted. -/
theorem Text.positionAt_le (file : FileId) {first s o : Nat} {input : List UInt8} (h : s ≤ o)
    (hlines : first + breaksBefore input o < pow2 32) :
    positionAt file first input s ≤ positionAt file first input o := by
  have hmono := breaksBefore_mono input h
  have hline : wrap32 (first + breaksBefore input s) = first + breaksBefore input s :=
    wrap32_of_lt (by omega)
  rw [Position.le_def, positionAt, positionAt, hline, wrap32_of_lt hlines]
  refine ⟨rfl, ?_⟩
  by_cases hbreaks : breaksBefore input o = breaksBefore input s
  · have hstart := lineStart_of_breaksBefore h hbreaks
    refine .inr ⟨congrArg (first + ·) hbreaks.symm, ?_⟩
    change s - lineStart input s ≤ o - lineStart input o
    omega
  · refine .inl ?_
    change first + breaksBefore input s < first + breaksBefore input o
    omega

/-! ## Refused numbers -/

namespace Diagnostic

/-- The diagnostics that refuse a number. -/
def numberFaults (ds : List Diagnostic) : List Diagnostic :=
  ds.filter fun d => d.message.isNumberFault

theorem mem_numberFaults {d : Diagnostic} {ds : List Diagnostic} :
    d ∈ numberFaults ds ↔ d ∈ ds ∧ d.message.isNumberFault = true :=
  List.mem_filter

theorem numberFaults_append (ds ds' : List Diagnostic) :
    numberFaults (ds ++ ds') = numberFaults ds ++ numberFaults ds' :=
  List.filter_append ..

theorem numberFaults_map_locate {σ : Type} (c : Cursor σ) (fs : List Finding) :
    numberFaults (fs.map c.locate) = (Finding.numberFaults fs).map c.locate := by
  rw [numberFaults, List.filter_map]
  rfl

theorem numberFaults_of_isLayout {ds : List Diagnostic}
    (h : ∀ d ∈ ds, d.message.isLayout = true) : numberFaults ds = [] := by
  refine List.filter_eq_nil_iff.2 fun d hd hfault => ?_
  have hlayout := h d hd
  cases hmessage : d.message <;> rw [hmessage] at hlayout hfault <;> contradiction

end Diagnostic

open Diagnostic

variable {σ : Type} [LineSource σ]

namespace TokenRead

/-- A number at a cursor, with what is left of the line. -/
structure ReadsNumber (options : Options) (c : Cursor σ) (line : List UInt8) : Prop where
  rest_eq : c.rest = line
  isDigit : ∃ b rest, line = b :: rest ∧ Byte.isDigit b = true
  scan_eq (table : IdentTable) : scan options c table = ofPiece (Number.scan line) c table

variable (options : Options) (c : Cursor σ) (table : IdentTable)

/-- Only where a number is read, a number is refused, and only for its value. -/
theorem numberFaults_scan :
    numberFaults (scan options c table).diagnostics = [] ∨
      ∃ line, ReadsNumber options c line ∧ numberFaults (scan options c table).diagnostics =
        ((Number.Parts.scan line).valueFindings line).map c.locate := by
  cases way c with
  | nil h =>
    rw [scan_of_nil options h]
    exact .inl rfl
  | comment rest h =>
    rw [scan_of_hash options h]
    exact .inl (numberFaults_of_isLayout (Comment.isLayout_scan options.maxLineLength c))
  | triple o ho ht =>
    rw [scan_of_triple options ho ht]
    have hhints := numberFaults_of_isLayout fun d hd => by
      rw [TripleString.message_scan options.maxLineLength (c.advance (o.lead + 3)) d hd]
      rfl
    refine .inl ((numberFaults_append _ _).trans ?_)
    rw [hhints]
    split <;> rfl
  | string o ho ht =>
    rw [scan_of_string options ho ht]
    refine .inl ((numberFaults_map_locate c _).trans ?_)
    rw [(Piece.aboutQuoted_ofString (context options c) o c.rest).numberFaults_eq]
    rfl
  | bytes b rest h hb ho =>
    have hread := scan_of_bytes options h hb ho
    rw [hread]
    obtain hnil | ⟨hdigit, hnumber⟩ := Piece.numberFaults_ofBytes (context options c) b rest
    · refine .inl ((numberFaults_map_locate c _).trans ?_)
      rw [hnil]
      rfl
    · rw [hnumber] at hread ⊢
      refine .inr ⟨b :: rest, ⟨h, ⟨b, rest, rfl, hdigit⟩, hread⟩, ?_⟩
      exact (numberFaults_map_locate c _).trans
        (congrArg (List.map c.locate) (Number.numberFaults_scan (b :: rest)))

/-! ## Places -/

theorem encloses_scan :
    c.Encloses (scan options c table).diagnostics (scan options c table).cursor := by
  cases way c with
  | nil h =>
    rw [scan_of_nil options h]
    exact Cursor.encloses_nil (.refl c)
  | comment rest h =>
    rw [scan_of_hash options h]
    exact Comment.encloses_scan options.maxLineLength c
  | triple o ho ht =>
    rw [scan_of_triple options ho ht]
    have hlen := StringOpening.lead_add_three_le ht (StringOpening.lead_lt ho)
    have hopen := Cursor.route_advance hlen
    have hstring := (TripleString.encloses_scan options.maxLineLength _).of_route hopen
    rw [ofTriple]
    dsimp only
    split
    · rw [List.append_nil]
      exact hstring
    · exact hstring.append_report .unterminatedTripleString
  | string o ho ht =>
    rw [scan_of_string options ho ht]
    exact Cursor.encloses_found (Piece.fits_ofString _ ho).le
      (Piece.foundWithin_ofString _ o c.rest)
  | bytes b rest h hb ho =>
    rw [scan_of_bytes options h hb ho]
    have hfits := (Piece.fits_ofBytes (context options c) b rest).le
    rw [← h] at hfits
    exact Cursor.encloses_found hfits (Piece.foundWithin_ofBytes _ b rest)

end TokenRead

namespace Lexer

variable (l : Lexer σ) (table : IdentTable)

theorem encloses_next : l.cursor.Encloses (l.next table).diagnostics (l.next table).lexer.cursor :=
  (Blank.leads_scan l.options 0 l.cursor).encloses.trans
    (TokenRead.encloses_scan l.options l.blank.cursor table)

theorem numberFaults_next :
    numberFaults (l.next table).diagnostics = [] ∨
      ∃ line, TokenRead.ReadsNumber l.options l.blank.cursor line ∧
        numberFaults (l.next table).diagnostics =
          ((Number.Parts.scan line).valueFindings line).map l.blank.cursor.locate := by
  have hblank := numberFaults_of_isLayout (Blank.leads_scan l.options 0 l.cursor).isLayout
  have hnext : numberFaults (l.next table).diagnostics =
      numberFaults (TokenRead.scan l.options l.blank.cursor table).diagnostics := by
    rw [next, numberFaults_append, blank, hblank, List.nil_append]
  rw [hnext]
  exact TokenRead.numberFaults_scan l.options l.blank.cursor table

theorem length_numberFaults_next_le : (numberFaults (l.next table).diagnostics).length ≤ 1 := by
  obtain hnil | ⟨line, -, hvalue⟩ := numberFaults_next l table
  · rw [hnil]
    exact Nat.zero_le _
  · rw [hvalue, List.length_map]
    exact Number.length_valueFindings_le _ line

/-- A call tells no line behind the last one. -/
theorem line_next_le {input : List UInt8} {first : Nat} {l : Lexer Text}
    (h : l.cursor.Located input first) (table : IdentTable) :
    (l.next table).token.line ≤ first + Text.breaks input ∧
      ∀ d ∈ (l.next table).diagnostics, d.position.line ≤ first + Text.breaks input := by
  refine ⟨((route_blank l).located h).line_le, fun d hd => ?_⟩
  obtain ⟨m, hto, -, hplace⟩ := (encloses_next l table).onRoute d hd
  rw [hplace]
  exact (hto.located h).line_le

/-- What the diagnostics of the `k`-th call of a run on an input are about, the first line having
the number `first`. -/
structure Diagnoses {σ : Type} [LineSource σ] (file : FileId) (first : Nat) (input : List UInt8)
    (l : Lexer σ) (tables : Nat → IdentTable) (k : Nat) : Prop where
  /-- A diagnostic has the position of an offset that the call passes. -/
  passed : ∀ d ∈ (l.turn tables k).diagnostics, ∃ o,
    (l.reached tables k).cursor.offset ≤ o ∧ o ≤ (l.reached tables (k + 1)).cursor.offset ∧
      d.position = Text.positionAt file first input o
  /-- If the lines can be counted, it lies between the positions before and after the call. -/
  between : first + Text.breaks input < pow2 32 → ∀ d ∈ (l.turn tables k).diagnostics,
    (l.reached tables k).position ≤ d.position ∧
      d.position ≤ (l.reached tables (k + 1)).position
  /-- At most one diagnostic says that a number is malformed or out of range. -/
  faults_le : (numberFaults (l.turn tables k).diagnostics).length ≤ 1

theorem diagnoses_of_located {input : List UInt8} {first : Nat} {l : Lexer Text}
    (h : l.cursor.Located input first) (hlen : input.length < pow2 32)
    (tables : Nat → IdentTable) (k : Nat) : l.Diagnoses l.cursor.file first input tables k := by
  have hroute := route_reached l tables k
  have hbefore := hroute.located h
  have hcall := encloses_next (l.reached tables k) (tables k)
  have hafter := hcall.route.located hbefore
  have hposition : (l.reached tables k).position = _ := hbefore.position_eq hlen
  have hposition' : (l.reached tables (k + 1)).position = _ := hafter.position_eq hlen
  rw [hroute.file_eq] at hposition
  rw [hcall.route.file_eq, hroute.file_eq] at hposition'
  have hpassed : ∀ d ∈ (l.turn tables k).diagnostics, ∃ o,
      (l.reached tables k).cursor.offset ≤ o ∧ o ≤ (l.reached tables (k + 1)).cursor.offset ∧
        d.position = Text.positionAt l.cursor.file first input o := by
    intro d hd
    obtain ⟨m, hto, hfrom, hplace⟩ := hcall.onRoute d hd
    have hlocated := hto.located hbefore
    refine ⟨m.offset, (hto.reaches hbefore.within).le, (hfrom.reaches hlocated.within).le, ?_⟩
    rw [hplace, hlocated.position_eq hlen, hto.file_eq, hroute.file_eq]
  refine ⟨hpassed, fun hlines d hd => ?_, length_numberFaults_next_le _ (tables k)⟩
  have hcount : ∀ {o}, o ≤ input.length → first + Text.breaksBefore input o < pow2 32 := by
    intro o ho
    have hmono := Text.breaksBefore_mono input ho
    rw [Text.breaks] at hlines
    omega
  have hend := hafter.within.offset_le
  obtain ⟨o, hlo, hhi, hplace⟩ := hpassed d hd
  change o ≤ (Lexer.next _ _).lexer.cursor.offset at hhi
  rw [hplace, hposition, hposition']
  exact ⟨Text.positionAt_le l.cursor.file hlo (hcount (by omega)),
    Text.positionAt_le l.cursor.file hhi (hcount (by omega))⟩

/-- On any stream shorter than 2³² bytes and whatever the options, every diagnostic of a call is
about the lexer's file and has the position of an offset between the cursor's before the call and
after it. So it lies between the two positions, unless more lines are counted than a number of 32
bits tells apart. At most one diagnostic of a call says that a number is malformed or out of
range. -/
theorem open?_diagnosticPlaces (file : FileId) (stream : ByteStream) (options : Options)
    (h : 0 < options.bufferSize) (hlen : stream.bytes.length < pow2 32) :
    ∃ l, open? file stream options = .ok l ∧ ∀ tables k,
      l.Diagnoses file (1 + options.lineOffset) stream.bytes tables k := by
  refine ⟨_, open?_eq_ok file stream options h, fun tables k => ?_⟩
  obtain ⟨hpassed, hbetween, hfaults⟩ :=
    diagnoses_of_located (located_ofText file options stream.bytes) hlen tables k
  constructor
  · rw [diagnostics_turn_ofStream, offset_reached_ofStream, offset_reached_ofStream]
    exact hpassed
  · rw [diagnostics_turn_ofStream, position_reached_ofStream, position_reached_ofStream]
    exact hbetween
  · rw [diagnostics_turn_ofStream]
    exact hfaults

/-- A tab in front of a number that is too large, a string whose escape and whose end are missing,
and a block comment without an end, over terminators of all styles. -/
def faultyLines : ByteStream :=
  ⟨[.chunk 9 [51, 48, 48, 39], .interruption, .chunk 117 [56, 13], .chunk 10 [34, 92, 120, 103, 13],
    .chunk 35 [91, 13, 97]], .failed [93]⟩

/-- The first call complains about the tab and the number; the diagnostics of the second one lie
between the end of the number and the end of the string. -/
theorem open?_diagnosticPlaces_faultyLines :
    0 < 1 ∧ faultyLines.bytes.length < pow2 32 ∧
      ∃ l, open? {} faultyLines { bufferSize := 1, maxLineLength := 3 } = .ok l ∧
      (l.turn (fun _ => .fresh) 0).diagnostics =
        [⟨⟨{}, 1, 0⟩, .tabsNotAllowed⟩, ⟨⟨{}, 1, 1⟩, .numberOutOfRange "300'u8"⟩] ∧
      (l.turn (fun _ => .fresh) 1).diagnostics.length = 4 ∧
      ∀ d ∈ (l.turn (fun _ => .fresh) 1).diagnostics,
        ⟨{}, 1, 7⟩ ≤ d.position ∧ d.position ≤ ⟨{}, 2, 4⟩ := by
  obtain ⟨l, hopen, hcalls⟩ := open?_diagnosticPlaces {} faultyLines
    { bufferSize := 1, maxLineLength := 3 } (by decide) (by decide)
  obtain rfl := Except.ok.inj ((open?_eq_ok {} faultyLines _ (by decide)).symm.trans hopen)
  refine ⟨by decide, by decide, _, hopen, ?_, ?_, fun d hd => ?_⟩
  · rw [diagnostics_turn_ofStream]
    decide +kernel
  · rw [diagnostics_turn_ofStream]
    decide +kernel
  · obtain ⟨hlo, hhi⟩ := (hcalls (fun _ => .fresh) 1).between (by decide) d hd
    have hplaces : ((ofText {} { bufferSize := 1, maxLineLength := 3 } faultyLines.bytes).reached
          (fun _ => .fresh) 1).position = ⟨{}, 1, 7⟩ ∧
        ((ofText {} { bufferSize := 1, maxLineLength := 3 } faultyLines.bytes).reached
          (fun _ => .fresh) 2).position = ⟨{}, 2, 4⟩ := by
      decide +kernel
    rw [position_reached_ofStream, hplaces.1] at hlo
    rw [position_reached_ofStream, hplaces.2] at hhi
    exact ⟨hlo, hhi⟩

/-- A line feed and a control byte. -/
def strayControl : ByteStream := .ofBytes [10, 1]

/-- From the last line that can be counted a call goes on to line 0, and what it complains about
there is no later than where it started. -/
theorem open?_diagnosticPlaces_lastLine :
    ∃ l, open? {} strayControl { lineOffset := 4294967294 } = .ok l ∧
      (l.reached (fun _ => .fresh) 0).position = ⟨{}, 4294967295, 0⟩ ∧
      (l.turn (fun _ => .fresh) 0).diagnostics.map Diagnostic.position = [⟨{}, 0, 0⟩] ∧
      ∀ d ∈ (l.turn (fun _ => .fresh) 0).diagnostics,
        ¬(l.reached (fun _ => .fresh) 0).position ≤ d.position := by
  refine ⟨_, open?_eq_ok {} strayControl { lineOffset := 4294967294 } (by decide), ?_, ?_, ?_⟩
  · rw [position_reached_ofStream]
    decide +kernel
  · rw [diagnostics_turn_ofStream]
    decide +kernel
  · rw [diagnostics_turn_ofStream, position_reached_ofStream]
    decide +kernel

end Lexer
end Lexeme
