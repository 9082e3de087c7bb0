import Lexeme.Proofs.Lexer.NumberToken

/-!
# Values of numbers as tokens

An input that is one number of the grammar becomes one token, whatever its digits come to: a bit
pattern keeps the low bits that its kind has room for, and a decimal integer its low 64 bits. The
only complaint there may be is that the number is out of range, and it is the number itself that
decides, not what a word has kept of it. The exception is the promotion of decimal integers without
a suffix, which looks at the low 64 bits.
-/

set_option autoImplicit false

namespace Lexeme

/-! ## Bit patterns -/

/-- The integer that the low bits of a number are read as: without a sign for the narrow unsigned
types, and else in two's complement. -/
def IntType.reading (type : IntType) (n : Nat) : Int :=
  match type with
  | .uint8 | .uint16 | .uint32 => (BitVec.ofNat type.width n).toNat
  | _ => (BitVec.ofNat type.width n).toInt

/-- The balanced remainder is the reading in two's complement. -/
theorem toInt_ofNat_eq_bmod (w n : Nat) : (BitVec.ofNat w n).toInt = (n : Int).bmod (pow2 w) :=
  BitVec.toInt_ofNat n

theorem IntType.wrap_eq_reading (type : IntType) (n : Nat) : type.wrap n = type.reading n := by
  rw [wrap, ← toInt_ofNat_eq_bmod]
  cases type <;> rfl

/-- How many bits a pattern of the kind has room for. -/
def Kind.patternWidth : Kind → Nat
  | .intLit type => type.width
  | .floatLit .float32 => 32
  | _ => 64

/-- The token carries the low bits of a number, as its kind reads them. -/
def Token.KeepsBits (t : Token) (n : Nat) : Prop :=
  match t.kind with
  | .intLit type => t.int = type.reading n
  | .floatLit .float32 => t.float = .ofSingleBits (UInt32.ofNat n)
  | .floatLit _ => t.float.bits.toNat = n % pow2 64
  | _ => False

/-- A suffix declares an integer or a floating-point number. -/
theorem Suffix.Written.intLit_or_floatLit {text : List UInt8} {kind : Kind}
    (h : Written text (some kind)) :
    (∃ type, kind = .intLit type) ∨ ∃ type, kind = .floatLit type := by
  have hall : ∀ b ∈ letters, ∀ entry ∈ widths b,
      (entry.2.isIntLiteral || entry.2.isFloatLiteral) = true :=
    List.all_iff_forall_prop.1 (by decide)
  have hkind : (kind.isIntLiteral || kind.isFloatLiteral) = true := by
    cases h with
    | plain hmem => exact hall _ (mem_letters hmem) _ hmem
    | quoted hmem => exact hall _ (mem_letters hmem) _ hmem
  cases kind with
  | intLit type => exact .inl ⟨type, rfl⟩
  | floatLit type => exact .inr ⟨type, rfl⟩
  | _ => cases hkind

namespace Number

/-- Every literal of the grammar starts with a digit. -/
theorem Written.exists_cons {body : NumberBody} {declared : Option Kind} {text : List UInt8}
    (h : Written body declared text) : ∃ b rest, text = b :: rest ∧ Byte.isDigit b = true := by
  obtain @⟨front, back, hbody, -, -⟩ := h
  cases hbody with
  | pattern hmark hrun => exact ⟨_, _, rfl, rfl⟩
  | decimal hwhole _ _ =>
    obtain ⟨b, rest, rfl, hb⟩ := hwhole.exists_cons
    exact ⟨b, _, rfl, hb⟩

/-- A bit pattern declares an integer or a floating-point number. -/
theorem Written.intLit_or_floatLit {mark : BaseMark} {run : DigitRun} {declared : Option Kind}
    {text : List UInt8} (h : Written (.pattern mark run) declared text) :
    (∃ type, declared.getD (.intLit .int) = .intLit type) ∨
      ∃ type, declared.getD (.intLit .int) = .floatLit type := by
  obtain ⟨-, hsuffix, -⟩ := h
  cases declared with
  | none => exact .inl ⟨.int, rfl⟩
  | some kind => exact hsuffix.intLit_or_floatLit

end Number

namespace Lexer

/-! ## Inputs that are one number -/

/-- The complaint about a number that is the whole input. -/
def outOfRange (file : FileId) (options : Options) (input : List UInt8) : Diagnostic :=
  ⟨⟨file, wrap32 (1 + options.lineOffset), 0⟩, .numberOutOfRange (Number.quotedText input)⟩

/-- The first call reads the whole input as a number, and all that the run may say is that the
number is out of range. -/
structure ReadsNumber {σ : Type} [LineSource σ] (l : Lexer σ) (table : IdentTable)
    (input : List UInt8) (base : Base) (v : NumberValue) (complaint : Diagnostic) : Prop where
  offset_eq : (l.next table).lexer.cursor.offset = input.length
  kind_eq : (l.next table).token.kind = v.kind
  int_eq : (l.next table).token.int = v.int
  float_eq : (l.next table).token.float = v.float
  base_eq : (l.next table).token.base = base
  diagnostics_eq : l.diagnostics table = if v.inRange then [] else [complaint]

section Written

variable (file : FileId) (options : Options) {body : NumberBody} {declared : Option Kind}
  {v : NumberValue} (hv : body.value? (declared.getD body.kind) = some v)
include hv

theorem readsNumber_ofText {input : List UInt8} (h : Number.Written body declared input)
    (table : IdentTable) :
    (ofText file options input).ReadsNumber table input body.base v
      (outOfRange file options input) := by
  obtain ⟨b, rest, rfl, hb⟩ := h.exists_cons
  obtain ⟨-, hend, hdiags, -, -⟩ := next_ofText_of_isDigit file options hb table
  obtain ⟨-, hblank, hread⟩ := read_ofText_of_isDigit file options hb table
  obtain ⟨hlen, hkind, hint, hfloat, hbase⟩ := h.scan_eq hv
  rw [takeWhile_rest_of_written h] at hend hdiags hread
  have htoken : ((ofText file options (b :: rest)).next table).token.kind = v.kind ∧
      ((ofText file options (b :: rest)).next table).token.int = v.int ∧
      ((ofText file options (b :: rest)).next table).token.float = v.float ∧
      ((ofText file options (b :: rest)).next table).token.base = body.base := by
    rw [next, hblank, hread]
    exact ⟨hkind, hint, hfloat, hbase⟩
  refine ⟨hend.trans hlen, htoken.1, htoken.2.1, htoken.2.2.1, htoken.2.2.2, ?_⟩
  rw [diagnostics_of_written file options hb table h, hdiags, h.findings_eq hv]
  have hstart : (ofText file options (b :: rest)).cursor.positionAt 0 =
      ⟨file, wrap32 (1 + options.lineOffset), 0⟩ := by
    rw [cursor_ofText file options (not_byteOrderMark_of_isDigit hb)]
    rfl
  cases v.inRange with
  | true => rfl
  | false =>
    rw [if_neg Bool.false_ne_true, if_neg Bool.false_ne_true, List.map_singleton, Cursor.locate,
      hstart]
    rfl

theorem open?_readsNumber {stream : ByteStream} (hwindow : 0 < options.bufferSize)
    (h : Number.Written body declared stream.bytes) :
    ∃ l, open? file stream options = .ok l ∧ ∀ table,
      l.ReadsNumber table stream.bytes body.base v (outOfRange file options stream.bytes) := by
  refine ⟨_, open?_eq_ok file stream options hwindow, fun table => ?_⟩
  obtain ⟨hend, hkind, hint, hfloat, hbase, hdiags⟩ := readsNumber_ofText file options hv h table
  have htoken := token_turn_ofStream file stream options hwindow (fun _ => table) 0
  have hoffset := offset_reached_ofStream file stream options hwindow (fun _ => table) 1
  simp only [turn, reached] at htoken hoffset
  constructor
  · rw [hoffset, hend]
  · rw [htoken, hkind]
  · rw [htoken, hint]
  · rw [htoken, hfloat]
  · rw [htoken, hbase]
  · rw [diagnostics_ofStream, hdiags]

end Written

/-! ## What they are worth -/

/-- A bit pattern that is the whole input, with digits of any number and any of the suffixes,
becomes a token of the declared kind that keeps the pattern's low bits. It is complained about
exactly if the number has more bits than the kind has room for. -/
theorem open?_pattern (file : FileId) (stream : ByteStream) (options : Options)
    (h : 0 < options.bufferSize) {mark : BaseMark} {run : DigitRun} {declared : Option Kind}
    (hpattern : Number.Written (.pattern mark run) declared stream.bytes) :
    ∃ l, open? file stream options = .ok l ∧ ∀ table,
      (l.next table).lexer.cursor.offset = stream.bytes.length ∧
      (l.next table).token.kind = declared.getD (.intLit .int) ∧
      (l.next table).token.base = mark.base ∧
      (l.next table).token.KeepsBits (digitsValue mark.radix run.digits) ∧
      l.diagnostics table =
        if digitsValue mark.radix run.digits < pow2 (declared.getD (.intLit .int)).patternWidth
        then [] else [outOfRange file options stream.bytes] := by
  generalize hn : digitsValue mark.radix run.digits = n
  rcases hpattern.intLit_or_floatLit with ⟨type, htype⟩ | ⟨type, htype⟩
  · have hv : (NumberBody.pattern mark run).value? (declared.getD (.intLit .int)) =
        some (.intOfBits type n) := by
      rw [htype, ← hn]
      exact NumberBody.value?_eq_some_iff.2 (.patternInt mark run type)
    obtain ⟨l, hopen, hreads⟩ := open?_readsNumber file options hv h hpattern
    refine ⟨l, hopen, fun table => ?_⟩
    obtain ⟨hend, hkind, hint, -, hbase, hdiags⟩ := hreads table
    rw [htype]
    refine ⟨hend, hkind, hbase, ?_, ?_⟩
    · rw [Token.KeepsBits, hkind, hint]
      exact type.wrap_eq_reading n
    · rw [hdiags]
      exact if_congr NumberValue.inRange_intOfBits rfl rfl
  · have hv : (NumberBody.pattern mark run).value? (declared.getD (.intLit .int)) =
        some (.floatOfBits type n) := by
      rw [htype, ← hn]
      exact NumberBody.value?_eq_some_iff.2 (.patternFloat mark run type)
    obtain ⟨l, hopen, hreads⟩ := open?_readsNumber file options hv h hpattern
    refine ⟨l, hopen, fun table => ?_⟩
    obtain ⟨hend, hkind, -, hfloat, hbase, hdiags⟩ := hreads table
    rw [htype]
    refine ⟨hend, hkind.trans (NumberValue.kind_floatOfBits type n), hbase, ?_, ?_⟩
    · rw [Token.KeepsBits, hkind, hfloat, NumberValue.kind_floatOfBits]
      cases type with
      | float32 => rfl
      | _ => exact UInt64.toNat_ofNat'
    · rw [hdiags]
      have hwidth : pow2 (if type = .float32 then 32 else 64) =
          pow2 (Kind.floatLit type).patternWidth := by
        cases type <;> rfl
      exact if_congr (hwidth ▸ NumberValue.inRange_floatOfBits) rfl rfl

/-- Nine bits for a byte: hexadecimal digits of both cases in two groups, and a capital suffix. -/
def wideByte : ByteStream :=
  ⟨[.chunk 48 [120, 49, 95], .interruption, .chunk 102 [70, 39, 73, 56]], .closed⟩

theorem open?_pattern_wideByte :
    0 < 1 ∧
      Number.Written (.pattern .hex ⟨[49, 95, 102, 70], false⟩) (some (.intLit .int8))
        wideByte.bytes ∧
      ∃ l, open? {} wideByte (Options.withWindow {} 1) = .ok l ∧
        ∀ table, (l.next table).token.kind = .intLit .int8 ∧ (l.next table).token.int = -1 ∧
          l.diagnostics table = [⟨⟨{}, 1, 0⟩, .numberOutOfRange "0x1_fF'I8"⟩] := by
  have hbody : NumberBody.Written (.pattern .hex ⟨[49, 95, 102, 70], false⟩)
      [48, 120, 49, 95, 102, 70] :=
    .pattern (by decide) (.group rfl (.digit rfl (.single rfl)))
  have hsuffix : Suffix.Written [39, 73, 56] (some (.intLit .int8)) := .quoted (by decide)
  have hwritten : Number.Written (.pattern .hex ⟨[49, 95, 102, 70], false⟩) (some (.intLit .int8))
      wideByte.bytes := by
    have hbytes : wideByte.bytes = [48, 120, 49, 95, 102, 70] ++ [39, 73, 56] := by decide
    rw [hbytes]
    refine .mk hbody hsuffix ?_
    rintro c hc
    obtain rfl := Option.some.inj hc
    decide
  refine ⟨by decide, hwritten, ?_⟩
  obtain ⟨l, hopen, hcalls⟩ :=
    open?_pattern {} wideByte (Options.withWindow {} 1) (by decide) hwritten
  refine ⟨l, hopen, fun table => ?_⟩
  obtain ⟨-, hkind, -, hbits, hdiags⟩ := hcalls table
  rw [Token.KeepsBits, hkind] at hbits
  have hreading : IntType.int8.reading (digitsValue 16 [49, 102, 70]) = -1 := by decide
  have hquoted : outOfRange {} (Options.withWindow {} 1) wideByte.bytes =
      ⟨⟨{}, 1, 0⟩, .numberOutOfRange "0x1_fF'I8"⟩ := by decide +kernel
  refine ⟨hkind, hbits.trans hreading, ?_⟩
  rw [hdiags, if_neg (by decide), hquoted]

/-- A decimal integer that is the whole input, with digits of any number and no suffix or one of an
integer type, carries its low 64 bits. It is complained about exactly if it is larger than the
largest value of the type it declares. -/
theorem open?_decimalInteger (file : FileId) (stream : ByteStream) (options : Options)
    (h : 0 < options.bufferSize) {run : DigitRun} {suffix : Option IntType}
    (hdecimal : Number.Written (.decimal run none none) (suffix.map .intLit) stream.bytes) :
    ∃ l, open? file stream options = .ok l ∧ ∀ table,
      (l.next table).lexer.cursor.offset = stream.bytes.length ∧
      (l.next table).token.int = (BitVec.ofNat 64 (digitsValue 10 run.digits)).toInt ∧
      (l.next table).token.base = .decimal ∧
      l.diagnostics table =
        if digitsValue 10 run.digits ≤ (suffix.getD .int).maxValue then []
        else [outOfRange file options stream.bytes] := by
  have hkind : (suffix.map Kind.intLit).getD (.intLit .int) = .intLit (suffix.getD .int) := by
    cases suffix <;> rfl
  have hv : (NumberBody.decimal run none none).value?
        ((suffix.map Kind.intLit).getD (.intLit .int)) =
      some (.intOfDecimal (suffix.getD .int) (digitsValue 10 run.digits)) := by
    rw [hkind]
    exact NumberBody.value?_eq_some_iff.2 (.decimalInt run _)
  obtain ⟨l, hopen, hreads⟩ := open?_readsNumber file options hv h hdecimal
  refine ⟨l, hopen, fun table => ?_⟩
  obtain ⟨hend, -, hint, -, hbase, hdiags⟩ := hreads table
  refine ⟨hend, ?_, hbase, ?_⟩
  · rw [hint, toInt_ofNat_eq_bmod, NumberValue.intOfDecimal, NumberValue.ofInt]
  · rw [hdiags]
    exact if_congr NumberValue.inRange_intOfDecimal rfl rfl

example : IntType.all.map IntType.maxValue =
    [9223372036854775807, 127, 32767, 2147483647, 9223372036854775807,
      18446744073709551615, 255, 65535, 4294967295, 18446744073709551615] := by decide

/-- One more than 64 bits have room for, in groups, and the suffix of the widest type. -/
def wrappedInteger : ByteStream :=
  ⟨[.chunk 49 [56, 95, 52, 52, 54, 55, 52, 52], .interruption,
    .chunk 48 [55, 51, 55, 48, 57, 53, 53, 49, 54, 49, 55, 85]], .closed⟩

theorem open?_decimalInteger_wrappedInteger :
    0 < 1 ∧
      Number.Written (.decimal ⟨wrappedInteger.bytes.dropLast, false⟩ none none)
        ((some IntType.uint).map .intLit) wrappedInteger.bytes ∧
      ∃ l, open? {} wrappedInteger (Options.withWindow {} 1) = .ok l ∧
        ∀ table, (l.next table).token.int = 1 ∧
          l.diagnostics table = [⟨⟨{}, 1, 0⟩, .numberOutOfRange "18_446744073709551617U"⟩] := by
  have hrun : DigitRun.Grouped Byte.isDigit wrappedInteger.bytes.dropLast := by
    have hscan : (DigitRun.scan Byte.isDigit wrappedInteger.bytes).text =
        wrappedInteger.bytes.dropLast := by decide
    rw [← hscan]
    exact DigitRun.grouped_scan rfl _
  have hsuffix : Suffix.Written [85] (some (.intLit .uint)) := .plain (by decide)
  have hbody : NumberBody.Written (.decimal ⟨wrappedInteger.bytes.dropLast, false⟩ none none)
      wrappedInteger.bytes.dropLast := by
    have hparts := NumberBody.Written.decimal hrun .absent .absent
    rwa [List.append_nil, List.append_nil] at hparts
  have hwritten : Number.Written (.decimal ⟨wrappedInteger.bytes.dropLast, false⟩ none none)
      ((some IntType.uint).map .intLit) wrappedInteger.bytes := by
    have hbytes : wrappedInteger.bytes = wrappedInteger.bytes.dropLast ++ [85] := by decide
    rw [hbytes]
    refine .mk hbody hsuffix ?_
    rintro c hc
    obtain rfl := Option.some.inj hc
    decide
  refine ⟨by decide, hwritten, ?_⟩
  obtain ⟨l, hopen, hcalls⟩ :=
    open?_decimalInteger {} wrappedInteger (Options.withWindow {} 1) (by decide) hwritten
  refine ⟨l, hopen, fun table => ?_⟩
  obtain ⟨-, hint, -, hdiags⟩ := hcalls table
  have hreading : (BitVec.ofNat 64 (digitsValue 10
      (DigitRun.digits ⟨wrappedInteger.bytes.dropLast, false⟩))).toInt = 1 := by decide +kernel
  have hquoted : outOfRange {} (Options.withWindow {} 1) wrappedInteger.bytes =
      ⟨⟨{}, 1, 0⟩, .numberOutOfRange "18_446744073709551617U"⟩ := by decide +kernel
  refine ⟨hint.trans hreading, ?_⟩
  rw [hdiags, if_neg (by decide +kernel), hquoted]

/-- A decimal integer without a suffix gets the 64-bit type exactly if its low 64 bits need more
than 31 of them. That is what the number itself asks for, but for numbers beyond 64 bits that leave
little behind. -/
theorem open?_promotes (file : FileId) (stream : ByteStream) (options : Options)
    (h : 0 < options.bufferSize) {run : DigitRun}
    (hdecimal : Number.Written (.decimal run none none) none stream.bytes) :
    ∃ l, open? file stream options = .ok l ∧ ∀ table,
      (l.next table).token.kind =
          .intLit (if pow2 31 - 1 < digitsValue 10 run.digits % pow2 64 then .int64 else .int) ∧
        ((l.next table).token.kind =
            .intLit (if pow2 31 - 1 < digitsValue 10 run.digits then .int64 else .int) ↔
          ¬(pow2 64 ≤ digitsValue 10 run.digits ∧
            digitsValue 10 run.digits % pow2 64 ≤ pow2 31 - 1)) := by
  have hv : (NumberBody.decimal run none none).value? (.intLit .int) =
      some (.intOfDecimal .int (digitsValue 10 run.digits)) :=
    NumberBody.value?_eq_some_iff.2 (.decimalInt run .int)
  obtain ⟨l, hopen, hreads⟩ := open?_readsNumber file options hv h hdecimal
  refine ⟨l, hopen, fun table => ?_⟩
  generalize hn : digitsValue 10 run.digits = n at hreads
  have hkind : (l.next table).token.kind =
      .intLit (if pow2 31 - 1 < n % pow2 64 then .int64 else .int) := by
    rw [(hreads table).kind_eq]
    refine congrArg Kind.intLit (if_congr ?_ rfl rfl)
    exact and_iff_right rfl
  refine ⟨hkind, ?_⟩
  rw [hkind, Kind.intLit.injEq]
  by_cases hfits : n < pow2 64
  · rw [Nat.mod_eq_of_lt hfits]
    exact iff_of_true rfl fun hlost => Nat.not_le.2 hfits hlost.1
  · have hlarge : pow2 31 - 1 < n := Nat.lt_of_lt_of_le (by decide) (Nat.not_lt.1 hfits)
    rw [if_pos hlarge]
    split
    · rename_i hlow
      exact iff_of_true rfl fun hlost => Nat.not_le.2 hlow hlost.2
    · rename_i hlow
      exact iff_of_false IntType.noConfusion
        (not_not_intro ⟨Nat.not_lt.1 hfits, Nat.not_lt.1 hlow⟩)

/-- 2³² in groups. -/
def groupedInteger : ByteStream :=
  ⟨[.chunk 52 [95, 50, 57, 52], .interruption, .chunk 95 [57, 54, 55, 95, 50, 57, 54]], .closed⟩

theorem open?_promotes_groupedInteger :
    0 < 1 ∧ Number.Written (.decimal ⟨groupedInteger.bytes, false⟩ none none) none
        groupedInteger.bytes ∧
      ∃ l, open? {} groupedInteger (Options.withWindow {} 1) = .ok l ∧
        ∀ table, (l.next table).token.kind = .intLit .int64 := by
  have hrun : DigitRun.Grouped Byte.isDigit groupedInteger.bytes := by
    have hscan : (DigitRun.scan Byte.isDigit groupedInteger.bytes).text =
        groupedInteger.bytes := by decide
    rw [← hscan]
    exact DigitRun.grouped_scan rfl _
  have hwritten : Number.Written (.decimal ⟨groupedInteger.bytes, false⟩ none none) none
      groupedInteger.bytes := by
    have hmk := Number.Written.mk (.decimal hrun .absent .absent) .absent fun _ => nofun
    rwa [List.append_nil, List.append_nil, List.append_nil] at hmk
  refine ⟨by decide, hwritten, ?_⟩
  obtain ⟨l, hopen, hcalls⟩ :=
    open?_promotes {} groupedInteger (Options.withWindow {} 1) (by decide) hwritten
  refine ⟨l, hopen, fun table => ?_⟩
  rw [(hcalls table).1, if_pos (by decide +kernel)]

/-- The number 2⁶⁴ leaves nothing in a word, and so it is not promoted. -/
theorem open?_kind_pow2_64 :
    digitsValue 10 (Byte.ofAscii "18446744073709551616") = pow2 64 ∧
      pow2 31 - 1 < digitsValue 10 (Byte.ofAscii "18446744073709551616") ∧
      ∃ l, open? {} (.ofBytes (Byte.ofAscii "18446744073709551616")) {} = .ok l ∧
        (l.turn (fun _ => .fresh) 0).token.kind = .intLit .int ∧
        (l.turn (fun _ => .fresh) 0).token.kind ≠ .intLit .int64 := by
  refine ⟨by decide +kernel, by decide +kernel, _, open?_eq_ok {} _ {} (by decide), ?_⟩
  simp only [token_turn_ofStream]
  decide +kernel

end Lexer
end Lexeme
