import Lexeme.Lexer.Piece

/-!
# How far a token on one line reaches

Every scanner takes at least one byte and never more than its line has, on malformed text too: an
escape that breaks off, a literal without an end, digits that are missing. `Piece.Fits` says so
of a piece, and `Piece.fits_ofBytes` and `Piece.fits_ofString` of every token on one line.
-/

set_option autoImplicit false

namespace Lexeme

/-- The kinds that a token on one line may have: it is neither a comment nor the end of the
input. -/
def Kind.isPiece : Kind → Bool
  | .eof | .comment => false
  | _ => true

/-- The kinds of strings and characters. -/
def Kind.isQuoted : Kind → Bool
  | .strLit _ | .charLit => true
  | _ => false

/-- The kinds that a number may have; a refused one is invalid. -/
def Kind.isNumber : Kind → Bool
  | .invalid | .intLit _ | .floatLit _ => true
  | _ => false

theorem Kind.isPiece_of_isNumber {kind : Kind} (h : kind.isNumber = true) :
    kind.isPiece = true := by
  cases kind with
  | eof => cases h
  | comment => cases h
  | _ => rfl

namespace Escape

theorem hexDigits_stop_le (stop : UInt8) (count offset value : Nat) (bytes : List UInt8) :
    (hexDigits stop count offset value bytes).stop ≤ offset + bytes.length := by
  fun_induction hexDigits stop count offset value bytes with
  | case1 offset value bytes => exact Nat.le_add_right _ _
  | case2 count offset value ih => exact ih
  | case3 count offset value b rest digit hd ih => simp only [List.length_cons]; omega
  | case4 count offset value b rest hd hq ih => exact ih
  | case5 count offset value b rest hd hq ih =>
    simp only [HexDigits.cons, List.length_cons]
    omega

theorem bracedDigits_stop_le (stop : UInt8) (offset value : Nat) (bytes : List UInt8) :
    (bracedDigits stop offset value bytes).stop ≤ offset + bytes.length := by
  fun_induction bracedDigits stop offset value bytes with
  | case1 offset value => exact Nat.le_refl _
  | case2 offset value b rest hb => exact Nat.le_add_right _ _
  | case3 offset value b rest hb hq => exact Nat.le_add_right _ _
  | case4 offset value b rest hb hq digit hd ih => simp only [List.length_cons]; omega
  | case5 offset value b rest hb hq hd ih =>
    simp only [HexDigits.cons, List.length_cons]
    omega

theorem length_braced_le (stop : UInt8) (body : List UInt8) :
    (braced stop body).length ≤ body.length := by
  have hs := bracedDigits_stop_le stop 0 0 body
  rw [Nat.zero_add] at hs
  have hlen : (bracedDigits stop 0 0 body).stop +
      (if (body.drop (bracedDigits stop 0 0 body).stop).head? = some Byte.braceRight
        then 1 else 0) ≤ body.length := by
    split
    · rename_i hb
      rw [List.head?_drop] at hb
      exact (List.getElem?_eq_some_iff.1 hb).1
    · exact hs
  unfold braced
  dsimp only
  split
  · exact hlen
  · exact hlen

theorem length_codePoint_le (stop : UInt8) (rest : List UInt8) :
    (codePoint stop rest).length ≤ 1 + rest.length := by
  unfold codePoint
  split
  · rename_i body
    have hb := length_braced_le stop body
    rw [List.length_cons]
    dsimp only
    omega
  · exact hexDigits_stop_le stop 4 1 0 rest

theorem length_decimalByte_le (bytes : List UInt8) :
    (decimalByte bytes).length ≤ bytes.length := by
  have hd : ((bytes.take 3).takeWhile Byte.isDigit).length ≤ bytes.length :=
    ((List.takeWhile_sublist _).trans (List.take_sublist _ _)).length_le
  unfold decimalByte
  dsimp only
  split
  · exact hd
  · exact hd

theorem length_scan_le (ctx : Context) (bytes : List UInt8) :
    (scan ctx bytes).length ≤ bytes.length := by
  cases bytes with
  | nil => exact Nat.le_refl _
  | cons b rest =>
    have hx : (hexByte ctx.stop rest).length ≤ 1 + rest.length :=
      hexDigits_stop_le ctx.stop 2 1 0 rest
    have hu := length_codePoint_le ctx.stop rest
    have hd := length_decimalByte_le (b :: rest)
    rw [List.length_cons] at hd ⊢
    rw [scan]
    dsimp only
    cases simple? b with
    | some byte => exact Nat.le_add_left _ _
    | none =>
      dsimp only
      split
      · exact Nat.le_add_left _ _
      · split
        · exact Nat.le_add_left _ _
        · split
          · omega
          · split
            · dsimp only
              omega
            · split
              · exact hd
              · exact Nat.zero_le _

end Escape

namespace Quoted

theorem plain_stop (ctx : Escape.Context) (offset : Nat) (bytes : List UInt8) :
    offset ≤ (plain ctx offset bytes).stop ∧
      (plain ctx offset bytes).stop ≤ offset + bytes.length := by
  fun_induction plain ctx offset bytes with
  | case1 offset => exact ⟨Nat.le_refl _, Nat.le_refl _⟩
  | case2 offset b rest hb => simp
  | case3 offset b rest hb hs e ih =>
    have he := Escape.length_scan_le ctx rest
    simp only [e, List.length_drop] at ih
    simp only [prepend, e, List.length_cons]
    omega
  | case4 offset b rest hb hs ih =>
    simp only [prepend, List.length_cons]
    omega

theorem raw_stop (offset : Nat) (bytes : List UInt8) :
    offset ≤ (raw offset bytes).stop ∧ (raw offset bytes).stop ≤ offset + bytes.length := by
  fun_induction raw offset bytes with
  | case1 offset => exact ⟨Nat.le_refl _, Nat.le_refl _⟩
  | case2 offset rest ih => simp only [prepend, List.length_cons]; omega
  | case3 offset b rest hne hb => simp
  | case4 offset b rest hne hb ih => simp only [prepend, List.length_cons]; omega

theorem characterContents_stop (ctx : Escape.Context) (bytes : List UInt8) :
    1 ≤ (characterContents ctx bytes).stop ∧
      (characterContents ctx bytes).stop ≤ 1 + bytes.length := by
  cases bytes with
  | nil => exact ⟨Nat.le_refl _, Nat.le_refl _⟩
  | cons b rest =>
    have he := Escape.length_scan_le ctx rest
    rw [List.length_cons, characterContents]
    split
    · exact ⟨Nat.le_refl _, Nat.le_add_right _ _⟩
    · split
      · dsimp only
        omega
      · split
        · dsimp only
          omega
        · dsimp only
          omega

theorem character_stop (ctx : Escape.Context) (bytes : List UInt8) :
    1 ≤ (character ctx bytes).stop ∧ (character ctx bytes).stop ≤ 1 + bytes.length := by
  obtain ⟨hlo, hhi⟩ := characterContents_stop ctx bytes
  unfold character
  dsimp only
  split
  · rename_i hb
    rw [List.head?_drop] at hb
    have hlt := (List.getElem?_eq_some_iff.1 hb).1
    dsimp only
    omega
  · exact ⟨hlo, hhi⟩

end Quoted

theorem Spelling.Symbol.length_scan_le (hash : IdentHash) (line : List UInt8) :
    (scan hash line).bytes.length ≤ line.length := by
  fun_induction scan hash line with
  | case1 hash => exact Nat.le_refl _
  | case2 hash b rest hb ih => exact Nat.succ_le_succ ih
  | case3 hash b rest hb hu hc ih => exact Nat.succ_le_succ ih
  | case4 hash b rest hb hu hc => exact Nat.zero_le _
  | case5 hash b rest hb hu => exact Nat.zero_le _

/-! ## Numbers -/

namespace DigitRun

theorem length_scanFrom_le (isDigit : UInt8 → Bool) (afterDigit : Bool) (line : List UInt8) :
    (scanFrom isDigit afterDigit line).text.length ≤ line.length := by
  fun_induction scanFrom isDigit afterDigit line with
  | case1 afterDigit => exact Nat.le_refl _
  | case2 afterDigit b rest hb ih => exact Nat.succ_le_succ ih
  | case3 afterDigit b rest hb hu hc ih => exact Nat.succ_le_succ ih
  | case4 afterDigit b rest hb hu hc => exact Nat.zero_le _
  | case5 afterDigit b rest hb hu => exact Nat.zero_le _

theorem length_scan_pos {isDigit : UInt8 → Bool} {b : UInt8} (h : isDigit b = true)
    (rest : List UInt8) : 0 < (scan isDigit (b :: rest)).text.length := by
  rw [scan, scanFrom, if_pos h]
  exact Nat.succ_pos _

end DigitRun

namespace NumberBody

theorem length_fractionText_le (line : List UInt8) :
    (fractionText (fraction? line)).length ≤ line.length := by
  unfold fraction?
  split
  · rename_i b rest
    split
    · exact Nat.succ_le_succ (DigitRun.length_scanFrom_le _ _ _)
    · exact Nat.zero_le _
  · exact Nat.zero_le _

theorem length_exponent_scan_le (line : List UInt8) :
    (Exponent.scan line).text.length ≤ 1 + line.length := by
  cases line with
  | nil => exact Nat.le_refl _
  | cons b rest =>
    have hs := DigitRun.length_scanFrom_le Byte.isDigit false rest
    have hr := DigitRun.length_scanFrom_le Byte.isDigit false (b :: rest)
    rw [Exponent.scan]
    split
    · simp only [Exponent.text, DigitRun.scan, List.length_append, List.length_cons,
        Option.toList_some, List.length_nil]
      omega
    · simp only [Exponent.text, DigitRun.scan, List.length_append, List.length_cons,
        Option.toList_none, List.length_nil] at hr ⊢
      omega

theorem length_exponent?_le (line : List UInt8) :
    ((exponent? line).elim [] Exponent.text).length ≤ line.length := by
  cases line with
  | nil => exact Nat.le_refl _
  | cons b rest =>
    have he := length_exponent_scan_le rest
    rw [exponent?]
    split
    · rw [Option.elim_some, List.length_cons]
      omega
    · exact Nat.zero_le _

theorem length_scanDecimal_le (line : List UInt8) :
    (scanDecimal line).length ≤ line.length := by
  have hw := DigitRun.length_scanFrom_le Byte.isDigit false line
  have hf := length_fractionText_le (line.drop (DigitRun.scan Byte.isDigit line).text.length)
  have he := length_exponent?_le ((line.drop (DigitRun.scan Byte.isDigit line).text.length).drop
    (fractionText (fraction? (line.drop (DigitRun.scan Byte.isDigit line).text.length))).length)
  simp only [List.length_drop, DigitRun.scan] at hw hf he
  simp only [scanDecimal, length, text, List.length_append, DigitRun.scan]
  omega

theorem length_scanDecimal_pos {b : UInt8} (h : Byte.isDigit b = true) (rest : List UInt8) :
    0 < (scanDecimal (b :: rest)).length := by
  have hw := DigitRun.length_scan_pos h rest
  simp only [scanDecimal, length, text, List.length_append]
  omega

/-- A body takes the digit it starts with. -/
theorem length_scan {b : UInt8} (h : Byte.isDigit b = true) (rest : List UInt8) :
    0 < (scan (b :: rest)).length ∧ (scan (b :: rest)).length ≤ (b :: rest).length := by
  unfold scan
  split
  · rename_i c rest' heq
    obtain ⟨rfl, rfl⟩ := List.cons.inj heq
    split
    · rename_i mark hm
      have hr := DigitRun.length_scanFrom_le mark.isDigit false rest'
      simp only [length, text, DigitRun.scan, List.length_cons] at hr ⊢
      omega
    · exact ⟨length_scanDecimal_pos h _, length_scanDecimal_le _⟩
  · exact ⟨length_scanDecimal_pos h _, length_scanDecimal_le _⟩

theorem isNumber_kind (b : NumberBody) : b.kind.isNumber = true := by
  fun_cases kind b <;> rfl

theorem isNumber_value? {b : NumberBody} {kind : Kind} {v : NumberValue}
    (h : b.value? kind = some v) : v.kind.isNumber = true := by
  unfold value? at h
  split at h
  · obtain rfl := Option.some.inj h
    rfl
  · obtain rfl := Option.some.inj h
    unfold NumberValue.floatOfPattern
    split <;> rfl
  · obtain rfl := Option.some.inj h
    rfl
  · obtain ⟨d, hd, rfl⟩ := Option.map_eq_some_iff.1 h
    rfl
  · cases h

end NumberBody

namespace Suffix

theorem length_width?_le (line : List UInt8) :
    (width? line).elim 0 Prod.snd ≤ line.length := by
  fun_cases width? line with
  | case1 h => exact (List.isPrefixOf_iff_prefix.1 h).length_le
  | case2 _ h => exact (List.isPrefixOf_iff_prefix.1 h).length_le
  | case3 _ _ h => exact (List.isPrefixOf_iff_prefix.1 h).length_le
  | case4 _ _ _ h => exact (List.isPrefixOf_iff_prefix.1 h).length_le
  | case5 => exact Nat.zero_le _

/-- A suffix takes no more bytes than there are, and tells the kind of a number. -/
structure Fits (room : Nat) (s : Suffix) : Prop where
  le : s.length ≤ room
  isNumber : s.kind.all Kind.isNumber = true

theorem fits_ofFloat (line : List UInt8) : (ofFloat line).Fits (1 + line.length) := by
  fun_cases ofFloat line with
  | case1 h => exact ⟨Nat.add_le_add_left (List.isPrefixOf_iff_prefix.1 h).length_le 1, rfl⟩
  | case2 _ h => exact ⟨Nat.add_le_add_left (List.isPrefixOf_iff_prefix.1 h).length_le 1, rfl⟩
  | case3 _ _ h =>
    exact ⟨Nat.add_le_add_left (List.isPrefixOf_iff_prefix.1 h).length_le 1, rfl⟩
  | case4 => exact ⟨Nat.le_add_right _ _, rfl⟩

theorem fits_ofSigned (line : List UInt8) : (ofSigned line).Fits (1 + line.length) := by
  have hw := length_width?_le line
  unfold ofSigned
  split
  · rename_i width length h
    rw [h] at hw
    exact ⟨Nat.add_le_add_left hw 1, rfl⟩
  · exact ⟨Nat.le_add_right _ _, rfl⟩

theorem fits_ofUnsigned (line : List UInt8) : (ofUnsigned line).Fits (1 + line.length) := by
  have hw := length_width?_le line
  unfold ofUnsigned
  split
  · rename_i width length h
    rw [h] at hw
    exact ⟨Nat.add_le_add_left hw 1, rfl⟩
  · exact ⟨Nat.le_add_right _ _, rfl⟩

theorem fits_ofLetter (line : List UInt8) : (ofLetter line).Fits line.length := by
  cases line with
  | nil => exact ⟨Nat.le_refl _, rfl⟩
  | cons b rest =>
    rw [ofLetter, List.length_cons, Nat.add_comm]
    split
    · exact fits_ofFloat rest
    · split
      · exact ⟨Nat.le_add_right _ _, rfl⟩
      · split
        · exact fits_ofSigned rest
        · split
          · exact fits_ofUnsigned rest
          · exact ⟨Nat.zero_le _, rfl⟩

theorem fits_scan (line : List UInt8) : (scan line).Fits line.length := by
  cases line with
  | nil => exact ⟨Nat.le_refl _, rfl⟩
  | cons b rest =>
    rw [scan]
    split
    · have hl := fits_ofLetter rest
      rw [List.length_cons, Nat.add_comm]
      exact ⟨Nat.add_le_add_left hl.le 1, hl.isNumber⟩
    · split
      · exact fits_ofLetter _
      · exact ⟨Nat.zero_le _, rfl⟩

end Suffix

/-! ## Pieces -/

namespace Piece

/-- A piece takes a byte at least, no more bytes than the line has, and is neither a comment nor
the end of the input. -/
structure Fits (line : List UInt8) (p : Piece) : Prop where
  pos : 0 < p.length
  le : p.length ≤ line.length
  isPiece : p.kind.isPiece = true

theorem isNumber_scan (line : List UInt8) : (Number.scan line).kind.isNumber = true := by
  change (Number.Parts.scan line).kind.isNumber = true
  unfold Number.Parts.kind
  split
  · rfl
  · cases hv : (Number.Parts.scan line).value with
    | none =>
      cases hk : (Number.Parts.scan line).suffix.kind with
      | none => exact NumberBody.isNumber_kind _
      | some kind =>
        have hkind := (Suffix.fits_scan (line.drop (NumberBody.scan line).length)).isNumber
        change (Number.Parts.scan line).suffix.kind.all Kind.isNumber = true at hkind
        rwa [hk] at hkind
    | some v =>
      change (if _ then none else _) = some v at hv
      split at hv
      · cases hv
      · exact NumberBody.isNumber_value? hv

theorem fits_number {b : UInt8} (h : Byte.isDigit b = true) (rest : List UInt8) :
    (Number.scan (b :: rest)).Fits (b :: rest) := by
  obtain ⟨hpos, hle⟩ := NumberBody.length_scan h rest
  have hs := Suffix.fits_scan ((b :: rest).drop (NumberBody.scan (b :: rest)).length)
  have hsl := hs.le
  rw [List.length_drop] at hsl
  refine ⟨Nat.lt_of_lt_of_le hpos (Nat.le_add_right _ _), ?_,
    Kind.isPiece_of_isNumber (isNumber_scan _)⟩
  change (NumberBody.scan (b :: rest)).length + (Suffix.scan _).length ≤ _
  omega

theorem exists_of_dotFollows {rest : List UInt8} (h : dotFollows rest = true) :
    ∃ more, rest = Byte.dot :: more := by
  unfold dotFollows at h
  split at h
  · exact ⟨_, rfl⟩
  · exact ⟨_, rfl⟩
  · cases h

/-- Punctuation is an accent, or a mark whose spelling the line starts with. -/
theorem punctuation?_cases {b : UInt8} {rest : List UInt8} {p : Piece}
    (h : punctuation? b rest = some p) :
    (b = Byte.backtick ∧ p = { kind := .accent, length := 1 }) ∨
      ∃ m, m ∉ Mark.operators ∧ Utf8.encode m.spelling <+: b :: rest ∧
        p = ofMark m (Utf8.encode m.spelling).length := by
  unfold punctuation? at h
  split at h <;> try (obtain rfl := Option.some.inj h)
  · exact .inr ⟨.comma, by decide, ⟨rest, rfl⟩, rfl⟩
  · exact .inr ⟨.semicolon, by decide, ⟨rest, rfl⟩, rfl⟩
  · exact .inl ⟨rfl, rfl⟩
  · exact .inr ⟨.parenRight, by decide, ⟨rest, rfl⟩, rfl⟩
  · exact .inr ⟨.bracketRight, by decide, ⟨rest, rfl⟩, rfl⟩
  · exact .inr ⟨.curlyRight, by decide, ⟨rest, rfl⟩, rfl⟩
  · split
    · rename_i hd
      obtain ⟨more, rfl⟩ := exists_of_dotFollows hd
      exact .inr ⟨.parenDotLeft, by decide, ⟨more, rfl⟩, rfl⟩
    · exact .inr ⟨.parenLeft, by decide, ⟨rest, rfl⟩, rfl⟩
  · split
    · rename_i hd
      obtain ⟨more, rfl⟩ := exists_of_dotFollows hd
      exact .inr ⟨.bracketDotLeft, by decide, ⟨more, rfl⟩, rfl⟩
    · split
      · rename_i hc
        obtain ⟨more, rfl⟩ := List.head?_eq_some_iff.1 hc
        exact .inr ⟨.bracketLeftColon, by decide, ⟨more, rfl⟩, rfl⟩
      · exact .inr ⟨.bracketLeft, by decide, ⟨rest, rfl⟩, rfl⟩
  · split
    · rename_i hd
      obtain ⟨more, rfl⟩ := exists_of_dotFollows hd
      exact .inr ⟨.curlyDotLeft, by decide, ⟨more, rfl⟩, rfl⟩
    · exact .inr ⟨.curlyLeft, by decide, ⟨rest, rfl⟩, rfl⟩
  · obtain ⟨m, hm, rfl⟩ := Option.map_eq_some_iff.1 h
    unfold closingDot? at hm
    split at hm <;> try (obtain rfl := Option.some.inj hm)
    · exact .inr ⟨.bracketDotRight, by decide, ⟨_, rfl⟩, rfl⟩
    · exact .inr ⟨.curlyDotRight, by decide, ⟨_, rfl⟩, rfl⟩
    · exact .inr ⟨.parenDotRight, by decide, ⟨_, rfl⟩, rfl⟩
    · cases hm
  · cases h

theorem fits_punctuation? {b : UInt8} {rest : List UInt8} {p : Piece}
    (h : punctuation? b rest = some p) : p.Fits (b :: rest) := by
  obtain ⟨-, rfl⟩ | ⟨m, -, hprefix, rfl⟩ := punctuation?_cases h
  · exact ⟨by decide, Nat.le_add_left _ _, rfl⟩
  · have hpos : 0 < (Utf8.encode m.spelling).length := by cases m <;> decide
    exact ⟨hpos, hprefix.length_le, rfl⟩

theorem fits_ofSymbol {b : UInt8} (h : Byte.isSymbolStart b = true) (rest : List UInt8) :
    (ofSymbol (b :: rest)).Fits (b :: rest) := by
  refine ⟨?_, Spelling.Symbol.length_scan_le _ _, rfl⟩
  have hb : Byte.isSymbol b = true := by simp [Byte.isSymbol, h]
  change 0 < (Spelling.Symbol.scan .empty (b :: rest)).bytes.length
  rw [Spelling.Symbol.scan, if_pos hb]
  exact Nat.succ_pos _

theorem fits_ofOperator {b : UInt8} (h : Byte.isOperator b = true) (rest : List UInt8) :
    (ofOperator (b :: rest)).Fits (b :: rest) := by
  refine ⟨?_, (List.takeWhile_sublist _).length_le, rfl⟩
  change 0 < ((b :: rest).takeWhile Byte.isOperator).length
  rw [List.takeWhile_cons_of_pos h]
  exact Nat.succ_pos _

theorem fits_ofUnderscore (b : UInt8) (rest : List UInt8) :
    (ofUnderscore rest).Fits (b :: rest) := by
  unfold ofUnderscore
  split
  · exact ⟨by decide, Nat.le_add_left _ _, rfl⟩
  · exact ⟨by decide, Nat.le_add_left _ _, rfl⟩

theorem fits_ofCharacter (ctx : Escape.Context) (b : UInt8) (rest : List UInt8) :
    (ofCharacter ctx (b :: rest)).Fits (b :: rest) := by
  obtain ⟨hpos, hle⟩ := Quoted.character_stop { ctx with inCharacter := true } rest
  refine ⟨hpos, ?_, rfl⟩
  rw [List.length_cons, Nat.add_comm]
  exact hle

/-- The ways to read a piece from its first byte on, strings apart. -/
inductive Way (ctx : Escape.Context) (b : UInt8) (rest : List UInt8) : Prop
  | symbol (hb : Byte.isSymbolStart b = true) (h : ofBytes ctx b rest = ofSymbol (b :: rest))
  | exportMark (hm : Spelling.isExportMark (b :: rest) = true)
      (h : ofBytes ctx b rest = ofSpelling [Byte.star] (some 0))
  | punctuation (p : Piece) (hp : punctuation? b rest = some p) (h : ofBytes ctx b rest = p)
  | underscore (hb : b = Byte.underscore) (h : ofBytes ctx b rest = ofUnderscore rest)
  | character (h : ofBytes ctx b rest = ofCharacter ctx (b :: rest))
  | number (hb : Byte.isDigit b = true) (h : ofBytes ctx b rest = Number.scan (b :: rest))
  | operator (hb : Byte.isOperator b = true) (h : ofBytes ctx b rest = ofOperator (b :: rest))
  | stray (h : ofBytes ctx b rest = Piece.stray b)

theorem way (ctx : Escape.Context) (b : UInt8) (rest : List UInt8) : Way ctx b rest := by
  obtain ⟨p, h⟩ : ∃ p, ofBytes ctx b rest = p := ⟨_, rfl⟩
  have hp := h
  unfold ofBytes at hp
  dsimp only at hp
  split at hp
  · exact .symbol ‹_› (h.trans hp.symm)
  · split at hp
    · exact .exportMark ‹_› (h.trans hp.symm)
    · split at hp
      · exact .punctuation _ ‹_› (h.trans hp.symm)
      · split at hp
        · exact .underscore (beq_iff_eq.1 ‹_›) (h.trans hp.symm)
        · split at hp
          · exact .character (h.trans hp.symm)
          · split at hp
            · exact .number ‹_› (h.trans hp.symm)
            · split at hp
              · exact .operator ‹_› (h.trans hp.symm)
              · exact .stray (h.trans hp.symm)

/-- Every first byte begins a piece, if only a stray one. -/
theorem fits_ofBytes (ctx : Escape.Context) (b : UInt8) (rest : List UInt8) :
    (ofBytes ctx b rest).Fits (b :: rest) := by
  cases way ctx b rest with
  | symbol hb h => rw [h]; exact fits_ofSymbol hb rest
  | exportMark hm h => rw [h]; exact ⟨by decide, Nat.le_add_left _ _, rfl⟩
  | punctuation p hp h => rw [h]; exact fits_punctuation? hp
  | underscore hb h => rw [h]; exact fits_ofUnderscore b rest
  | character h => rw [h]; exact fits_ofCharacter ctx b rest
  | number hb h => rw [h]; exact fits_number hb rest
  | operator hb h => rw [h]; exact fits_ofOperator hb rest
  | stray h => rw [h]; exact ⟨Nat.zero_lt_one, Nat.le_add_left _ _, rfl⟩

end Piece

/-- A string starts with a quote, and its form depends on the byte in front, or with an `r` and a
quote. -/
theorem StringOpening.ofLine?_cases {before : Option UInt8} {line : List UInt8} {o : StringOpening}
    (h : ofLine? before line = some o) :
    (∃ rest, line = Byte.quote :: rest ∧
        o = ⟨if before.any Byte.isSymbol then .generalized else .plain, 0⟩) ∨
      ∃ b rest, line = b :: Byte.quote :: rest ∧ Byte.toLower b = Byte.ofChar 'r' ∧
        o = ⟨.raw, 1⟩ := by
  cases line with
  | nil => cases h
  | cons b rest =>
    rw [ofLine?] at h
    split at h
    · rename_i hb
      obtain rfl := beq_iff_eq.1 hb
      refine .inl ⟨rest, rfl, ?_⟩
      split at h
      · rename_i hsymbol
        rw [if_pos hsymbol, Option.some.inj h]
      · rename_i hsymbol
        rw [if_neg hsymbol, Option.some.inj h]
    · split at h
      · rename_i hr
        rw [Bool.and_eq_true, beq_iff_eq, beq_iff_eq] at hr
        obtain ⟨rest, rfl⟩ := List.head?_eq_some_iff.1 hr.2
        exact .inr ⟨b, rest, rfl, hr.1, (Option.some.inj h).symm⟩
      · cases h

/-- The opening of a string stands on the line. -/
theorem StringOpening.lead_lt {before : Option UInt8} {line : List UInt8} {o : StringOpening}
    (h : ofLine? before line = some o) : o.lead < line.length := by
  obtain ⟨rest, rfl, rfl⟩ | ⟨b, rest, rfl, -, rfl⟩ := ofLine?_cases h
  · exact Nat.succ_pos _
  · exact Nat.le_add_left 2 _

namespace Piece

theorem fits_ofString (ctx : Escape.Context) {before : Option UInt8} {line : List UInt8}
    {o : StringOpening} (h : StringOpening.ofLine? before line = some o) :
    (ofString ctx o line).Fits line := by
  have hlead := StringOpening.lead_lt h
  have hp := Quoted.plain_stop ctx 1 (line.drop (o.lead + 1))
  have hr := Quoted.raw_stop 1 (line.drop (o.lead + 1))
  have hq : 1 ≤ (if o.form = .plain then Quoted.plain ctx 1 (line.drop (o.lead + 1))
        else Quoted.raw 1 (line.drop (o.lead + 1))).stop ∧
      (if o.form = .plain then Quoted.plain ctx 1 (line.drop (o.lead + 1))
        else Quoted.raw 1 (line.drop (o.lead + 1))).stop ≤
          1 + (line.drop (o.lead + 1)).length := by
    split
    · exact hp
    · exact hr
  rw [List.length_drop] at hq
  refine ⟨?_, ?_, rfl⟩
  · exact Nat.lt_of_lt_of_le hq.1 (Nat.le_add_left _ _)
  · change o.lead + _ ≤ line.length
    omega

/-- Looking a name up gives no strings and no characters. -/
theorem isQuoted_of_toToken {p : Piece} {table : IdentTable}
    (h : (p.toToken table).1.kind.isQuoted = true) : p.name = none ∧ p.kind.isQuoted = true := by
  cases hname : p.name with
  | none =>
    rw [toToken, hname] at h
    exact ⟨rfl, h⟩
  | some n =>
    rw [toToken, hname] at h
    change (n.role.kind _).isQuoted = true at h
    unfold NameRole.kind at h
    split at h
    · generalize Ident.keywordOf? (table.internBytes n.bytes n.hash).1.id = keyword at h
      cases keyword <;> cases h
    · generalize Ident.markOf? (table.internBytes n.bytes n.hash).1.id = mark at h
      cases mark <;> cases h

/-- Strings apart, only an apostrophe begins a piece that is quoted. -/
theorem ofBytes_of_isQuoted {ctx : Escape.Context} {b : UInt8} {rest : List UInt8}
    {table : IdentTable} (h : ((ofBytes ctx b rest).toToken table).1.kind.isQuoted = true) :
    ofBytes ctx b rest = ofCharacter ctx (b :: rest) := by
  obtain ⟨hname, hkind⟩ := isQuoted_of_toToken h
  cases way ctx b rest with
  | character heq => exact heq
  | symbol hb heq => rw [heq] at hname; cases hname
  | exportMark hm heq => rw [heq] at hname; cases hname
  | punctuation p hp heq =>
    rw [heq] at hkind
    obtain ⟨-, rfl⟩ | ⟨m, -, -, rfl⟩ := punctuation?_cases hp
    · cases hkind
    · cases hkind
  | underscore hb heq =>
    rw [heq, ofUnderscore] at hkind
    split at hkind
    · cases hkind
    · cases hkind
  | number hb heq =>
    have hnumber := isNumber_scan (b :: rest)
    rw [← heq] at hnumber
    generalize (ofBytes ctx b rest).kind = kind at hkind hnumber
    cases kind with
    | strLit form => cases hnumber
    | charLit => cases hnumber
    | _ => cases hkind
  | operator hb heq => rw [heq] at hname; cases hname
  | stray heq => rw [heq] at hkind; cases hkind

/-- Looking a name up gives words and operators, and leaves other pieces as they are. -/
theorem isPiece_toToken {p : Piece} (h : p.kind.isPiece = true) (table : IdentTable) :
    (p.toToken table).1.kind.isPiece = true := by
  unfold toToken
  dsimp only
  split
  · exact h
  · rename_i n hn
    change (n.role.kind _).isPiece = true
    unfold NameRole.kind
    split
    · cases Ident.keywordOf? _ <;> rfl
    · cases Ident.markOf? _ <;> rfl

end Piece
end Lexeme
