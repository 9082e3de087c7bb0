import Lexeme.Proofs.Literal.Extent
import Lexeme.Proofs.Literal.DigitWord

/-!
# Tokens that no error was reported about

Whatever a scanner makes do with is reported. So a token without an error is what it says: it is
no stray byte, a character literal holds one byte, and an integer is a value of its type.
-/

set_option autoImplicit false

namespace Lexeme

/-! ## Ranges of integers -/

namespace IntType

/-- The least and the largest integer that a token of the type may carry. A decimal literal has no
sign, and without a suffix it is of the 64-bit type where it needs more than 32 bits. A pattern of
64 bits is kept as a signed number even if the type is unsigned. -/
def bounds (type : IntType) (base : Base) : Int × Int :=
  if type.isUnsigned && type.width < 64 then (0, pow2 type.width - 1)
  else if type = .int ∧ base = .decimal then (0, pow2 31 - 1)
  else if type = .int64 ∧ base = .decimal then (0, pow2 63 - 1)
  else (-pow2 (type.width - 1), pow2 (type.width - 1) - 1)

def Admits (type : IntType) (base : Base) (value : Int) : Prop :=
  (type.bounds base).1 ≤ value ∧ value ≤ (type.bounds base).2

instance (type : IntType) (base : Base) (value : Int) : Decidable (type.Admits base value) :=
  inferInstanceAs (Decidable (_ ∧ _))

theorem width_mem (type : IntType) : 0 < type.width ∧ type.width ≤ 64 := by
  cases type <;> decide

/-- The signed range of a width. -/
theorem bmod_bounds (n : Nat) {w : Nat} (hw : 0 < w) :
    -pow2 (w - 1) ≤ (n : Int).bmod (pow2 w) ∧ (n : Int).bmod (pow2 w) ≤ pow2 (w - 1) - 1 := by
  obtain ⟨k, rfl⟩ : ∃ k, w = k + 1 := ⟨w - 1, by omega⟩
  have hpow : pow2 (k + 1) = 2 * pow2 k := by rw [pow2, Nat.pow_eq, Nat.pow_succ']; rfl
  have hpos : 0 < pow2 k := Nat.two_pow_pos k
  have hlow := Int.le_bmod (x := (n : Int)) (m := pow2 (k + 1)) (by omega)
  have hhigh := Int.bmod_lt (x := (n : Int)) (m := pow2 (k + 1)) (by omega)
  rw [Nat.add_sub_cancel]
  omega

/-- A bit pattern is read as a value of the type. -/
theorem admits_wrap (type : IntType) {base : Base} (h : base ≠ .decimal) (n : Nat) :
    type.Admits base (type.wrap n) := by
  rw [Admits, bounds, wrap]
  split
  · have hlt : n % pow2 type.width < pow2 type.width := Nat.mod_lt n (Nat.two_pow_pos _)
    omega
  · rw [if_neg (fun hd => h hd.2), if_neg (fun hd => h hd.2)]
    exact bmod_bounds n type.width_mem.1

end IntType

namespace NumberValue

/-- Below the sign bit, the low 64 bits of a number are the number itself. -/
theorem low_eq {n : Nat} (h : n < pow2 63) : (n : Int).bmod (pow2 64) = n ∧ n % pow2 64 = n := by
  have hpow : pow2 64 = 2 * pow2 63 := rfl
  exact ⟨Int.bmod_eq_of_le_mul_two (by omega) (by omega), Nat.mod_eq_of_lt (by omega)⟩

theorem pow2_le_pow2 {m n : Nat} (h : m ≤ n) : pow2 m ≤ pow2 n :=
  Nat.pow_le_pow_right (by decide) h

/-- A decimal number without a suffix goes over to the 64-bit type in time. -/
theorem admits_unsuffixed {n : Nat} (h : n < pow2 63) :
    (decimalType .int n).Admits .decimal n := by
  rw [decimalType]
  split
  · constructor
    · exact Int.natCast_nonneg n
    · change (n : Int) ≤ pow2 63 - 1
      omega
  · rename_i hsmall
    have hle : n ≤ pow2 31 - 1 := by simpa using hsmall
    have hpos : 0 < pow2 31 := Nat.two_pow_pos 31
    constructor
    · exact Int.natCast_nonneg n
    · change (n : Int) ≤ pow2 31 - 1
      omega

/-- A decimal number that fits its type is a value of the type that its token gets. -/
theorem admits_decimal {declared : IntType} {n : Nat} (h : n ≤ declared.maxValue) :
    (decimalType declared (n % pow2 64)).Admits .decimal ((n : Int).bmod (pow2 64)) := by
  by_cases hint : declared = .int
  · subst hint
    have hlt : n < pow2 63 := Nat.lt_of_le_pred (by decide) h
    obtain ⟨hvalue, hlow⟩ := low_eq hlt
    rw [hvalue, hlow]
    exact admits_unsuffixed hlt
  · have hwidth := declared.width_mem
    have hpos : ∀ w, 0 < pow2 w := Nat.two_pow_pos
    rw [decimalType, if_neg (fun hd => hint hd.1), IntType.Admits, IntType.bounds]
    rw [IntType.maxValue] at h
    cases hsign : declared.isUnsigned with
    | true =>
      have hne : declared ≠ .int64 := by
        rintro rfl
        cases hsign
      rw [hsign, if_pos rfl] at h
      by_cases hnarrow : declared.width < 64
      · have hle := pow2_le_pow2 (m := declared.width) (n := 63) (by omega)
        obtain ⟨hvalue, -⟩ := low_eq (n := n) (by have := hpos declared.width; omega)
        rw [if_pos (by simp [hnarrow]), hvalue]
        have := hpos declared.width
        omega
      · have hfull : declared.width = 64 := by omega
        rw [if_neg (by simp [hnarrow]), if_neg (fun hd => hint hd.1), if_neg (fun hd => hne hd.1),
          hfull]
        exact IntType.bmod_bounds n (by decide)
    | false =>
      rw [hsign, if_neg Bool.false_ne_true] at h
      have hle := pow2_le_pow2 (m := declared.width - 1) (n := 63) (by omega)
      have hone := hpos (declared.width - 1)
      obtain ⟨hvalue, -⟩ := low_eq (n := n) (by omega)
      rw [if_neg (by simp), if_neg (fun hd => hint hd.1), hvalue]
      split
      · omega
      · omega

end NumberValue

/-! ## Well-formed tokens -/

structure Token.WellFormed (t : Token) : Prop where
  kind_ne : t.kind ≠ .invalid
  length_literal : t.kind = .charLit → t.literal.length = 1
  admits_int : ∀ type, t.kind = .intLit type → type.Admits t.base t.int

/-- The kinds of tokens that may be malformed. -/
def Kind.isFragile : Kind → Bool
  | .invalid | .charLit | .intLit _ => true
  | _ => false

theorem Token.WellFormed.of_kind {t : Token} (h : t.kind.isFragile = false) : t.WellFormed := by
  refine ⟨?_, ?_, ?_⟩
  · intro hkind
    rw [hkind] at h
    cases h
  · intro hkind
    rw [hkind] at h
    cases h
  · intro type hkind
    rw [hkind] at h
    cases h

/-- None of the findings is an error. -/
def ErrorFree (fs : List Finding) : Prop := ∀ f ∈ fs, f.message.severity ≠ .error

namespace ErrorFree

variable {fs gs : List Finding}

theorem nil : ErrorFree [] := List.forall_mem_nil _

theorem append_iff : ErrorFree (fs ++ gs) ↔ ErrorFree fs ∧ ErrorFree gs :=
  List.forall_mem_append

theorem not_cons {f : Finding} (h : f.message.severity = .error) : ¬ErrorFree (f :: fs) :=
  fun hfree => hfree f List.mem_cons_self h

theorem shift_iff {n : Nat} : ErrorFree (fs.map (Finding.shift n)) ↔ ErrorFree fs :=
  List.forall_mem_map

end ErrorFree

/-! ## Characters -/

namespace Escape

/-- The escape stands for one byte, or it is an error. -/
def IsByte (e : Escape) : Prop := ErrorFree e.findings → e.bytes.length = 1

theorem isByte_decimalByte (bytes : List UInt8) : (decimalByte bytes).IsByte := by
  rw [decimalByte]
  split
  · exact fun _ => rfl
  · exact fun h => absurd (ErrorFree.append_iff.1 h).2 (ErrorFree.not_cons rfl)

/-- In a character, escapes that stand for no byte or for several are errors. -/
theorem isByte_scan {ctx : Context} (hctx : ctx.inCharacter = true) (bytes : List UInt8) :
    (scan ctx bytes).IsByte := by
  have hrefused : ∀ {bytes length message fs}, Message.severity message = .error →
      IsByte ⟨bytes, length, ⟨0, message⟩ :: fs⟩ :=
    fun herror h => absurd h (ErrorFree.not_cons herror)
  cases bytes with
  | nil => exact hrefused rfl
  | cons b rest =>
    rw [scan]
    dsimp only
    rw [hctx]
    split
    · exact fun _ => rfl
    · split
      · exact fun _ => rfl
      · split
        · exact hrefused rfl
        · split
          · exact fun _ => rfl
          · split
            · exact hrefused rfl
            · split
              · exact isByte_decimalByte (b :: rest)
              · exact hrefused rfl

end Escape

namespace Quoted

theorem length_bytes_characterContents {ctx : Escape.Context} (hctx : ctx.inCharacter = true)
    {bytes : List UInt8} (h : ErrorFree (characterContents ctx bytes).findings) :
    (characterContents ctx bytes).bytes.length = 1 := by
  cases bytes with
  | nil => exact absurd h (ErrorFree.not_cons rfl)
  | cons b rest =>
    revert h
    rw [characterContents]
    split
    · exact fun h => absurd h (ErrorFree.not_cons rfl)
    · split
      · exact fun h => absurd h (ErrorFree.not_cons rfl)
      · split
        · exact fun h => Escape.isByte_scan hctx rest (ErrorFree.shift_iff.1 h)
        · exact fun _ => rfl

theorem length_bytes_character {ctx : Escape.Context} (hctx : ctx.inCharacter = true)
    {bytes : List UInt8} (h : ErrorFree (character ctx bytes).findings) :
    (character ctx bytes).bytes.length = 1 := by
  revert h
  rw [character]
  split
  · exact length_bytes_characterContents hctx
  · exact fun h => absurd (ErrorFree.append_iff.1 h).2 (ErrorFree.not_cons rfl)

end Quoted

/-! ## Numbers -/

/-- The base that a body is written in. -/
def NumberBody.base : NumberBody → Base
  | pattern mark _ => mark.base
  | decimal _ _ _ => .decimal

theorem BaseMark.base_ne_decimal (mark : BaseMark) : mark.base ≠ .decimal := by
  cases mark <;> decide

theorem NumberValue.kind_floatOfBits (type : FloatType) (n : Nat) :
    (floatOfBits type n).kind = .floatLit type := by
  cases type <;> rfl

/-- The value of a body is a bit pattern or a decimal integer, or no integer at all. -/
theorem NumberBody.value?_cases {body : NumberBody} {kind : Kind} {v : NumberValue}
    (h : body.value? kind = some v) :
    (∃ type n, body.base ≠ .decimal ∧ v = .intOfBits type n) ∨
      (∃ type n, body.base = .decimal ∧ v = .intOfDecimal type n) ∨
      ∃ type, v.kind = .floatLit type := by
  cases value?_eq_some_iff.1 h with
  | patternInt mark run type => exact .inl ⟨_, _, mark.base_ne_decimal, rfl⟩
  | patternFloat mark run type => exact .inr (.inr ⟨_, NumberValue.kind_floatOfBits _ _⟩)
  | decimalInt whole type => exact .inr (.inl ⟨_, _, rfl, rfl⟩)
  | decimalFloat type hdouble => exact .inr (.inr ⟨_, rfl⟩)

theorem NumberBody.kind_value? {body : NumberBody} {kind : Kind} {v : NumberValue}
    (h : body.value? kind = some v) : v.kind ≠ .invalid ∧ v.kind ≠ .charLit := by
  rcases value?_cases h with ⟨t, n, -, rfl⟩ | ⟨t, n, -, rfl⟩ | ⟨t, hfloat⟩
  · exact ⟨Kind.noConfusion, Kind.noConfusion⟩
  · exact ⟨Kind.noConfusion, Kind.noConfusion⟩
  · rw [hfloat]
    exact ⟨Kind.noConfusion, Kind.noConfusion⟩

/-- A value in range that is an integer is one of its type. -/
theorem NumberBody.admits_value? {body : NumberBody} {kind : Kind} {v : NumberValue}
    (h : body.value? kind = some v) (hrange : v.inRange = true) {type : IntType}
    (hkind : v.kind = .intLit type) : type.Admits body.base v.int := by
  rcases value?_cases h with ⟨t, n, hbase, rfl⟩ | ⟨t, n, hbase, rfl⟩ | ⟨t, hfloat⟩
  · obtain rfl := Kind.intLit.inj hkind
    exact IntType.admits_wrap t hbase n
  · obtain rfl := Kind.intLit.inj hkind
    have hle : n ≤ t.maxValue := of_decide_eq_true hrange
    simp only [hbase, NumberValue.intOfDecimal, NumberValue.ofInt]
    exact NumberValue.admits_decimal hle
  · rw [hfloat] at hkind
    cases hkind

namespace Number

namespace Parts

/-- The kind that a literal declares, by its suffix or its form. -/
def declaredKind (p : Parts) : Kind := p.suffix.kind.getD p.body.kind

theorem value_scan {line : List UInt8} (h : (scan line).refused = false) :
    (scan line).value = (scan line).body.value? (scan line).declaredKind := by
  change (if (scan line).refused then none else _) = _
  rw [h]
  rfl

theorem base_eq {p : Parts} (h : p.refused = false) : p.base = p.body.base := by
  obtain ⟨body, suffix, value, refused⟩ := p
  cases body with
  | pattern mark run => exact if_neg (by simp [show refused = false from h])
  | decimal whole fraction exponent => rfl

theorem kind_eq {p : Parts} {v : NumberValue} (h : p.refused = false) (hv : p.value = some v) :
    p.kind = v.kind := by
  rw [kind, h, hv]
  rfl

/-- What is refused is the capital mark of octal numbers. -/
theorem refused_scan_eq_false_iff {line : List UInt8} :
    (scan line).refused = false ↔ ∀ run, NumberBody.scan line ≠ .pattern .badOct run := by
  unfold scan
  dsimp only
  split
  · rename_i run hbody
    exact iff_of_false Bool.noConfusion fun h => h run hbody
  · rename_i hbody
    exact iff_of_true rfl hbody

/-- A number that no error was reported about has a value, and the value fits its type. -/
theorem value_of_errorFree {line : List UInt8} (h : ErrorFree (Number.scan line).findings) :
    ∃ v, (Parts.scan line).refused = false ∧ (Parts.scan line).value = some v ∧
      v.inRange = true := by
  rw [Number.scan, ErrorFree.append_iff, ErrorFree.append_iff, ErrorFree.append_iff] at h
  obtain ⟨⟨⟨hmark, -⟩, hvalue⟩, -⟩ := h
  have hrefused : (Parts.scan line).refused = false := by
    rw [refused_scan_eq_false_iff]
    intro run hbody
    change ErrorFree (markFindings line (NumberBody.scan line)) at hmark
    rw [hbody] at hmark
    exact absurd hmark (ErrorFree.not_cons rfl)
  rw [Parts.valueFindings] at hvalue
  split at hvalue
  · exact absurd hvalue (ErrorFree.not_cons rfl)
  · rename_i hform
    split at hvalue
    · exact absurd hvalue (ErrorFree.not_cons rfl)
    · rename_i hrange
      cases hv : (Parts.scan line).value with
      | none => exact absurd (by simp [isMalformed, hv, hrefused]) hform
      | some v => exact ⟨v, hrefused, rfl, by simpa [hv] using hrange⟩

end Parts
end Number

/-! ## Pieces -/

namespace Piece

theorem isFragile_toToken {p : Piece} (h : p.name.isSome = true) (table : IdentTable) :
    (p.toToken table).1.kind.isFragile = false := by
  obtain ⟨n, hn⟩ := Option.isSome_iff_exists.1 h
  rw [toToken, hn]
  change (n.role.kind _).isFragile = false
  cases n.role with
  | word =>
    rw [NameRole.kind]
    cases Ident.keywordOf? _ <;> rfl
  | operator =>
    rw [NameRole.kind]
    cases Ident.markOf? _ <;> rfl

/-- A piece becomes a well-formed token, or there is an error in it. -/
def IsSound (p : Piece) : Prop :=
  ErrorFree p.findings → ∀ table, (p.toToken table).1.WellFormed

theorem isSound_of_name {p : Piece} (h : p.name.isSome = true) : p.IsSound :=
  fun _ table => .of_kind (isFragile_toToken h table)

theorem isSound_of_kind {p : Piece} (hname : p.name = none) (h : p.kind.isFragile = false) :
    p.IsSound := by
  intro _ table
  rw [toToken, hname]
  exact .of_kind h

theorem isSound_stray (b : UInt8) : (stray b).IsSound :=
  fun h => absurd h (ErrorFree.not_cons rfl)

theorem isSound_ofCharacter (ctx : Escape.Context) (line : List UInt8) :
    (ofCharacter ctx line).IsSound := by
  intro h table
  refine ⟨Kind.noConfusion, fun _ => ?_, fun _ => Kind.noConfusion⟩
  exact Quoted.length_bytes_character rfl h

theorem isSound_number (line : List UInt8) : (Number.scan line).IsSound := by
  intro h table
  obtain ⟨v, hrefused, hv, hrange⟩ := Number.Parts.value_of_errorFree h
  have hvalue := (Number.Parts.value_scan hrefused).symm.trans hv
  have hkind : (Number.scan line).kind = v.kind := Number.Parts.kind_eq hrefused hv
  have hint : (Number.scan line).int = v.int := by rw [Number.scan, hv]; rfl
  have hbase : (Number.scan line).base = (Number.Parts.scan line).body.base :=
    Number.Parts.base_eq hrefused
  obtain ⟨hinvalid, hchar⟩ := NumberBody.kind_value? hvalue
  constructor
  · change (Number.scan line).kind ≠ .invalid
    rwa [hkind]
  · intro hcharLit
    change (Number.scan line).kind = .charLit at hcharLit
    exact absurd (hkind.symm.trans hcharLit) hchar
  · intro type htype
    change (Number.scan line).kind = .intLit type at htype
    change type.Admits (Number.scan line).base (Number.scan line).int
    rw [hbase, hint]
    exact NumberBody.admits_value? hvalue hrange (hkind.symm.trans htype)

theorem isSound_punctuation? {b : UInt8} {rest : List UInt8} {p : Piece}
    (h : punctuation? b rest = some p) : p.IsSound := by
  obtain ⟨-, rfl⟩ | ⟨m, -, -, rfl⟩ := punctuation?_cases h
  · exact isSound_of_kind rfl rfl
  · exact isSound_of_kind rfl rfl

theorem isSound_ofBytes (ctx : Escape.Context) (b : UInt8) (rest : List UInt8) :
    (ofBytes ctx b rest).IsSound := by
  cases way ctx b rest with
  | symbol hb h => rw [h]; exact isSound_of_name rfl
  | exportMark hm h => rw [h]; exact isSound_of_name rfl
  | punctuation p hp h => rw [h]; exact isSound_punctuation? hp
  | underscore hb h =>
    rw [h, ofUnderscore]
    split
    · exact isSound_stray _
    · exact isSound_of_name rfl
  | character h => rw [h]; exact isSound_ofCharacter ctx (b :: rest)
  | number hb h => rw [h]; exact isSound_number (b :: rest)
  | operator hb h => rw [h]; exact isSound_of_name rfl
  | stray h => rw [h]; exact isSound_stray b

theorem isSound_ofString (ctx : Escape.Context) (o : StringOpening) (line : List UInt8) :
    (ofString ctx o line).IsSound :=
  isSound_of_kind rfl rfl

end Piece

end Lexeme
