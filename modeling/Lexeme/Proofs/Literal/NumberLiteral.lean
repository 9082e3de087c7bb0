import Lexeme.Proofs.Literal.NumberGrammar
import Lexeme.Proofs.Literal.WellFormed

/-!
# Number literals

A text is a number literal if it spells a body and a suffix, and the kind it declares has room for
its value. The scanner takes all of a line without a complaint exactly if the line is one, and then
finds the base and the kind that the spelling gives it.
-/

set_option autoImplicit false

namespace Lexeme

namespace NumberValue

theorem inRange_intOfBits {type : IntType} {n : Nat} :
    (intOfBits type n).inRange = true ↔ n < pow2 type.width :=
  decide_eq_true_iff

theorem inRange_floatOfBits {type : FloatType} {n : Nat} :
    (floatOfBits type n).inRange = true ↔ n < pow2 (if type = .float32 then 32 else 64) := by
  cases type <;> exact decide_eq_true_iff

theorem inRange_intOfDecimal {type : IntType} {n : Nat} :
    (intOfDecimal type n).inRange = true ↔ n ≤ type.maxValue :=
  decide_eq_true_iff

end NumberValue

namespace NumberBody

/-- Whether a number of the kind can be written by the body. The bits of a pattern have to fit the
width of the kind and a decimal integer its type; a decimal number with a fraction or an exponent
is no integer. -/
def Admits (body : NumberBody) : Kind → Prop
  | .intLit type =>
    match body with
    | pattern mark run => digitsValue mark.radix run.digits < pow2 type.width
    | decimal whole none none => digitsValue 10 whole.digits ≤ type.maxValue
    | decimal _ _ _ => False
  | .floatLit type =>
    match body with
    | pattern mark run =>
      digitsValue mark.radix run.digits < pow2 (if type = .float32 then 32 else 64)
    | decimal _ _ _ => True
  | _ => False

/-- The kind of a literal without a suffix. -/
def literalKind : NumberBody → Kind
  | pattern _ _ => .intLit .int
  | decimal whole none none =>
    if pow2 31 - 1 < digitsValue 10 whole.digits then .intLit .int64 else .intLit .int
  | decimal _ _ _ => .floatLit .float

/-- A value in range says that the body can be a number of the kind. -/
theorem admits_of_value? {body : NumberBody} {kind : Kind} {v : NumberValue}
    (h : body.value? kind = some v) (hrange : v.inRange = true) : body.Admits kind := by
  cases value?_eq_some_iff.1 h with
  | patternInt mark run type => exact NumberValue.inRange_intOfBits.1 hrange
  | patternFloat mark run type => exact NumberValue.inRange_floatOfBits.1 hrange
  | decimalInt whole type => exact NumberValue.inRange_intOfDecimal.1 hrange
  | decimalFloat type hdouble => trivial

/-- The exponent of a number with a value has digits. -/
theorem exponent_ne_nil_of_value? {whole : DigitRun} {fraction : Option DigitRun} {e : Exponent}
    {kind : Kind} {v : NumberValue}
    (h : (decimal whole fraction (some e)).value? kind = some v) : e.run.text ≠ [] := by
  intro hnil
  have hdouble : double? whole fraction (some e) = none := by
    rw [double?, hnil]
    rfl
  cases kind <;> simp [value?, hdouble] at h

/-- A full body has a value in range for each kind that it can be a number of. -/
theorem exists_value? {body : NumberBody} (hfull : body.IsFull) {kind : Kind}
    (h : body.Admits kind) : ∃ v, body.value? kind = some v ∧ v.inRange = true := by
  unfold Admits at h
  split at h
  · split at h
    · exact ⟨_, value?_eq_some_iff.2 (.patternInt _ _ _), NumberValue.inRange_intOfBits.2 h⟩
    · exact ⟨_, value?_eq_some_iff.2 (.decimalInt _ _), NumberValue.inRange_intOfDecimal.2 h⟩
    · cases h
  · split at h
    · exact ⟨_, value?_eq_some_iff.2 (.patternFloat _ _ _), NumberValue.inRange_floatOfBits.2 h⟩
    · rename_i type _ whole fraction exponent
      have hdouble : ∃ double, double? whole fraction exponent = some double := by
        cases exponent with
        | none => exact ⟨_, rfl⟩
        | some e => exact ⟨_, if_neg (by simpa using hfull e rfl)⟩
      obtain ⟨double, hdouble⟩ := hdouble
      exact ⟨_, value?_eq_some_iff.2 (.decimalFloat type hdouble), rfl⟩
  · cases h

theorem kind_of_value? {body : NumberBody} {kind : Kind} {v : NumberValue}
    (h : body.value? kind = some v) (hkind : kind ≠ .intLit .int) : v.kind = kind := by
  cases value?_eq_some_iff.1 h with
  | patternInt mark run type => rfl
  | patternFloat mark run type => exact NumberValue.kind_floatOfBits _ _
  | decimalInt whole type =>
    have hne : type ≠ .int := fun hint => hkind (by rw [hint])
    exact congrArg Kind.intLit (if_neg fun hd => hne hd.1)
  | decimalFloat type hdouble => rfl

theorem kind_of_value?_kind {body : NumberBody} {v : NumberValue}
    (h : body.value? body.kind = some v) (hrange : v.inRange = true) :
    v.kind = body.literalKind := by
  cases body with
  | pattern mark run =>
    cases value?_eq_some_iff.1 h
    rfl
  | decimal whole fraction exponent =>
    cases fraction with
    | some run => exact kind_of_value? h Kind.noConfusion
    | none =>
      cases exponent with
      | some e => exact kind_of_value? h Kind.noConfusion
      | none =>
        cases value?_eq_some_iff.1 h
        have hle := NumberValue.inRange_intOfDecimal.1 hrange
        have hlt : digitsValue 10 whole.digits < pow2 63 := Nat.lt_of_le_pred (by decide) hle
        rw [literalKind, NumberValue.intOfDecimal, (NumberValue.low_eq hlt).2]
        change Kind.intLit (NumberValue.decimalType .int _) = _
        rw [NumberValue.decimalType]
        split
        · rename_i hlarge
          rw [if_pos hlarge.2]
        · rename_i hsmall
          rw [if_neg fun hlarge => hsmall ⟨rfl, hlarge⟩]

end NumberBody

namespace Number

/-- A text spells a number with the body and the kind that its suffix declares. Digits come first:
where a letter could be a digit of the base, no suffix starts with it. -/
inductive Written (body : NumberBody) (declared : Option Kind) : List UInt8 → Prop
  | mk {front back : List UInt8} (hbody : body.Written front)
      (hsuffix : Suffix.Written back declared)
      (hbinds : ∀ b, back.head? = some b → body.isDigit b = false) :
      Written body declared (front ++ back)

/-- A spelling with a value that its kind has room for. -/
structure Literal (body : NumberBody) (declared : Option Kind) (text : List UInt8) : Prop where
  written : Written body declared text
  admits : body.Admits (declared.getD body.kind)

section Full

variable {body : NumberBody} (h : body.IsFull)
include h

theorem markFindings_of_isFull (line : List UInt8) : markFindings line body = [] := by
  unfold markFindings
  split
  · exact absurd rfl h.1
  · exact absurd rfl h.2.1
  · rfl

theorem isEmpty_of_isFull : body.isEmpty = false := by
  cases body with
  | pattern mark run => simpa [NumberBody.isEmpty] using h.2.2
  | decimal whole fraction exponent => rfl

theorem refused_of_isFull {line : List UInt8} (hbody : NumberBody.scan line = body) :
    (Parts.scan line).refused = false := by
  rw [Parts.refused_scan_eq_false_iff]
  intro run hbad
  obtain rfl := hbody.symm.trans hbad
  exact h.2.1 rfl

end Full

/-- What has a value and no complaint about its mark is full. -/
theorem isFull_of_markFindings {line : List UInt8} {body : NumberBody} {kind : Kind}
    {v : NumberValue} (hmark : markFindings line body = []) (hempty : body.isEmpty = false)
    (hvalue : body.value? kind = some v) : body.IsFull := by
  cases body with
  | pattern mark run =>
    refine ⟨?_, ?_, by simpa [NumberBody.isEmpty] using hempty⟩
    · rintro rfl
      cases hmark
    · rintro rfl
      cases hmark
  | decimal whole fraction exponent =>
    rintro e rfl
    exact NumberBody.exponent_ne_nil_of_value? hvalue

theorem Written.isFull {body : NumberBody} {declared : Option Kind} {text : List UInt8}
    (h : Written body declared text) : body.IsFull ∧ body.groupingFindings = [] := by
  obtain ⟨hbody, -, -⟩ := h
  exact hbody.isFull

/-- A number of the grammar is scanned into its parts. -/
theorem Written.scan_parts {body : NumberBody} {declared : Option Kind} {text : List UInt8}
    (h : Written body declared text) :
    (Parts.scan text).body = body ∧ (Parts.scan text).suffix.kind = declared ∧
      (Parts.scan text).suffix.complete = true ∧ (Parts.scan text).length = text.length := by
  obtain @⟨front, back, hbody, hsuffix, hbinds⟩ := h
  obtain ⟨hscan, hlen⟩ := hbody.scan_append hsuffix.headIn hbinds
  have hdrop : (front ++ back).drop (NumberBody.scan (front ++ back)).length = back := by
    rw [hscan, hlen, List.drop_left]
  have hs : (Parts.scan (front ++ back)).suffix = ⟨declared, back.length, true⟩ :=
    (congrArg Suffix.scan hdrop).trans hsuffix.scan_eq
  refine ⟨hscan, by rw [hs], by rw [hs], ?_⟩
  rw [Parts.length, hs, List.length_append, ← hlen, ← hscan]
  rfl

theorem Written.value_parts {body : NumberBody} {declared : Option Kind} {text : List UInt8}
    (h : Written body declared text) :
    (Parts.scan text).refused = false ∧
      (Parts.scan text).value = body.value? (declared.getD body.kind) := by
  obtain ⟨hbody, hkind, -, -⟩ := h.scan_parts
  have hrefused := refused_of_isFull h.isFull.1 hbody
  refine ⟨hrefused, ?_⟩
  rw [Parts.value_scan hrefused, Parts.declaredKind, hbody, hkind]

/-- All that can be wrong with a literal of the grammar is that its value is out of range. -/
theorem Written.findings_eq {body : NumberBody} {declared : Option Kind} {text : List UInt8}
    (h : Written body declared text) {v : NumberValue}
    (hv : body.value? (declared.getD body.kind) = some v) :
    (Number.scan text).findings =
      if v.inRange then [] else [⟨0, .numberOutOfRange (quotedText text)⟩] := by
  obtain ⟨hbody, -, hcomplete, hlen⟩ := h.scan_parts
  obtain ⟨hrefused, hvalue⟩ := h.value_parts
  obtain ⟨hfull, hgroup⟩ := h.isFull
  have hdrop : text.drop (Parts.scan text).length = [] := by rw [hlen, List.drop_length]
  have hmalformed : (Parts.scan text).isMalformed [] = false := by
    simp [Parts.isMalformed, hbody, isEmpty_of_isFull hfull, hcomplete, continues, hvalue, hv]
  simp only [Number.scan, Parts.valueFindings, hdrop, hmalformed, hbody, hgroup,
    markFindings_of_isFull hfull, hvalue, hv, Option.elim_some]
  cases v.inRange <;> rfl

/-- A literal of the grammar with a value in range is scanned without a complaint. -/
theorem Written.findings_eq_nil {body : NumberBody} {declared : Option Kind} {text : List UInt8}
    (h : Written body declared text) {v : NumberValue}
    (hv : body.value? (declared.getD body.kind) = some v) (hrange : v.inRange = true) :
    (Number.scan text).findings = [] := by
  rw [h.findings_eq hv, if_pos hrange]

/-- A literal of the grammar is scanned whole, with the value that its body has as a number of the
declared kind. -/
theorem Written.scan_eq {body : NumberBody} {declared : Option Kind} {text : List UInt8}
    (h : Written body declared text) {v : NumberValue}
    (hv : body.value? (declared.getD body.kind) = some v) :
    (Number.scan text).length = text.length ∧ (Number.scan text).kind = v.kind ∧
      (Number.scan text).int = v.int ∧ (Number.scan text).float = v.float ∧
      (Number.scan text).base = body.base := by
  obtain ⟨hbody, -, -, hlen⟩ := h.scan_parts
  obtain ⟨hrefused, hvalue⟩ := h.value_parts
  rw [hv] at hvalue
  refine ⟨hlen, Parts.kind_eq hrefused hvalue, ?_, ?_, ?_⟩
  · rw [Number.scan, hvalue]
    rfl
  · rw [Number.scan, hvalue]
    rfl
  · have hbase : (Number.scan text).base = (Parts.scan text).body.base := Parts.base_eq hrefused
    rw [hbase, hbody]

theorem Parts.isMalformed_of_valueFindings {p : Parts} {line : List UInt8}
    (h : p.valueFindings line = []) : p.isMalformed (line.drop p.length) = false := by
  rw [valueFindings] at h
  split at h
  · cases h
  · exact Bool.eq_false_iff.2 ‹_›

/-- A line that is scanned whole and without a complaint is a literal of the grammar. -/
theorem literal_of_findings {b : UInt8} {rest : List UInt8} (hb : Byte.isDigit b = true)
    (hlen : (Number.scan (b :: rest)).length = (b :: rest).length)
    (hfindings : (Number.scan (b :: rest)).findings = []) :
    ∃ body declared, Literal body declared (b :: rest) := by
  have hfree : ErrorFree (Number.scan (b :: rest)).findings := by
    rw [hfindings]
    exact fun _ => nofun
  obtain ⟨v, hrefused, hv, hrange⟩ := Parts.value_of_errorFree hfree
  have hvalue := (Parts.value_scan hrefused).symm.trans hv
  rw [Number.scan, List.append_eq_nil_iff, List.append_eq_nil_iff, List.append_eq_nil_iff]
    at hfindings
  obtain ⟨⟨⟨hmark, hgroup⟩, hform⟩, -⟩ := hfindings
  have hmalformed := Parts.isMalformed_of_valueFindings hform
  simp only [Parts.isMalformed, Bool.or_eq_false_iff, Bool.not_eq_false'] at hmalformed
  obtain ⟨⟨⟨hempty, hcomplete⟩, -⟩, -⟩ := hmalformed
  have hfull := isFull_of_markFindings hmark hempty hvalue
  obtain ⟨front, hbody, hfront, back, hline⟩ := NumberBody.written_scan hb hfull hgroup
  have hdrop : (b :: rest).drop (NumberBody.scan (b :: rest)).length = back := by
    rw [← hfront, ← hline, List.drop_left]
  have hsuffix : Suffix.Written back (Parts.scan (b :: rest)).suffix.kind := by
    change (Suffix.scan _).complete = true at hcomplete
    change (NumberBody.scan (b :: rest)).length + (Suffix.scan _).length = _ at hlen
    change Suffix.Written back (Suffix.scan _).kind
    rw [hdrop] at hcomplete hlen ⊢
    refine Suffix.written_scan hcomplete ?_
    rw [← hfront, ← hline, List.length_append] at hlen
    omega
  have hbinds : ∀ c, back.head? = some c → (NumberBody.scan (b :: rest)).isDigit c = false := by
    intro c hc
    cases hscan : NumberBody.scan (b :: rest) with
    | pattern mark run => exact NumberBody.isDigit_head?_drop hscan (hdrop ▸ hc)
    | decimal whole fraction exponent =>
      have hplain : ∀ c ∈ Suffix.heads, Byte.isDigit c = false :=
        List.all_iff_forall_prop.1 (by decide)
      exact hplain c (hsuffix.headIn c hc)
  have hwritten := Written.mk hbody hsuffix hbinds
  rw [hline] at hwritten
  exact ⟨_, _, hwritten, NumberBody.admits_of_value? hvalue hrange⟩

/-- A line that starts with a digit is scanned whole and without a complaint exactly if it is a
literal. -/
theorem scan_whole_iff {b : UInt8} {rest : List UInt8} (hb : Byte.isDigit b = true) :
    (Number.scan (b :: rest)).length = (b :: rest).length ∧
        (Number.scan (b :: rest)).findings = [] ↔
      ∃ body declared, Literal body declared (b :: rest) := by
  constructor
  · rintro ⟨hlen, hfindings⟩
    exact literal_of_findings hb hlen hfindings
  · rintro ⟨body, declared, hwritten, hadmits⟩
    obtain ⟨v, hv, hrange⟩ := NumberBody.exists_value? hwritten.isFull.1 hadmits
    obtain ⟨-, -, -, hlen⟩ := hwritten.scan_parts
    exact ⟨hlen, hwritten.findings_eq_nil hv hrange⟩

/-- The base of a literal is that of its mark, and its kind that of its suffix, or of its form and
size where there is none. -/
theorem Literal.kind_scan {body : NumberBody} {declared : Option Kind} {text : List UInt8}
    (h : Literal body declared text) :
    (Number.scan text).base = body.base ∧
      (Number.scan text).kind = declared.getD body.literalKind := by
  obtain ⟨hwritten, hadmits⟩ := h
  obtain ⟨v, hv, hrange⟩ := NumberBody.exists_value? hwritten.isFull.1 hadmits
  obtain ⟨-, hkind, -, -, hbase⟩ := hwritten.scan_eq hv
  refine ⟨hbase, ?_⟩
  rw [hkind]
  cases declared with
  | none => exact NumberBody.kind_of_value?_kind hv hrange
  | some kind =>
    obtain ⟨-, hsuffix, -⟩ := hwritten
    exact NumberBody.kind_of_value? hv hsuffix.ne_int

end Number
end Lexeme
