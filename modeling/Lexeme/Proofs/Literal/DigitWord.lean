import Mathlib.Algebra.Order.Ring.Nat
import Lexeme.Literal.Number

/-!
# Numbers read into words

A word that digits have been read into keeps the number modulo 2⁶⁴ and knows whether that is all of
it. What has been lost on the way is never needed: the low bits of a number and the note of an
overflow decide every range, and so the value of a word is the value of the number, for digits of
any length.
-/

set_option autoImplicit false

namespace Lexeme

namespace DigitWord

/-- What a word tells of the number that has been read into it. -/
structure Holds (w : DigitWord) (n : Nat) : Prop where
  bits_eq : w.bits.toNat = n % pow2 64
  overflow_iff : w.overflow = true ↔ pow2 64 ≤ n

theorem holds_zero : zero.Holds 0 :=
  ⟨rfl, iff_of_false Bool.false_ne_true (by decide)⟩

/-- One more digit. A number that has not fitted does not fit with more digits either. -/
theorem Holds.push {w : DigitWord} {n base : Nat} (h : w.Holds n) (hbase : 0 < base) (b : UInt8) :
    (w.push base b).Holds (n * base + (Byte.hexValue? b).getD 0) := by
  obtain ⟨hbits, hoverflow⟩ := h
  generalize hdigit : (Byte.hexValue? b).getD 0 = digit
  constructor
  · have hnext : (w.push base b).bits.toNat = (w.bits.toNat * base + digit) % pow2 64 := by
      rw [← hdigit]
      exact UInt64.toNat_ofNat'
    rw [hnext, hbits, Nat.add_mod, Nat.mod_mul_mod, ← Nat.add_mod]
  · have hnote : (w.push base b).overflow = true ↔
        w.overflow = true ∨ pow2 64 ≤ w.bits.toNat * base + digit := by
      rw [DigitWord.push, ← hdigit]
      simp only [Bool.or_eq_true, decide_eq_true_eq]
    rw [hnote, hoverflow]
    by_cases hfits : n < pow2 64
    · rw [hbits, Nat.mod_eq_of_lt hfits]
      exact or_iff_right (Nat.not_le.2 hfits)
    · have hle : n ≤ n * base := Nat.le_mul_of_pos_right n hbase
      exact iff_of_true (.inl (by omega)) (by omega)

/-- The word that digits are read into holds the number that they spell. -/
theorem holds_ofDigits {base : Nat} (hbase : 0 < base) (digits : List UInt8) :
    (ofDigits base digits).Holds (digitsValue base digits) := by
  have hfold : ∀ w n, Holds w n →
      (digits.foldl (push base) w).Holds
        (digits.foldl (fun value b => value * base + (Byte.hexValue? b).getD 0) n) := by
    induction digits with
    | nil => exact fun w n h => h
    | cons b rest ih => exact fun w n h => ih _ _ (h.push hbase b)
  exact hfold zero 0 holds_zero

/-- A bound of at most 64 bits can be checked on the word. -/
theorem Holds.lt_iff {w : DigitWord} {n : Nat} (h : w.Holds n) {bound : Nat}
    (hbound : bound ≤ pow2 64) :
    (!w.overflow && w.bits.toNat < bound) = decide (n < bound) := by
  obtain ⟨hbits, hoverflow⟩ := h
  rw [hbits]
  by_cases hfits : n < pow2 64
  · have hnote : w.overflow = false := by
      rw [Bool.eq_false_iff, ne_eq, hoverflow]
      exact Nat.not_le.2 hfits
    rw [hnote, Nat.mod_eq_of_lt hfits, Bool.not_false, Bool.true_and]
  · have hnote : w.overflow = true := hoverflow.2 (Nat.not_lt.1 hfits)
    rw [hnote, Bool.not_true, Bool.false_and]
    exact (decide_eq_false (by omega)).symm

end DigitWord

/-! ## Values -/

theorem pow2_dvd_pow2 {m n : Nat} (h : m ≤ n) : pow2 m ∣ pow2 n := Nat.pow_dvd_pow 2 h

/-- The low 64 bits are all that an integer type looks at. -/
theorem IntType.wrap_mod (type : IntType) (n : Nat) :
    type.wrap (n % pow2 64) = type.wrap n := by
  have hdvd : pow2 type.width ∣ pow2 64 := pow2_dvd_pow2 (by cases type <;> decide)
  rw [wrap, wrap]
  split
  · rw [Nat.mod_mod_of_dvd n hdvd]
  · rw [← Int.emod_bmod, Int.natCast_mod, Int.emod_emod_of_dvd _ (Int.natCast_dvd_natCast.2 hdvd),
      Int.emod_bmod]

theorem IntType.pow2_width_le (type : IntType) : pow2 type.width ≤ pow2 64 :=
  Nat.le_of_dvd (Nat.two_pow_pos 64) (pow2_dvd_pow2 (by cases type <;> decide))

theorem IntType.maxValue_lt (type : IntType) : type.maxValue < pow2 64 := by
  cases type <;> decide

namespace NumberValue

variable {w : DigitWord} {n : Nat} (h : w.Holds n)
include h

theorem intOfPattern_eq (type : IntType) : intOfPattern type w = intOfBits type n := by
  simp only [intOfPattern, intOfBits]
  rw [h.lt_iff type.pow2_width_le, h.bits_eq, type.wrap_mod]

theorem floatOfPattern_eq (type : FloatType) : floatOfPattern type w = floatOfBits type n := by
  have hbits : w.bits = UInt64.ofNat n := by
    rw [← UInt64.toNat_inj, h.bits_eq]
    exact UInt64.toNat_ofNat'.symm
  have hnote : (!w.overflow) = decide (n < pow2 64) := by
    have hlt : w.bits.toNat < pow2 64 := w.bits.toNat_lt
    rw [← h.lt_iff (Nat.le_refl _), decide_eq_true hlt, Bool.and_true]
  have hsingle : UInt32.ofNat w.bits.toNat = UInt32.ofNat n := by
    rw [← UInt32.toNat_inj, UInt32.toNat_ofNat', UInt32.toNat_ofNat', h.bits_eq]
    exact Nat.mod_mod_of_dvd n (pow2_dvd_pow2 (by decide))
  have hle : pow2 32 ≤ pow2 64 := Nat.le_of_dvd (Nat.two_pow_pos 64) (pow2_dvd_pow2 (by decide))
  cases type with
  | float32 => simp only [floatOfPattern, floatOfBits, hsingle, h.lt_iff hle]
  | _ => simp only [floatOfPattern, floatOfBits, hbits, hnote]

theorem intOfDecimalWord_eq (declared : IntType) :
    intOfDecimalWord declared w = intOfDecimal declared n := by
  have hrange : (!w.overflow && w.bits.toNat ≤ declared.maxValue) =
      decide (n ≤ declared.maxValue) := by
    have hlt : declared.maxValue + 1 ≤ pow2 64 := declared.maxValue_lt
    simpa only [Nat.lt_succ_iff] using h.lt_iff hlt
  have hlow : ((n % pow2 64 : Nat) : Int).bmod (pow2 64) = (n : Int).bmod (pow2 64) := by
    rw [Int.natCast_mod, Int.emod_bmod]
  simp only [intOfDecimalWord, intOfDecimal]
  rw [hrange, h.bits_eq, hlow]

end NumberValue

theorem BaseMark.radix_pos (mark : BaseMark) : 0 < mark.radix := by
  cases mark <;> decide

namespace NumberBody

/-- The values that a body has, by the number that its digits spell. -/
inductive HasValue : NumberBody → Kind → NumberValue → Prop
  | patternInt (mark : BaseMark) (run : DigitRun) (type : IntType) :
      HasValue (.pattern mark run) (.intLit type)
        (.intOfBits type (digitsValue mark.radix run.digits))
  | patternFloat (mark : BaseMark) (run : DigitRun) (type : FloatType) :
      HasValue (.pattern mark run) (.floatLit type)
        (.floatOfBits type (digitsValue mark.radix run.digits))
  | decimalInt (whole : DigitRun) (type : IntType) :
      HasValue (.decimal whole none none) (.intLit type)
        (.intOfDecimal type (digitsValue 10 whole.digits))
  | decimalFloat {whole : DigitRun} {fraction : Option DigitRun} {exponent : Option Exponent}
      {double : Binary64} (type : FloatType)
      (hdouble : double? whole fraction exponent = some double) :
      HasValue (.decimal whole fraction exponent) (.floatLit type) (.ofFloat type double true)

/-- Reading digits into a word finds the value of the number that they spell. -/
theorem value?_eq_some_iff {body : NumberBody} {kind : Kind} {v : NumberValue} :
    body.value? kind = some v ↔ body.HasValue kind v := by
  have hpattern : ∀ (mark : BaseMark) (run : DigitRun),
      (DigitWord.ofDigits mark.radix run.digits).Holds (digitsValue mark.radix run.digits) :=
    fun mark run => DigitWord.holds_ofDigits mark.radix_pos run.digits
  have hdecimal : ∀ whole : DigitRun,
      (DigitWord.ofDigits 10 whole.digits).Holds (digitsValue 10 whole.digits) :=
    fun whole => DigitWord.holds_ofDigits (by decide) whole.digits
  constructor
  · intro h
    unfold value? at h
    split at h
    · obtain rfl := Option.some.inj h
      rw [NumberValue.intOfPattern_eq (hpattern _ _)]
      exact .patternInt _ _ _
    · obtain rfl := Option.some.inj h
      rw [NumberValue.floatOfPattern_eq (hpattern _ _)]
      exact .patternFloat _ _ _
    · obtain rfl := Option.some.inj h
      rw [NumberValue.intOfDecimalWord_eq (hdecimal _)]
      exact .decimalInt _ _
    · obtain ⟨double, hdouble, rfl⟩ := Option.map_eq_some_iff.1 h
      exact .decimalFloat _ hdouble
    · cases h
  · intro h
    cases h with
    | patternInt mark run type =>
      exact congrArg some (NumberValue.intOfPattern_eq (hpattern mark run) type)
    | patternFloat mark run type =>
      exact congrArg some (NumberValue.floatOfPattern_eq (hpattern mark run) type)
    | decimalInt whole type =>
      exact congrArg some (NumberValue.intOfDecimalWord_eq (hdecimal whole) type)
    | decimalFloat type hdouble =>
      rw [value?, hdouble]
      rfl

end NumberBody
end Lexeme
