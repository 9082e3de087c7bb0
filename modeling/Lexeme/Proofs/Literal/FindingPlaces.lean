import Lexeme.Proofs.Literal.PieceFindings

/-!
# Where pieces complain

A scanner of one line complains about bytes that it takes, or about the byte right behind them. So
all offsets of a piece's findings are at most its length, also where digits are missing, a literal
breaks off, or a finding has been moved from an escape to the literal around it. A number's value is
complained about once at most, as malformed or as out of range, and no other piece says so.
-/

set_option autoImplicit false

namespace Lexeme

/-- The findings are about the first `n` bytes or the end of these. -/
def FoundWithin (n : Nat) (fs : List Finding) : Prop := ∀ f ∈ fs, f.offset ≤ n

namespace FoundWithin

variable {m n : Nat} {fs gs : List Finding} {f : Finding}

theorem nil : FoundWithin n [] := List.forall_mem_nil _

theorem single (hf : f.offset ≤ n) : FoundWithin n [f] := List.forall_mem_singleton.2 hf

theorem cons (hf : f.offset ≤ n) (h : FoundWithin n fs) : FoundWithin n (f :: fs) :=
  List.forall_mem_cons.2 ⟨hf, h⟩

theorem append (hf : FoundWithin n fs) (hg : FoundWithin n gs) : FoundWithin n (fs ++ gs) :=
  List.forall_mem_append.2 ⟨hf, hg⟩

theorem mono (h : FoundWithin m fs) (hmn : m ≤ n) : FoundWithin n fs :=
  fun f hf => Nat.le_trans (h f hf) hmn

theorem shift (h : FoundWithin n fs) (m : Nat) : FoundWithin (m + n) (fs.map (Finding.shift m)) :=
  List.forall_mem_map.2 fun f hf => Nat.add_le_add_left (h f hf) m

theorem ite {p : Prop} [Decidable p] (hf : FoundWithin n fs) (hg : FoundWithin n gs) :
    FoundWithin n (if p then fs else gs) := by
  split
  · exact hf
  · exact hg

end FoundWithin

/-! ## Escapes -/

namespace Escape

variable (stop : UInt8)

theorem le_hexDigits_stop (count offset value : Nat) (bytes : List UInt8) :
    offset ≤ (hexDigits stop count offset value bytes).stop := by
  obtain ⟨n, hstop, -⟩ := spares_hexDigits stop count offset value bytes
  omega

theorem le_bracedDigits_stop (offset value : Nat) (bytes : List UInt8) :
    offset ≤ (bracedDigits stop offset value bytes).stop := by
  obtain ⟨n, hstop, -⟩ := spares_bracedDigits stop offset value bytes
  omega

theorem foundWithin_hexDigits (count offset value : Nat) (bytes : List UInt8) :
    FoundWithin (hexDigits stop count offset value bytes).stop
      (hexDigits stop count offset value bytes).findings := by
  fun_induction hexDigits stop count offset value bytes with
  | case1 offset value bytes => exact .nil
  | case2 count offset value ih => exact ih.cons (le_hexDigits_stop stop _ _ _ _)
  | case3 count offset value b rest digit hd ih => exact ih
  | case4 count offset value b rest hd hq ih => exact ih.cons (le_hexDigits_stop stop _ _ _ _)
  | case5 count offset value b rest hd hq ih =>
    exact ih.cons (Nat.le_trans (Nat.le_succ _) (le_hexDigits_stop stop _ _ _ _))

theorem foundWithin_bracedDigits (offset value : Nat) (bytes : List UInt8) :
    FoundWithin (bracedDigits stop offset value bytes).stop
      (bracedDigits stop offset value bytes).findings := by
  fun_induction bracedDigits stop offset value bytes with
  | case1 offset value => exact .single (Nat.le_refl _)
  | case2 offset value b rest hb => exact .nil
  | case3 offset value b rest hb hq => exact .single (Nat.le_refl _)
  | case4 offset value b rest hb hq digit hd ih => exact ih
  | case5 offset value b rest hb hq hd ih =>
    exact ih.cons (Nat.le_trans (Nat.le_succ _) (le_bracedDigits_stop stop _ _ _))

theorem foundWithin_braced (body : List UInt8) :
    FoundWithin (braced stop body).length (braced stop body).findings := by
  have hdigits := foundWithin_bracedDigits stop 0 0 body
  unfold braced
  dsimp only
  split
  · exact (hdigits.mono (Nat.le_add_right _ _)).append (.single (Nat.zero_le _))
  · exact (hdigits.mono (Nat.le_add_right _ _)).append (.ite (.single (Nat.zero_le _)) .nil)

theorem foundWithin_codePoint (rest : List UInt8) :
    FoundWithin (codePoint stop rest).length (codePoint stop rest).findings := by
  unfold codePoint
  split
  · exact (foundWithin_braced stop _).shift 2
  · exact foundWithin_hexDigits stop 4 1 0 _

theorem foundWithin_decimalByte (bytes : List UInt8) :
    FoundWithin (decimalByte bytes).length (decimalByte bytes).findings := by
  unfold decimalByte
  dsimp only
  split
  · dsimp only
    split
    · exact .single (Nat.zero_le _)
    · exact .nil
  · refine .append ?_ (.single (Nat.le_refl _))
    split
    · exact .single (Nat.zero_le _)
    · exact .nil

/-- An escape complains about its own bytes, or about the one that breaks it off. -/
theorem foundWithin_scan (ctx : Context) (bytes : List UInt8) :
    FoundWithin (scan ctx bytes).length (scan ctx bytes).findings := by
  have hrefused : ∀ n (letter : Char), FoundWithin n
      (if ctx.inCharacter then [⟨0, .escapeNotAllowedInChar letter⟩] else []) :=
    fun n letter => .ite (.single (Nat.zero_le _)) .nil
  cases bytes with
  | nil => exact .single (Nat.zero_le _)
  | cons b rest =>
    rw [scan]
    dsimp only
    split
    · exact .nil
    · split
      · exact .ite (hrefused 1 'n') .nil
      · split
        · exact hrefused 1 'p'
        · split
          · exact foundWithin_hexDigits ctx.stop 2 1 0 rest
          · split
            · exact (hrefused _ 'u').append (foundWithin_codePoint ctx.stop rest)
            · split
              · exact foundWithin_decimalByte (b :: rest)
              · exact .single (Nat.zero_le _)

end Escape

/-! ## Strings and characters -/

namespace Quoted

variable (ctx : Escape.Context)

theorem foundWithin_plain (offset : Nat) (bytes : List UInt8) :
    FoundWithin (plain ctx offset bytes).stop (plain ctx offset bytes).findings := by
  fun_induction plain ctx offset bytes with
  | case1 offset => exact .single (Nat.le_refl _)
  | case2 offset b rest hq => exact .nil
  | case3 offset b rest hq hb e ih =>
    have hescape := (Escape.foundWithin_scan ctx rest).shift (offset + 1)
    exact (hescape.mono (plain_stop ctx _ _).1).append ih
  | case4 offset b rest hq hb ih => exact ih

theorem foundWithin_raw (offset : Nat) (bytes : List UInt8) :
    FoundWithin (raw offset bytes).stop (raw offset bytes).findings := by
  fun_induction raw offset bytes with
  | case1 offset => exact .single (Nat.le_refl _)
  | case2 offset rest ih => exact ih
  | case3 offset b rest hpair hq => exact .nil
  | case4 offset b rest hpair hq ih => exact ih

theorem foundWithin_characterContents (bytes : List UInt8) :
    FoundWithin (characterContents ctx bytes).stop (characterContents ctx bytes).findings := by
  fun_cases characterContents ctx bytes with
  | case1 => exact .single (Nat.le_refl _)
  | case2 b rest hq => exact .single (Nat.le_refl _)
  | case3 b rest hq hc => exact .single (Nat.le_succ _)
  | case4 b rest hq hc hb e => exact (Escape.foundWithin_scan ctx rest).shift 2
  | case5 b rest hq hc hb => exact .nil

theorem foundWithin_character (bytes : List UInt8) :
    FoundWithin (character ctx bytes).stop (character ctx bytes).findings := by
  have hcontents := foundWithin_characterContents ctx bytes
  unfold character
  dsimp only
  split
  · exact hcontents.mono (Nat.le_succ _)
  · exact hcontents.append (.single (Nat.le_refl _))

end Quoted

/-! ## Numbers -/

namespace Number

theorem foundWithin_run {run : DigitRun} {offset n : Nat} (h : offset + run.text.length ≤ n) :
    FoundWithin n (run.findings offset) :=
  .ite (.single h) .nil

theorem foundWithin_grouping (body : NumberBody) :
    FoundWithin body.length body.groupingFindings := by
  cases body with
  | pattern mark run =>
    refine foundWithin_run ?_
    simp only [NumberBody.length, NumberBody.text, List.length_cons]
    omega
  | decimal whole fraction exponent =>
    simp only [NumberBody.length, NumberBody.text, List.length_append]
    refine ((foundWithin_run (by omega)).append ?_).append ?_
    · cases fraction with
      | none => exact .nil
      | some run =>
        refine foundWithin_run ?_
        simp only [NumberBody.fractionText, Option.elim_some, List.length_cons]
        omega
    · cases exponent with
      | none => exact .nil
      | some e =>
        refine foundWithin_run ?_
        simp only [Option.elim_some, Exponent.text, List.length_cons, List.length_append]
        omega

theorem foundWithin_mark (n : Nat) (line : List UInt8) (body : NumberBody) :
    FoundWithin n (markFindings line body) := by
  unfold markFindings
  split
  · exact .single (Nat.zero_le _)
  · exact .single (Nat.zero_le _)
  · exact .nil

theorem foundWithin_scan (line : List UInt8) :
    FoundWithin (scan line).length (scan line).findings := by
  have hgrouping := (foundWithin_grouping (Parts.scan line).body).mono
    (Nat.le_add_right _ (Parts.scan line).suffix.length)
  have hvalue : FoundWithin (Parts.scan line).length ((Parts.scan line).valueFindings line) :=
    .ite (.single (Nat.zero_le _)) (.ite (.single (Nat.zero_le _)) .nil)
  exact (((foundWithin_mark _ line _).append hgrouping).append hvalue).append
    (.ite (.single (Nat.le_refl _)) .nil)

end Number

namespace Piece

theorem foundWithin_ofString (ctx : Escape.Context) (o : StringOpening) (line : List UInt8) :
    FoundWithin (ofString ctx o line).length (ofString ctx o line).findings := by
  refine FoundWithin.shift ?_ o.lead
  split
  · exact Quoted.foundWithin_plain ctx 1 _
  · exact Quoted.foundWithin_raw 1 _

theorem foundWithin_ofBytes (ctx : Escape.Context) (b : UInt8) (rest : List UInt8) :
    FoundWithin (ofBytes ctx b rest).length (ofBytes ctx b rest).findings := by
  cases way ctx b rest with
  | symbol hb h => rw [h]; exact .ite (.single (Nat.le_refl _)) .nil
  | exportMark hm h => rw [h]; exact .nil
  | punctuation p hp h =>
    rw [h]
    obtain ⟨-, rfl⟩ | ⟨m, -, -, rfl⟩ := punctuation?_cases hp
    · exact .nil
    · exact .nil
  | underscore hb h =>
    rw [h, ofUnderscore]
    split
    · exact .single (Nat.zero_le _)
    · exact .nil
  | character h => rw [h]; exact Quoted.foundWithin_character _ _
  | number hb h => rw [h]; exact Number.foundWithin_scan _
  | operator hb h => rw [h]; exact .nil
  | stray h => rw [h]; exact .single (Nat.zero_le _)

end Piece

/-! ## Refused numbers -/

/-- Whether a message refuses a number. -/
def Message.isNumberFault : Message → Bool
  | .invalidNumber _ | .numberOutOfRange _ => true
  | _ => false

theorem Message.isNumberFault_of_isQuoted {message : Message} (h : message.isQuoted = true) :
    message.isNumberFault = false := by
  unfold isNumberFault
  split
  · cases h
  · cases h
  · rfl

namespace Finding

/-- The findings that refuse a number. -/
def numberFaults (fs : List Finding) : List Finding := fs.filter fun f => f.message.isNumberFault

theorem numberFaults_append (fs gs : List Finding) :
    numberFaults (fs ++ gs) = numberFaults fs ++ numberFaults gs :=
  List.filter_append ..

theorem numberFaults_eq_nil {fs : List Finding}
    (h : ∀ f ∈ fs, f.message.isNumberFault = false) : numberFaults fs = [] :=
  List.filter_eq_nil_iff.2 fun f hf => Bool.not_eq_true _ ▸ h f hf

end Finding

open Finding

theorem AboutQuoted.numberFaults_eq {fs : List Finding} (h : AboutQuoted fs) :
    numberFaults fs = [] :=
  numberFaults_eq_nil fun f hf => Message.isNumberFault_of_isQuoted (h f hf)

namespace Number

theorem numberFaults_grouping (body : NumberBody) : numberFaults body.groupingFindings = [] := by
  refine numberFaults_eq_nil fun f hf => ?_
  rw [message_grouping body f hf]
  rfl

theorem numberFaults_mark (line : List UInt8) (body : NumberBody) :
    numberFaults (markFindings line body) = [] := by
  unfold markFindings
  split <;> rfl

theorem numberFaults_value (parts : Parts) (line : List UInt8) :
    numberFaults (parts.valueFindings line) = parts.valueFindings line := by
  unfold Parts.valueFindings
  split
  · rfl
  · split <;> rfl

/-- A number is refused for its value only. -/
theorem numberFaults_scan (line : List UInt8) :
    numberFaults (scan line).findings = (Parts.scan line).valueFindings line := by
  have hglued : numberFaults (if Spelling.meetsSymbol (line.drop (Parts.scan line).length) then
      [⟨(Parts.scan line).length, .numberFollowedByIdent⟩] else []) = [] := by
    split <;> rfl
  rw [scan]
  simp only [numberFaults_append, numberFaults_mark, numberFaults_grouping, numberFaults_value,
    hglued, List.nil_append, List.append_nil]

theorem length_valueFindings_le (parts : Parts) (line : List UInt8) :
    (parts.valueFindings line).length ≤ 1 := by
  unfold Parts.valueFindings
  split
  · exact Nat.le_refl _
  · split
    · exact Nat.le_refl _
    · exact Nat.zero_le _

end Number

namespace Piece

/-- Strings apart, only a number is refused as one. -/
theorem numberFaults_ofBytes (ctx : Escape.Context) (b : UInt8) (rest : List UInt8) :
    numberFaults (ofBytes ctx b rest).findings = [] ∨
      Byte.isDigit b = true ∧ ofBytes ctx b rest = Number.scan (b :: rest) := by
  cases way ctx b rest with
  | number hb h => exact .inr ⟨hb, h⟩
  | symbol hb h =>
    rw [h, ofSymbol]
    dsimp only
    split <;> exact .inl rfl
  | exportMark hm h => rw [h]; exact .inl rfl
  | punctuation p hp h =>
    rw [h]
    obtain ⟨-, rfl⟩ | ⟨m, -, -, rfl⟩ := punctuation?_cases hp <;> exact .inl rfl
  | underscore hb h =>
    rw [h, ofUnderscore]
    split <;> exact .inl rfl
  | character h => rw [h]; exact .inl (Quoted.aboutQuoted_character _ _).numberFaults_eq
  | operator hb h => rw [h]; exact .inl rfl
  | stray h => rw [h]; exact .inl rfl

end Piece
end Lexeme
