import Lexeme.Proofs.Literal.EscapeExtent

/-!
# What pieces complain about

A piece stands on one line and does not get to the line's end. So whatever escapes, strings,
numbers and symbols complain about, it is neither the length of their line, nor a tab, nor the end
of something that goes over lines.
-/

set_option autoImplicit false

namespace Lexeme

/-- Whether a message is about a token on one line. -/
def Message.isPiece : Message → Bool
  | .unterminatedTripleString | .unterminatedComment | .tabsNotAllowed | .lineTooLong => false
  | _ => true

/-- Whether a message is about a string or a character on one line, or an escape in it. -/
def Message.isQuoted : Message → Bool
  | .unterminatedString | .invalidCharLiteral | .unterminatedChar => true
  | message => message.isEscape

theorem Message.isQuoted_of_isEscape {message : Message} (h : message.isEscape = true) :
    message.isQuoted = true := by
  unfold isQuoted
  split
  · rfl
  · rfl
  · rfl
  · exact h

theorem Message.isPiece_of_isQuoted {message : Message} (h : message.isQuoted = true) :
    message.isPiece = true := by
  unfold isPiece
  split
  · cases h
  · cases h
  · cases h
  · cases h
  · rfl

/-- The findings are about a token on one line. -/
def AboutPiece (fs : List Finding) : Prop := ∀ f ∈ fs, f.message.isPiece = true

/-- None of the findings is about the length of the line. -/
def HintFree (fs : List Finding) : Prop := ∀ f ∈ fs, f.message ≠ .lineTooLong

namespace AboutPiece

variable {fs gs : List Finding} {f : Finding}

theorem nil : AboutPiece [] := List.forall_mem_nil _

theorem single (hf : f.message.isPiece = true) : AboutPiece [f] := List.forall_mem_singleton.2 hf

theorem append (hf : AboutPiece fs) (hg : AboutPiece gs) : AboutPiece (fs ++ gs) :=
  List.forall_mem_append.2 ⟨hf, hg⟩

theorem ite {p : Prop} [Decidable p] (hf : AboutPiece fs) (hg : AboutPiece gs) :
    AboutPiece (if p then fs else gs) := by
  split
  · exact hf
  · exact hg

theorem hintFree (h : AboutPiece fs) : HintFree fs := by
  intro f hf hmessage
  have hpiece := h f hf
  rw [hmessage] at hpiece
  cases hpiece

end AboutPiece

/-! ## Escapes and quotes -/

/-- The findings are about a string or a character. -/
def AboutQuoted (fs : List Finding) : Prop := ∀ f ∈ fs, f.message.isQuoted = true

theorem AboutQuoted.aboutPiece {fs : List Finding} (h : AboutQuoted fs) : AboutPiece fs :=
  fun f hf => Message.isPiece_of_isQuoted (h f hf)

theorem Escape.aboutQuoted_scan (ctx : Context) (bytes : List UInt8) (n : Nat) :
    AboutQuoted ((scan ctx bytes).findings.map (Finding.shift n)) :=
  List.forall_mem_map.2 fun f hf => Message.isQuoted_of_isEscape (isEscape_scan ctx bytes f hf)

namespace Quoted

variable (ctx : Escape.Context)

theorem aboutQuoted_plain (offset : Nat) (bytes : List UInt8) :
    AboutQuoted (plain ctx offset bytes).findings := by
  fun_induction plain ctx offset bytes with
  | case1 offset => exact List.forall_mem_singleton.2 rfl
  | case2 offset b rest hq => exact List.forall_mem_nil _
  | case3 offset b rest hq hb e ih =>
    exact List.forall_mem_append.2 ⟨Escape.aboutQuoted_scan ctx rest _, ih⟩
  | case4 offset b rest hq hb ih => exact ih

theorem aboutQuoted_raw (offset : Nat) (bytes : List UInt8) :
    AboutQuoted (raw offset bytes).findings := by
  fun_induction raw offset bytes with
  | case1 offset => exact List.forall_mem_singleton.2 rfl
  | case2 offset rest ih => exact ih
  | case3 offset b rest hpair hq => exact List.forall_mem_nil _
  | case4 offset b rest hpair hq ih => exact ih

theorem aboutQuoted_characterContents (bytes : List UInt8) :
    AboutQuoted (characterContents ctx bytes).findings := by
  fun_cases characterContents ctx bytes with
  | case1 => exact List.forall_mem_singleton.2 rfl
  | case2 b rest hq => exact List.forall_mem_singleton.2 rfl
  | case3 b rest hq hc => exact List.forall_mem_singleton.2 rfl
  | case4 b rest hq hc hb e => exact Escape.aboutQuoted_scan ctx rest 2
  | case5 b rest hq hc hb => exact List.forall_mem_nil _

theorem aboutQuoted_character (bytes : List UInt8) :
    AboutQuoted (character ctx bytes).findings := by
  have hcontents := aboutQuoted_characterContents ctx bytes
  unfold character
  dsimp only
  split
  · exact hcontents
  · exact List.forall_mem_append.2 ⟨hcontents, List.forall_mem_singleton.2 rfl⟩

end Quoted

theorem Piece.aboutQuoted_ofString (ctx : Escape.Context) (o : StringOpening)
    (line : List UInt8) : AboutQuoted (ofString ctx o line).findings := by
  refine List.forall_mem_map.2 ?_
  split
  · exact Quoted.aboutQuoted_plain ctx 1 _
  · exact Quoted.aboutQuoted_raw 1 _

/-! ## Numbers -/

namespace Number

theorem message_run (run : DigitRun) (offset : Nat) :
    ∀ f ∈ run.findings offset, f.message = .underscoreGrouping := by
  rw [DigitRun.findings]
  split
  · exact List.forall_mem_singleton.2 rfl
  · exact List.forall_mem_nil _

theorem message_grouping (body : NumberBody) :
    ∀ f ∈ body.groupingFindings, f.message = .underscoreGrouping := by
  cases body with
  | pattern mark run => exact message_run run 2
  | decimal whole fraction exponent =>
    refine List.forall_mem_append.2 ⟨List.forall_mem_append.2 ⟨message_run whole 0, ?_⟩, ?_⟩
    · cases fraction with
      | none => exact List.forall_mem_nil _
      | some run => exact message_run run _
    · cases exponent with
      | none => exact List.forall_mem_nil _
      | some e => exact message_run e.run _

theorem aboutPiece_grouping (body : NumberBody) : AboutPiece body.groupingFindings := by
  intro f hf
  rw [message_grouping body f hf]
  rfl

theorem aboutPiece_mark (line : List UInt8) (body : NumberBody) :
    AboutPiece (markFindings line body) := by
  unfold markFindings
  split
  · exact .single rfl
  · exact .single rfl
  · exact .nil

theorem aboutPiece_scan (line : List UInt8) : AboutPiece (scan line).findings := by
  have hvalue : AboutPiece ((Parts.scan line).valueFindings line) :=
    .ite (.single rfl) (.ite (.single rfl) .nil)
  exact (((aboutPiece_mark line _).append (aboutPiece_grouping _)).append hvalue).append
    (.ite (.single rfl) .nil)

end Number

/-! ## Pieces -/

namespace Piece

theorem aboutPiece_ofString (ctx : Escape.Context) (o : StringOpening) (line : List UInt8) :
    AboutPiece (ofString ctx o line).findings :=
  (aboutQuoted_ofString ctx o line).aboutPiece

theorem aboutPiece_punctuation? {b : UInt8} {rest : List UInt8} {p : Piece}
    (h : punctuation? b rest = some p) : AboutPiece p.findings := by
  obtain ⟨-, rfl⟩ | ⟨m, -, -, rfl⟩ := punctuation?_cases h
  · exact .nil
  · exact .nil

theorem aboutPiece_ofBytes (ctx : Escape.Context) (b : UInt8) (rest : List UInt8) :
    AboutPiece (ofBytes ctx b rest).findings := by
  cases way ctx b rest with
  | symbol hb h => rw [h]; exact .ite (.single rfl) .nil
  | exportMark hm h => rw [h]; exact .nil
  | punctuation p hp h => rw [h]; exact aboutPiece_punctuation? hp
  | underscore hb h =>
    rw [h, ofUnderscore]
    split
    · exact .single rfl
    · exact .nil
  | character h => rw [h]; exact (Quoted.aboutQuoted_character _ _).aboutPiece
  | number hb h => rw [h]; exact Number.aboutPiece_scan _
  | operator hb h => rw [h]; exact .nil
  | stray h => rw [h]; exact .single rfl

end Piece
end Lexeme
