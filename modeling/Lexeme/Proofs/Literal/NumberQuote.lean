import Mathlib.Data.List.TakeWhile
import Lexeme.Proofs.Literal.NumberGrammar
import Lexeme.Proofs.Literal.WellFormed
import Lexeme.Proofs.Text.Utf8

/-!
# What messages quote of a number

Messages quote a number by a rule of their own: bytes of a class, then a sign that may belong to an
exponent, then a letter that may begin a suffix. Of a literal that is out of range they quote all,
as it has nothing that the rule stops at, but for a capital letter in front of a suffix's width.
They may go on behind the literal, though: `Number.quotesPast` tells when, by the byte that follows.
-/

set_option autoImplicit false

namespace Lexeme

theorem Byte.isHexDigit_of_isDigit {b : UInt8} (h : isDigit b = true) : isHexDigit b = true := by
  rw [isHexDigit, h]
  rfl

namespace Number

/-- Whether messages about a literal quote more than the literal, `next` being the byte behind it:
a byte of their class or one that may begin a suffix, or a sign where the literal ends as if an
exponent followed. A capital suffix ends the quote. -/
def quotesPast (literal : List UInt8) (next : Option UInt8) : Bool :=
  literal.all (· ∉ Byte.ofAscii "IU") && next.any fun b =>
    b ∈ Byte.ofAscii ".OiuIU" ||
      b ∈ Byte.ofAscii "+-" && literal.getLast?.any (· ∈ Byte.ofAscii "eE")

/-! ## Quoted bytes -/

def AllQuoted (bytes : List UInt8) : Prop := ∀ b ∈ bytes, isQuoted b = true

theorem isQuoted_of_isHexDigit {b : UInt8} (h : Byte.isHexDigit b = true) : isQuoted b = true := by
  rw [isQuoted, h]
  rfl

theorem isQuoted_of_isDigit {b : UInt8} (h : Byte.isDigit b = true) : isQuoted b = true :=
  isQuoted_of_isHexDigit (Byte.isHexDigit_of_isDigit h)

theorem isQuoted_of_mark {b : UInt8} {mark : BaseMark} (h : BaseMark.ofByte? b = some mark) :
    isQuoted b = true := by
  have hquoted : ∀ bytes ∈ ["xX", "bB", "o", "cC", "O"], ∀ b ∈ Byte.ofAscii bytes,
      isQuoted b = true := by
    decide +kernel
  unfold BaseMark.ofByte? at h
  split at h
  · exact hquoted "xX" (by decide) b ‹_›
  · split at h
    · exact hquoted "bB" (by decide) b ‹_›
    · split at h
      · exact hquoted "o" (by decide) b ‹_›
      · split at h
        · exact hquoted "cC" (by decide) b ‹_›
        · split at h
          · exact hquoted "O" (by decide) b ‹_›
          · cases h

/-- A byte that is quoted, and may stand behind a literal. -/
theorem mem_of_isQuoted {b : UInt8} (h : isQuoted b = true) (hsticks : sticksToNumber b = false) :
    b ∈ Byte.ofAscii ".Oiu" := by
  have hlist : ∀ b ∈ Byte.ofAscii "XxoOcC_.diu", sticksToNumber b = false →
      b ∈ Byte.ofAscii ".Oiu" :=
    List.all_iff_forall_prop.1 (by decide)
  rw [isQuoted, Bool.or_eq_true, Bool.or_eq_true, decide_eq_true_eq] at h
  rcases h with (hhex | hmem) | hquote
  · rw [sticksToNumber, hhex] at hsticks
    cases hsticks
  · exact hlist b hmem hsticks
  · rw [sticksToNumber, hquote, Bool.or_true] at hsticks
    cases hsticks

theorem isQuoted_eq_false_of_capital :
    ∀ b ∈ Byte.ofAscii "IU", isQuoted b = false ∧ Suffix.isLetter b = true :=
  List.all_iff_forall_prop.1 (by decide)

/-- The letters of suffixes are quoted, but for two capitals. -/
theorem mem_capitals_of_isLetter {b : UInt8} (h : Suffix.isLetter b = true)
    (hquoted : isQuoted b = false) : b ∈ Byte.ofAscii "IU" := by
  have hlist : ∀ c ∈ Byte.ofAscii "fdiu", ∀ b ∈ [c, c - 32], isQuoted b = false →
      b ∈ Byte.ofAscii "IU" := by
    decide +kernel
  refine hlist (Byte.toLower b) (of_decide_eq_true h) b ?_ hquoted
  rcases Byte.toLower_eq (b := b) rfl with heq | heq
  · rw [← heq]
    exact List.mem_cons_self
  · exact List.mem_cons_of_mem _ (List.mem_singleton.2 heq)

section Quotes

variable {literal after : List UInt8}

/-- Where a line does not go on with quoted bytes, an exponent's sign and a suffix may follow. -/
theorem quotedBytes_of_stop (h : AllQuoted literal)
    (hstop : ∀ b, after.head? = some b → isQuoted b = false) :
    quotedBytes (literal ++ after) = literal ++ (quotedExponent literal.getLast? after ++
      quotedSuffix (after.drop (quotedExponent literal.getLast? after).length)) := by
  have hnone : after.takeWhile isQuoted = [] := by
    cases after with
    | nil => rfl
    | cons b rest => rw [List.takeWhile_cons_of_neg (by simp [hstop b rfl])]
  have hdigits : (literal ++ after).takeWhile isQuoted = literal := by
    rw [List.takeWhile_append_of_pos h, hnone, List.append_nil]
  simp only [quotedBytes, hdigits, List.drop_left, List.append_assoc]

theorem takeWhile_prefix_quotedBytes (line : List UInt8) :
    line.takeWhile isQuoted <+: quotedBytes line := by
  rw [quotedBytes]
  exact (List.prefix_append _ _).trans (List.prefix_append _ _)

/-- The exponent's part of a quote, by the bytes at its two sides. -/
theorem quotedExponent_eq_nil_iff (before : Option UInt8) (b : UInt8) (rest : List UInt8) :
    quotedExponent before (b :: rest) = [] ↔
      (b ∈ Byte.ofAscii "+-" && before.any (· ∈ Byte.ofAscii "eE")) = false := by
  have hsign : (b == Byte.plus || b == Byte.minus) = decide (b ∈ Byte.ofAscii "+-") := by
    rw [Bool.eq_iff_iff]
    simp [show Byte.ofAscii "+-" = [Byte.plus, Byte.minus] from by decide]
  have hletter : (before == some 101 || before == some 69) =
      before.any (· ∈ Byte.ofAscii "eE") := by
    rw [Bool.eq_iff_iff]
    cases before <;> simp [show Byte.ofAscii "eE" = [101, 69] from by decide]
  rw [quotedExponent, hsign, hletter]
  split
  · rename_i hboth
    simp [hboth]
  · rename_i hboth
    simpa using hboth

theorem quotedSuffix_eq_nil_iff {b : UInt8} (rest : List UInt8) (hquoted : isQuoted b = false) :
    quotedSuffix (b :: rest) = [] ↔ b ∉ Byte.ofAscii "IU" := by
  have happly : (b == Byte.apostrophe || Suffix.isLetter b) = decide (b ∈ Byte.ofAscii "IU") := by
    rw [Bool.eq_iff_iff, decide_eq_true_eq, Bool.or_eq_true, beq_iff_eq]
    constructor
    · rintro (rfl | hletter)
      · cases hquoted
      · exact mem_capitals_of_isLetter hletter hquoted
    · exact fun hmem => .inr (isQuoted_eq_false_of_capital b hmem).2
  rw [quotedSuffix, happly]
  split
  · rename_i hmem
    simpa using hmem
  · rename_i hmem
    simpa using hmem

theorem all_of_allQuoted (h : AllQuoted literal) : literal.all (· ∉ Byte.ofAscii "IU") = true := by
  refine List.all_eq_true.2 fun b hb => decide_eq_true fun hmem => ?_
  have hquoted := h b hb
  rw [(isQuoted_eq_false_of_capital b hmem).1] at hquoted
  cases hquoted

theorem sticksToNumber_of_continues (h : continues after = false) {b : UInt8}
    (hb : after.head? = some b) : sticksToNumber b = false := by
  unfold continues at h
  split at h
  · cases hb
  · obtain rfl := Option.some.inj hb
    exact h
  · obtain rfl := Option.some.inj hb
    exact (Bool.or_eq_false_iff.1 h).1

/-- A literal whose bytes are all quoted is quoted whole, and more with it if the byte behind it is
one that the quote goes on with. -/
theorem quotedBytes_of_allQuoted (h : AllQuoted literal) (hafter : continues after = false) :
    literal <+: quotedBytes (literal ++ after) ∧
      (quotedBytes (literal ++ after) = literal ↔ quotesPast literal after.head? = false) := by
  cases after with
  | nil =>
    have hbytes : quotedBytes (literal ++ []) = literal :=
      (quotedBytes_of_stop h (by simp)).trans (List.append_nil literal)
    rw [hbytes, quotesPast, List.head?_nil, Option.any_none, Bool.and_false]
    exact ⟨List.prefix_refl literal, iff_of_true rfl rfl⟩
  | cons b rest =>
    have hsticks := sticksToNumber_of_continues hafter rfl
    have hpast : quotesPast literal (b :: rest).head? = (b ∈ Byte.ofAscii ".OiuIU" ||
        b ∈ Byte.ofAscii "+-" && literal.getLast?.any (· ∈ Byte.ofAscii "eE")) := by
      rw [quotesPast, all_of_allQuoted h, Bool.true_and]
      rfl
    have hheads : b ∈ Byte.ofAscii ".OiuIU" ↔
        b ∈ Byte.ofAscii ".Oiu" ∨ b ∈ Byte.ofAscii "IU" := by
      rw [← List.mem_append]
      exact Iff.of_eq (congrArg (b ∈ ·) (by decide))
    rw [hpast]
    by_cases hquoted : isQuoted b = true
    · have hdigits : literal ++ [b] <+: quotedBytes (literal ++ b :: rest) := by
        refine List.IsPrefix.trans ?_ (takeWhile_prefix_quotedBytes _)
        rw [List.takeWhile_append_of_pos h, List.takeWhile_cons_of_pos hquoted]
        exact (List.prefix_append_right_inj literal).2 ⟨_, rfl⟩
      refine ⟨(List.prefix_append literal [b]).trans hdigits, iff_of_false ?_ ?_⟩
      · intro heq
        have hlen := hdigits.length_le
        rw [heq, List.length_append] at hlen
        exact Nat.not_succ_le_self _ hlen
      · simp [hheads.2 (.inl (mem_of_isQuoted hquoted hsticks))]
    · have hstop := Bool.eq_false_iff.2 hquoted
      have hplain : b ∉ Byte.ofAscii ".Oiu" := by
        have hall : ∀ b ∈ Byte.ofAscii ".Oiu", isQuoted b = true :=
          List.all_iff_forall_prop.1 (by decide)
        exact fun hmem => hquoted (hall b hmem)
      have hhead : ∀ c, (b :: rest).head? = some c → isQuoted c = false :=
        fun c hc => Option.some.inj hc ▸ hstop
      rw [quotedBytes_of_stop h hhead]
      refine ⟨List.prefix_append _ _, ?_⟩
      rw [List.append_right_eq_self, List.append_eq_nil_iff, quotedExponent_eq_nil_iff,
        Bool.or_eq_false_iff, decide_eq_false_iff_not, hheads, or_iff_right hplain,
        ← quotedSuffix_eq_nil_iff rest hstop, and_comm]
      refine and_congr_left fun hexponent => ?_
      rw [(quotedExponent_eq_nil_iff literal.getLast? b rest).2 hexponent]
      rfl

/-- In front of a capital suffix the quote's first part stops, and its last one takes the suffix. -/
theorem quotedBytes_of_capital {front word : List UInt8} {letter : UInt8} (hfront : AllQuoted front)
    (hletter : letter ∈ Byte.ofAscii "IU") (hword : ∀ b ∈ word, Byte.isDigit b = true)
    (hafter : continues after = false) :
    quotedBytes ((front ++ letter :: word) ++ after) = front ++ letter :: word := by
  obtain ⟨hquoted, hsuffix⟩ := isQuoted_eq_false_of_capital letter hletter
  have hsign : letter ∉ Byte.ofAscii "+-" := by
    have hall : ∀ b ∈ Byte.ofAscii "IU", b ∉ Byte.ofAscii "+-" :=
      List.all_iff_forall_prop.1 (by decide)
    exact hall letter hletter
  have hexponent : quotedExponent front.getLast? (letter :: (word ++ after)) = [] := by
    rw [quotedExponent_eq_nil_iff]
    simp [hsign]
  have hdigits : (word ++ after).takeWhile Byte.isDigit = word := by
    rw [List.takeWhile_append_of_pos hword]
    cases after with
    | nil => exact List.append_nil word
    | cons b rest =>
      have hsticks := sticksToNumber_of_continues hafter (b := b) rfl
      have hdigit : ¬Byte.isDigit b = true := by
        intro hdigit
        simp [sticksToNumber, Byte.isHexDigit, hdigit] at hsticks
      rw [List.takeWhile_cons_of_neg hdigit, List.append_nil]
  have hstop : ∀ b, (letter :: (word ++ after)).head? = some b → isQuoted b = false :=
    fun b hb => Option.some.inj hb ▸ hquoted
  rw [List.append_assoc, List.cons_append, quotedBytes_of_stop hfront hstop, hexponent]
  simp only [List.nil_append, List.length_nil, List.drop_zero, quotedSuffix, hsuffix, Bool.or_true,
    if_true, hdigits]

end Quotes

end Number

/-! ## Suffixes on a line -/

namespace Suffix

/-- The bytes of a suffix from its letter on: the letter and digits. -/
structure TakesWidth (b : UInt8) (rest : List UInt8) (s : Suffix) : Prop where
  isLetter : isLetter b = true
  exists_width : ∃ width, (b :: rest).take s.length = b :: width ∧
    ∀ d ∈ width, Byte.isDigit d = true

section Width

variable {b : UInt8} {rest width : List UInt8} {kind : Option Kind}

theorem takesWidth_of_prefix (hb : isLetter b = true) (hwidth : width.isPrefixOf rest = true)
    (hdigits : width.all Byte.isDigit = true) :
    TakesWidth b rest ⟨kind, 1 + width.length, true⟩ := by
  refine ⟨hb, width, ?_, List.all_eq_true.1 hdigits⟩
  rw [Nat.add_comm, List.take_succ_cons,
    ← List.prefix_iff_eq_take.1 (List.isPrefixOf_iff_prefix.1 hwidth)]

/-- A letter alone. -/
theorem takesWidth_nil (hb : isLetter b = true) : TakesWidth b rest ⟨kind, 1, true⟩ :=
  takesWidth_of_prefix hb List.isPrefixOf_nil_left rfl

theorem isDigit_of_integerWidths {entry : List UInt8 × Nat} (h : entry ∈ integerWidths) :
    entry.1.all Byte.isDigit = true := by
  have hall : ∀ entry ∈ integerWidths, entry.1.all Byte.isDigit = true := by decide
  exact hall entry h

variable (hb : isLetter b = true)
include hb

theorem takesWidth_ofFloat : TakesWidth b rest (ofFloat rest) := by
  unfold ofFloat
  split
  · exact takesWidth_of_prefix hb ‹_› (by decide)
  · split
    · exact takesWidth_of_prefix hb ‹_› (by decide)
    · split
      · exact takesWidth_of_prefix hb ‹_› (by decide)
      · exact takesWidth_nil hb

theorem takesWidth_ofSigned (h : (ofSigned rest).complete = true) :
    TakesWidth b rest (ofSigned rest) := by
  rw [ofSigned] at h ⊢
  rcases width?_cases rest with ⟨word, width, hword, hmem, heq⟩ | heq
  · rw [heq]
    exact takesWidth_of_prefix hb hword (isDigit_of_integerWidths hmem)
  · rw [heq] at h
    cases h

theorem takesWidth_ofUnsigned : TakesWidth b rest (ofUnsigned rest) := by
  rw [ofUnsigned]
  rcases width?_cases rest with ⟨word, width, hword, hmem, heq⟩ | heq
  · rw [heq]
    exact takesWidth_of_prefix hb hword (isDigit_of_integerWidths hmem)
  · rw [heq]
    exact takesWidth_nil hb

omit hb in
theorem takesWidth_ofLetter (h : (ofLetter (b :: rest)).complete = true) :
    TakesWidth b rest (ofLetter (b :: rest)) := by
  have hletter : ∀ {c : UInt8}, (Byte.toLower b == c) = true → c ∈ Byte.ofAscii "fdiu" →
      isLetter b = true := by
    intro c heq hc
    obtain rfl := beq_iff_eq.1 heq
    exact decide_eq_true hc
  rw [ofLetter] at h ⊢
  split
  · exact takesWidth_ofFloat (hletter ‹_› (by decide))
  · rename_i hf
    rw [if_neg hf] at h
    split
    · exact takesWidth_nil (hletter ‹_› (by decide))
    · rename_i hd
      rw [if_neg hd] at h
      split
      · rename_i hi
        rw [if_pos hi] at h
        exact takesWidth_ofSigned (hletter hi (by decide)) h
      · rename_i hi
        rw [if_neg hi] at h
        split
        · exact takesWidth_ofUnsigned (hletter ‹_› (by decide))
        · rename_i hu
          rw [if_neg hu] at h
          cases h

end Width

/-- The bytes of a complete suffix: none, or a letter with digits behind it and maybe an apostrophe
in front. -/
theorem take_scan {line : List UInt8} (h : (scan line).complete = true) :
    line.take (scan line).length = [] ∨ ∃ quote letter width,
      line.take (scan line).length = quote ++ letter :: width ∧
      (∀ b ∈ quote, b = Byte.apostrophe) ∧ isLetter letter = true ∧
      ∀ b ∈ width, Byte.isDigit b = true := by
  cases line with
  | nil => exact .inl rfl
  | cons b rest =>
    rw [scan] at h ⊢
    split
    · rename_i hb
      obtain rfl := beq_iff_eq.1 hb
      rw [if_pos hb] at h
      cases rest with
      | nil => cases h
      | cons letter rest =>
        obtain ⟨hletter, width, htake, hdigits⟩ := takesWidth_ofLetter h
        refine .inr ⟨[Byte.apostrophe], letter, width, ?_, List.forall_mem_singleton.2 rfl, hletter,
          hdigits⟩
        dsimp only
        rw [Nat.add_comm, List.take_succ_cons, htake]
        rfl
    · rename_i hb
      rw [if_neg hb] at h
      split
      · rename_i hl
        rw [if_pos hl] at h
        obtain ⟨hletter, width, htake, hdigits⟩ := takesWidth_ofLetter h
        exact .inr ⟨[], b, width, htake, List.forall_mem_nil _, hletter, hdigits⟩
      · exact .inl rfl

end Suffix

/-! ## Literals that are out of range -/

namespace DigitRun

theorem mem_text_scanFrom (isDigit : UInt8 → Bool) (afterDigit : Bool) (line : List UInt8) :
    ∀ b ∈ (scanFrom isDigit afterDigit line).text, isDigit b = true ∨ b = Byte.underscore := by
  fun_induction scanFrom isDigit afterDigit line with
  | case1 afterDigit => exact List.forall_mem_nil _
  | case2 afterDigit b rest hb ih => exact List.forall_mem_cons.2 ⟨.inl hb, ih⟩
  | case3 afterDigit b rest hb hu hc ih =>
    have hunder : b = Byte.underscore := beq_iff_eq.1 (Bool.and_eq_true_iff.1 hu).1
    exact List.forall_mem_cons.2 ⟨.inr hunder, ih⟩
  | case4 afterDigit b rest hb hu hc => exact List.forall_mem_nil _
  | case5 afterDigit b rest hb hu => exact List.forall_mem_nil _

end DigitRun

theorem BaseMark.isHexDigit_of_isDigit {mark : BaseMark} {b : UInt8} (h : mark.isDigit b = true) :
    Byte.isHexDigit b = true := by
  have hoctal : Byte.isOctalDigit b = true → Byte.isHexDigit b = true := by
    intro hb
    rw [Byte.isOctalDigit, Bool.and_eq_true, decide_eq_true_eq, decide_eq_true_eq] at hb
    refine Byte.isHexDigit_of_isDigit ?_
    rw [Byte.isDigit, Bool.and_eq_true, decide_eq_true_eq, decide_eq_true_eq]
    exact ⟨hb.1, UInt8.le_trans hb.2 (by decide)⟩
  cases mark with
  | hex => exact h
  | bin =>
    rw [isDigit, Byte.isBinaryDigit, Bool.or_eq_true, beq_iff_eq, beq_iff_eq] at h
    rcases h with rfl | rfl <;> rfl
  | oct => exact hoctal h
  | oldOct => exact hoctal h
  | badOct => exact hoctal h

namespace Number

theorem AllQuoted.append {bytes bytes' : List UInt8} (h : AllQuoted bytes) (h' : AllQuoted bytes') :
    AllQuoted (bytes ++ bytes') :=
  List.forall_mem_append.2 ⟨h, h'⟩

theorem allQuoted_run {isDigit : UInt8 → Bool}
    (hdigit : ∀ b, isDigit b = true → Byte.isHexDigit b = true) (line : List UInt8) :
    AllQuoted (DigitRun.scan isDigit line).text := by
  intro b hb
  rcases DigitRun.mem_text_scanFrom isDigit false line b hb with hdig | rfl
  · exact isQuoted_of_isHexDigit (hdigit b hdig)
  · rfl

/-- The body of a number out of range: a bit pattern or a decimal integer, all quoted. -/
theorem allQuoted_body {line : List UInt8} {kind : Kind} {v : NumberValue}
    (hvalue : (NumberBody.scan line).value? kind = some v) (hrange : v.inRange = false) :
    AllQuoted (line.take (NumberBody.scan line).length) := by
  have hvalue := NumberBody.value?_eq_some_iff.1 hvalue
  rcases NumberBody.scan_cases line with ⟨letter, mark, rest, rfl, hmark, hscan⟩ | hscan
  · have hrun : AllQuoted (DigitRun.scan mark.isDigit rest).text :=
      allQuoted_run (fun _ => BaseMark.isHexDigit_of_isDigit) rest
    have hfront := DigitRun.scan_prefix mark.isDigit rest
    rw [hscan]
    simp only [NumberBody.length, NumberBody.text, List.length_cons, List.take_succ_cons]
    rw [← List.prefix_iff_eq_take.1 hfront]
    exact List.forall_mem_cons.2 ⟨rfl, List.forall_mem_cons.2 ⟨isQuoted_of_mark hmark, hrun⟩⟩
  · have hrun := allQuoted_run (fun _ => Byte.isHexDigit_of_isDigit) line
    have hfront := DigitRun.scan_prefix Byte.isDigit line
    rw [hscan, NumberBody.scanDecimal] at hvalue ⊢
    generalize DigitRun.scan Byte.isDigit line = whole at hvalue hrun hfront ⊢
    generalize NumberBody.fraction? (line.drop whole.text.length) = fraction at hvalue ⊢
    generalize NumberBody.exponent? _ = exponent at hvalue ⊢
    cases hvalue with
    | decimalInt whole type =>
      have hlen : (NumberBody.decimal whole none none).length = whole.text.length := by
        rw [NumberBody.length, NumberBody.text]
        simp [NumberBody.fractionText]
      rw [hlen, ← List.prefix_iff_eq_take.1 hfront]
      exact hrun
    | decimalFloat type hdouble => cases hrange

/-- A literal as messages quote it: the quote stops nowhere in it, or at a capital suffix. -/
inductive Quotable : List UInt8 → Prop
  | plain {literal : List UInt8} (h : AllQuoted literal) : Quotable literal
  | capital {front width : List UInt8} {letter : UInt8} (hfront : AllQuoted front)
      (hletter : letter ∈ Byte.ofAscii "IU") (hwidth : ∀ b ∈ width, Byte.isDigit b = true) :
      Quotable (front ++ letter :: width)

theorem Quotable.quotes {literal after : List UInt8} (h : Quotable literal)
    (hafter : continues after = false) :
    literal <+: quotedBytes (literal ++ after) ∧
      (quotedBytes (literal ++ after) = literal ↔
        quotesPast literal after.head? = false) := by
  cases h with
  | plain h => exact quotedBytes_of_allQuoted h hafter
  | @capital front width letter hfront hletter hwidth =>
    have hpast : quotesPast (front ++ letter :: width) after.head? = false := by
      simp [quotesPast, hletter]
    rw [quotedBytes_of_capital hfront hletter hwidth hafter]
    exact ⟨List.prefix_refl _, iff_of_true rfl hpast⟩

/-- A body that is all quoted makes a quotable literal with any complete suffix. -/
theorem quotable_append {body suffix : List UInt8} (hbody : AllQuoted body)
    (hsuffix : suffix = [] ∨ ∃ quote letter width, suffix = quote ++ letter :: width ∧
      (∀ b ∈ quote, b = Byte.apostrophe) ∧ Suffix.isLetter letter = true ∧
      ∀ b ∈ width, Byte.isDigit b = true) : Quotable (body ++ suffix) := by
  rcases hsuffix with rfl | ⟨quote, letter, width, rfl, hquote, hletter, hwidth⟩
  · rw [List.append_nil]
    exact .plain hbody
  · have hfront : AllQuoted (body ++ quote) := by
      refine hbody.append fun b hb => ?_
      rw [hquote b hb]
      rfl
    rw [← List.append_assoc]
    by_cases hquoted : isQuoted letter = true
    · have hrest : AllQuoted width := fun b hb => isQuoted_of_isDigit (hwidth b hb)
      exact .plain (hfront.append (List.forall_mem_cons.2 ⟨hquoted, hrest⟩))
    · exact .capital hfront (mem_capitals_of_isLetter hletter (Bool.eq_false_iff.2 hquoted)) hwidth

theorem quotable_literal {line : List UInt8} {v : NumberValue}
    (hcomplete : (Parts.scan line).suffix.complete = true)
    (hvalue : (Parts.scan line).value = some v) (hrange : v.inRange = false) :
    Quotable (line.take (Parts.scan line).length) := by
  have hbody : AllQuoted (line.take (NumberBody.scan line).length) := by
    change (if _ then none else _) = some v at hvalue
    split at hvalue
    · cases hvalue
    · exact allQuoted_body hvalue hrange
  change Quotable (line.take ((NumberBody.scan line).length +
    (Suffix.scan (line.drop (NumberBody.scan line).length)).length))
  rw [List.take_add]
  exact quotable_append hbody (Suffix.take_scan hcomplete)

/-! ## The text of a message -/

theorem ascii_of_isDigit {b : UInt8} (h : Byte.isDigit b = true) : b < 0x80 := by
  rw [Byte.isDigit, Bool.and_eq_true, decide_eq_true_eq, decide_eq_true_eq] at h
  exact UInt8.lt_of_le_of_lt h.2 (by decide)

theorem ascii_of_isQuoted {b : UInt8} (h : isQuoted b = true) : b < 0x80 := by
  have hlist : ∀ b ∈ Byte.ofAscii "XxoOcC_.diu", b < 0x80 := List.all_iff_forall_prop.1 (by decide)
  simp only [isQuoted, Byte.isHexDigit, Bool.or_eq_true, Bool.and_eq_true, decide_eq_true_eq,
    beq_iff_eq] at h
  rcases h with (((hdigit | hupper) | hlower) | hmem) | rfl
  · exact ascii_of_isDigit hdigit
  · exact UInt8.lt_of_le_of_lt hupper.2 (by decide)
  · exact UInt8.lt_of_le_of_lt hlower.2 (by decide)
  · exact hlist b hmem
  · decide

theorem ascii_of_isLetter {b : UInt8} (h : Suffix.isLetter b = true) : b < 0x80 := by
  have hcapitals : ∀ b ∈ Byte.ofAscii "IU", b < 0x80 := List.all_iff_forall_prop.1 (by decide)
  by_cases hquoted : isQuoted b = true
  · exact ascii_of_isQuoted hquoted
  · exact hcapitals b (mem_capitals_of_isLetter h (Bool.eq_false_iff.2 hquoted))

theorem ascii_of_mem_takeWhile {p : UInt8 → Bool} (hp : ∀ b, p b = true → b < 0x80)
    (line : List UInt8) : ∀ b ∈ line.takeWhile p, b < 0x80 :=
  fun b hb => hp b (List.mem_takeWhile_imp hb)

theorem ascii_of_mem_quotedBytes (line : List UInt8) : ∀ b ∈ quotedBytes line, b < 0x80 := by
  have hquoted := ascii_of_mem_takeWhile fun _ => ascii_of_isQuoted
  refine List.forall_mem_append.2 ⟨List.forall_mem_append.2 ⟨hquoted line, ?_⟩, ?_⟩
  · unfold quotedExponent
    split
    · exact List.forall_mem_nil _
    · split
      · rename_i b rest _ hsign
        simp only [Bool.and_eq_true, Bool.or_eq_true, beq_iff_eq] at hsign
        refine List.forall_mem_cons.2 ⟨?_, hquoted rest⟩
        rcases hsign.1 with rfl | rfl <;> decide
      · exact List.forall_mem_nil _
  · unfold quotedSuffix
    split
    · exact List.forall_mem_nil _
    · split
      · rename_i b rest _ hhead
        rw [Bool.or_eq_true, beq_iff_eq] at hhead
        refine List.forall_mem_cons.2 ⟨?_, ascii_of_mem_takeWhile (fun _ => ascii_of_isDigit) rest⟩
        rcases hhead with rfl | hletter
        · decide
        · exact ascii_of_isLetter hletter
      · exact List.forall_mem_nil _

theorem encode_quotedText (line : List UInt8) : Utf8.encode (quotedText line) = quotedBytes line :=
  Utf8.encode_lossy (Utf8.isValid_of_ascii (ascii_of_mem_quotedBytes line))

/-- A message about a number out of range quotes the literal, and exactly that unless the byte
behind it is one that the quote goes on with. -/
theorem quotes_outOfRange {line : List UInt8} {f : Finding} {text : String}
    (hf : f ∈ (Parts.scan line).valueFindings line)
    (hmessage : f.message = .numberOutOfRange text) :
    line.take (Parts.scan line).length <+: Utf8.encode text ∧
      (Utf8.encode text = line.take (Parts.scan line).length ↔
        quotesPast (line.take (Parts.scan line).length)
          (line.drop (Parts.scan line).length).head? = false) := by
  rw [Parts.valueFindings] at hf
  split at hf
  · obtain rfl := List.mem_singleton.1 hf
    cases hmessage
  · rename_i hsound
    split at hf
    · rename_i hrange
      obtain rfl := List.mem_singleton.1 hf
      obtain rfl := Message.numberOutOfRange.inj hmessage
      simp only [Parts.isMalformed, Bool.or_eq_true, not_or, Bool.not_eq_true, Bool.not_eq_true',
        Bool.not_eq_false] at hsound
      obtain ⟨⟨⟨-, hcomplete⟩, hafter⟩, -⟩ := hsound
      have hquotable : Quotable (line.take (Parts.scan line).length) := by
        cases hvalue : (Parts.scan line).value with
        | none =>
          rw [hvalue] at hrange
          cases hrange
        | some v =>
          rw [hvalue] at hrange
          exact quotable_literal hcomplete hvalue (by simpa using hrange)
      have hquotes := hquotable.quotes hafter
      rw [List.take_append_drop] at hquotes
      rw [encode_quotedText]
      exact hquotes
    · cases hf

end Number
end Lexeme
