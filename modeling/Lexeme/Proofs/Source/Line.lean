import Mathlib.Data.List.TakeWhile
import Lexeme.Source.Text

/-!
# Lines of a text

Any bytes are a line's text up to their end or up to a terminator, and this settles what their
first line is and what lies behind it. `splitLines` cuts bytes into lines without looking at
windows or streams; a text is a suffix of its input, and stepping to the next line moves its
offset over one line and its terminator.
-/

set_option autoImplicit false

namespace Lexeme

namespace Line

theorem isText_eq_false_iff {b : UInt8} : isText b = false ↔ Byte.isBreak b = true := by
  simp [isText]

theorem isText_of_ne {b : UInt8} (hcr : b ≠ Byte.cr) (hlf : b ≠ Byte.lf) : isText b = true := by
  simp [isText, Byte.isBreak, hcr, hlf]

/-- A byte of a class without terminators is text. -/
theorem isText_of_class {p : UInt8 → Bool} (hcr : p Byte.cr = false) (hlf : p Byte.lf = false)
    {b : UInt8} (h : p b = true) : isText b = true := by
  apply isText_of_ne
  · rintro rfl
    rw [hcr] at h
    cases h
  · rintro rfl
    rw [hlf] at h
    cases h

/-- Bytes are the text of one line, or they are cut by a first terminator. -/
theorem split (bytes : List UInt8) :
    (∀ b ∈ bytes, isText b = true) ∨
      ∃ text b rest, bytes = text ++ b :: rest ∧ (∀ c ∈ text, isText c = true) ∧
        Byte.isBreak b = true := by
  induction bytes with
  | nil => exact .inl fun b hb => absurd hb List.not_mem_nil
  | cons c bytes ih =>
    cases hc : isText c with
    | false => exact .inr ⟨[], c, bytes, rfl, by simp, isText_eq_false_iff.1 hc⟩
    | true =>
      rcases ih with ih | ⟨text, b, rest, rfl, ht, hb⟩
      · exact .inl (by simpa [hc] using ih)
      · exact .inr ⟨c :: text, b, rest, rfl, by simpa [hc] using ht, hb⟩

variable {text rest : List UInt8} {b : UInt8}

theorem afterText_of_isText (h : ∀ c ∈ text, isText c = true) : afterText text = [] :=
  List.dropWhile_eq_nil_iff.2 h

theorem first_of_isText (h : ∀ c ∈ text, isText c = true) : first text = ⟨text, .eof⟩ := by
  have hd := afterText_of_isText h
  rw [afterText] at hd
  rw [first, hd, List.takeWhile_eq_self_iff.2 h]
  rfl

theorem afterText_append_cons (h : ∀ c ∈ text, isText c = true) (hb : Byte.isBreak b = true) :
    afterText (text ++ b :: rest) = b :: rest := by
  rw [afterText, List.dropWhile_append_of_pos h, List.dropWhile_cons,
    if_neg (by simp [isText_eq_false_iff.2 hb])]

theorem first_append_cons (h : ∀ c ∈ text, isText c = true) (hb : Byte.isBreak b = true) :
    first (text ++ b :: rest) = ⟨text, if b == Byte.cr then .cr else .lf⟩ := by
  have hd : afterText (text ++ b :: rest) = b :: rest := afterText_append_cons h hb
  rw [afterText] at hd
  rw [first, hd, List.takeWhile_append_of_pos h, List.takeWhile_cons,
    if_neg (by simp [isText_eq_false_iff.2 hb]), List.append_nil]
  rfl

/-- A first line that ends in some bytes is the same when more bytes follow. -/
theorem first_append {bytes : List UInt8} (h : ∃ b ∈ bytes, Byte.isBreak b = true)
    (more : List UInt8) : first (bytes ++ more) = first bytes := by
  rcases split bytes with hs | ⟨text, c, rest, rfl, ht, hc⟩
  · obtain ⟨b, hb, hbreak⟩ := h
    rw [← isText_eq_false_iff, hs b hb] at hbreak
    cases hbreak
  · rw [List.append_assoc, List.cons_append, first_append_cons ht hc, first_append_cons ht hc]

theorem afterText_append {bytes : List UInt8} (h : ∃ b ∈ bytes, Byte.isBreak b = true)
    (more : List UInt8) : afterText (bytes ++ more) = afterText bytes ++ more := by
  rcases split bytes with hs | ⟨text, c, rest, rfl, ht, hc⟩
  · obtain ⟨b, hb, hbreak⟩ := h
    rw [← isText_eq_false_iff, hs b hb] at hbreak
    cases hbreak
  · rw [List.append_assoc, List.cons_append, afterText_append_cons ht hc,
      afterText_append_cons ht hc, List.cons_append]

theorem bytes_append_afterText (bytes : List UInt8) :
    (first bytes).bytes ++ afterText bytes = bytes :=
  List.takeWhile_append_dropWhile

theorem bytes_first_append (h : ∀ c ∈ text, isText c = true) (more : List UInt8) :
    (first (text ++ more)).bytes = text ++ (first more).bytes :=
  List.takeWhile_append_of_pos h

theorem isText_of_mem_first {bytes : List UInt8} {c : UInt8} (h : c ∈ (first bytes).bytes) :
    isText c = true := by
  rcases split bytes with hs | ⟨text, b, rest, rfl, ht, hb⟩
  · rw [first_of_isText hs] at h
    exact hs c h
  · rw [first_append_cons ht hb] at h
    exact ht c h

theorem getElem?_of_lt_first {bytes : List UInt8} {i : Nat} (hi : i < (first bytes).bytes.length) :
    bytes[i]? = some (first bytes).bytes[i] := by
  have hsplit := bytes_append_afterText bytes
  rw [← List.getElem?_eq_getElem hi, ← List.getElem?_append_left hi, hsplit]

/-- Further right on a line, it is the same line. -/
theorem first_drop {bytes : List UInt8} {n : Nat} (hn : n ≤ (first bytes).bytes.length) :
    first (bytes.drop n) = ⟨(first bytes).bytes.drop n, (first bytes).ending⟩ := by
  rcases split bytes with hs | ⟨text, b, rest, rfl, ht, hb⟩
  · rw [first_of_isText hs, first_of_isText fun c hc => hs c (List.mem_of_mem_drop hc)]
  · rw [first_append_cons ht hb] at hn ⊢
    rw [List.drop_append_of_le_length hn,
      first_append_cons (fun c hc => ht c (List.mem_of_mem_drop hc)) hb]

/-- The first byte of a line, and the line from there on. -/
theorem first_eq_cons {input : List UInt8} {p : Nat} {bytes : List UInt8} {ending : LineEnd}
    (h : first (input.drop p) = ⟨b :: bytes, ending⟩) :
    input[p]? = some b ∧ isText b = true ∧ first (input.drop (p + 1)) = ⟨bytes, ending⟩ := by
  have hsplit := bytes_append_afterText (input.drop p)
  rw [h] at hsplit
  have hmem : b ∈ (first (input.drop p)).bytes := by
    rw [h]
    exact List.mem_cons_self
  refine ⟨?_, isText_of_mem_first hmem, ?_⟩
  · have hhead : (input.drop p).head? = input[p]? := List.head?_drop
    rw [← hsplit] at hhead
    exact hhead.symm
  · rw [← List.drop_drop, first_drop]
    · rw [h]
      rfl
    · rw [h]
      exact Nat.le_add_left 1 _

/-- A string on one line: its text goes on behind the closing quote, up to the line's end. -/
theorem bytes_first_quoted (h : ∀ c ∈ text, isText c = true) (more : List UInt8) :
    (first (Byte.quote :: (text ++ Byte.quote :: more))).bytes =
      Byte.quote :: (text ++ Byte.quote :: (first more).bytes) := by
  have hquote : isText Byte.quote = true := by decide
  have htext : ∀ c ∈ Byte.quote :: (text ++ [Byte.quote]), isText c = true :=
    List.forall_mem_cons.2
      ⟨hquote, List.forall_mem_append.2 ⟨h, List.forall_mem_singleton.2 hquote⟩⟩
  have hline := bytes_first_append htext more
  simp only [List.cons_append, List.append_assoc, List.nil_append] at hline
  exact hline

theorem head?_first_ne {bytes : List UInt8} (h : bytes.head? ≠ some b) :
    (first bytes).bytes.head? ≠ some b := by
  cases bytes with
  | nil => exact h
  | cons c bytes =>
    rw [first, List.takeWhile_cons]
    split
    · exact h
    · exact (Option.some_ne_none _).symm

theorem ending_eq_eof_iff {bytes : List UInt8} :
    (first bytes).ending = .eof ↔ ∀ c ∈ bytes, isText c = true := by
  constructor
  · intro h
    rcases split bytes with hs | ⟨text, c, rest, rfl, ht, hc⟩
    · exact hs
    · rw [first_append_cons ht hc] at h
      dsimp only at h
      split at h <;> cases h
  · intro h
    rw [first_of_isText h]

end Line

/-- The byte that ends a line, where there is one. -/
def LineEnd.byte? : LineEnd → Option UInt8
  | cr => some Byte.cr
  | lf => some Byte.lf
  | eof => none

/-- Behind a line's text stands the terminator it ends with. -/
theorem Line.getElem?_length_first (bytes : List UInt8) :
    bytes[(first bytes).bytes.length]? = (first bytes).ending.byte? := by
  rcases split bytes with hs | ⟨text, b, rest, rfl, ht, hb⟩
  · rw [first_of_isText hs, List.getElem?_eq_none (Nat.le_refl _)]
    rfl
  · rw [first_append_cons ht hb, List.getElem?_append_right (Nat.le_refl _), Nat.sub_self]
    rcases Bool.or_eq_true_iff.1 hb with hb | hb <;> rw [beq_iff_eq] at hb <;> subst hb <;> rfl

/-- The lines of some bytes. A line feed, a carriage return, and a carriage return with a line
feed behind it each end a line. -/
def splitLines : List UInt8 → List (List UInt8)
  | [] => [[]]
  | Byte.cr :: Byte.lf :: rest => [] :: splitLines rest
  | b :: rest =>
    if Byte.isBreak b then [] :: splitLines rest else (splitLines rest).modifyHead (b :: ·)

theorem splitLines_cons_of_isText {b : UInt8} (h : Line.isText b = true) (rest : List UInt8) :
    splitLines (b :: rest) = (splitLines rest).modifyHead (b :: ·) := by
  have hb : Byte.isBreak b = false := by simpa [Line.isText] using h
  rw [splitLines, if_neg (by simp [hb])]
  rintro rest' rfl
  exact absurd hb (by decide)

theorem splitLines_of_isText {text : List UInt8} (h : ∀ c ∈ text, Line.isText c = true) :
    splitLines text = [text] := by
  induction text with
  | nil => rfl
  | cons c text ih =>
    rw [List.forall_mem_cons] at h
    rw [splitLines_cons_of_isText h.1, ih h.2]
    rfl

/-- The first line stands in front of the lines behind its terminator. -/
theorem splitLines_append_cons {text rest : List UInt8} {b : UInt8}
    (h : ∀ c ∈ text, Line.isText c = true) (hb : Byte.isBreak b = true) :
    splitLines (text ++ b :: rest) =
      text :: splitLines ((b :: rest).drop (Text.terminatorLength (b :: rest))) := by
  induction text with
  | nil =>
    by_cases hpair : ∃ rest', b = Byte.cr ∧ rest = Byte.lf :: rest'
    · obtain ⟨rest', rfl, rfl⟩ := hpair
      rfl
    · have hne : ∀ rest', b = Byte.cr → rest = Byte.lf :: rest' → False :=
        fun rest' h1 h2 => hpair ⟨rest', h1, h2⟩
      rw [List.nil_append, splitLines, if_pos hb, Text.terminatorLength]
      · rfl
      · exact hne
      · exact hne
  | cons c text ih =>
    rw [List.forall_mem_cons] at h
    rw [List.cons_append, splitLines_cons_of_isText h.1, ih h.2]
    rfl

theorem splitLines_of_eof {bytes : List UInt8} (h : (Line.first bytes).ending = .eof) :
    splitLines bytes = [(Line.first bytes).bytes] := by
  rw [Line.ending_eq_eof_iff] at h
  rw [Line.first_of_isText h, splitLines_of_isText h]

namespace Text

/-- The text that an input is from an offset on. -/
def within (input : List UInt8) (offset : Nat) : Text := ⟨offset, input.drop offset⟩

/-- How many bytes the first line and its terminator take. -/
def lineLength (bytes : List UInt8) : Nat :=
  (Line.first bytes).bytes.length + terminatorLength (Line.afterText bytes)

theorem terminatorLength_cons (b : UInt8) (rest : List UInt8) :
    terminatorLength (b :: rest) = if b = Byte.cr ∧ rest[0]? = some Byte.lf then 2 else 1 := by
  by_cases hpair : b = Byte.cr ∧ rest[0]? = some Byte.lf
  · obtain ⟨rfl, hlf⟩ := hpair
    cases rest with
    | nil => cases hlf
    | cons c rest =>
      obtain rfl := Option.some.inj hlf
      rfl
  · rw [if_neg hpair, terminatorLength]
    rintro rest' rfl rfl
    exact hpair ⟨rfl, rfl⟩

/-- A terminator is two bytes long if it is a carriage return with a line feed behind it. -/
theorem lineLength_eq {bytes : List UInt8} (h : (Line.first bytes).ending ≠ .eof) :
    lineLength bytes = (Line.first bytes).bytes.length +
      if (Line.first bytes).ending = .cr ∧
        bytes[(Line.first bytes).bytes.length + 1]? = some Byte.lf then 2 else 1 := by
  rcases Line.split bytes with hs | ⟨text, b, rest, rfl, ht, hb⟩
  · exact absurd (Line.ending_eq_eof_iff.2 hs) h
  · have hcr : (if b == Byte.cr then LineEnd.cr else LineEnd.lf) = .cr ↔ b = Byte.cr := by
      by_cases hc : b = Byte.cr <;> simp [hc]
    rw [lineLength, Line.first_append_cons ht hb, Line.afterText_append_cons ht hb,
      terminatorLength_cons]
    simp only [hcr, List.getElem?_append_right (Nat.le_succ text.length),
      Nat.succ_sub (Nat.le_refl text.length), Nat.sub_self, List.getElem?_cons_succ]

theorem nextLine_within (input : List UInt8) (offset : Nat) :
    (within input offset).nextLine =
      within input (offset + lineLength (input.drop offset)) := by
  rw [nextLine, within, within, List.drop_drop]
  rfl

theorem splitLines_of_ne_eof {bytes : List UInt8} (h : (Line.first bytes).ending ≠ .eof) :
    splitLines bytes = (Line.first bytes).bytes :: splitLines (bytes.drop (lineLength bytes)) := by
  rcases Line.split bytes with hs | ⟨text, b, rest, rfl, ht, hb⟩
  · exact absurd (Line.ending_eq_eof_iff.2 hs) h
  · rw [splitLines_append_cons ht hb, lineLength, Line.first_append_cons ht hb,
      Line.afterText_append_cons ht hb, ← List.drop_drop, List.drop_left]

end Text
end Lexeme
