import Lexeme.Proofs.Source.Line
import Lexeme.Proofs.Source.Hom

/-!
# Texts in other terminator styles

An input that ends its lines in line feeds can have each of them replaced by a carriage return or
by the two in a row. The lines stay what they are, and only their offsets and the byte behind each
of them change. Such a pair of texts is a source of its own, which reads like both.
-/

set_option autoImplicit false

namespace Lexeme

namespace Line

variable {b : UInt8} {rest : List UInt8}

theorem first_cons_of_isText (h : isText b = true) :
    first (b :: rest) = ⟨b :: (first rest).bytes, (first rest).ending⟩ := by
  rw [first, List.takeWhile_cons_of_pos h, List.dropWhile_cons_of_pos h]
  rfl

theorem first_cons_of_isBreak (h : Byte.isBreak b = true) :
    first (b :: rest) = ⟨[], if b == Byte.cr then .cr else .lf⟩ := by
  have hnil : ∀ c ∈ ([] : List UInt8), isText c = true := fun c hc => absurd hc List.not_mem_nil
  exact first_append_cons hnil h

end Line

namespace Text

theorem lineLength_cons_of_isText {b : UInt8} (h : Line.isText b = true) (rest : List UInt8) :
    lineLength (b :: rest) = lineLength rest + 1 := by
  rw [lineLength, lineLength, Line.first_cons_of_isText h, Line.afterText,
    List.dropWhile_cons_of_pos h, ← Line.afterText, List.length_cons]
  omega

theorem lineLength_cons_of_isBreak {b : UInt8} (h : Byte.isBreak b = true) (rest : List UInt8) :
    lineLength (b :: rest) = if b = Byte.cr ∧ rest[0]? = some Byte.lf then 2 else 1 := by
  have hnil : ∀ c ∈ ([] : List UInt8), Line.isText c = true :=
    fun c hc => absurd hc List.not_mem_nil
  have hafter : Line.afterText (b :: rest) = b :: rest := Line.afterText_append_cons hnil h
  rw [lineLength, Line.first_cons_of_isBreak h, hafter, terminatorLength_cons, List.length_nil,
    Nat.zero_add]

/-- The second input is the first one with every line feed kept, or replaced by a carriage return
or by a carriage return and a line feed. The first input has no carriage returns, and none of the
second stands by itself in front of a line feed that was kept. -/
inductive Restyled : List UInt8 → List UInt8 → Prop
  | nil : Restyled [] []
  | text {b : UInt8} {s t : List UInt8} (hb : Line.isText b = true) (h : Restyled s t) :
      Restyled (b :: s) (b :: t)
  | lf {s t : List UInt8} (h : Restyled s t) : Restyled (Byte.lf :: s) (Byte.lf :: t)
  | cr {s t : List UInt8} (hkept : t[0]? ≠ some Byte.lf) (h : Restyled s t) :
      Restyled (Byte.lf :: s) (Byte.cr :: t)
  | crlf {s t : List UInt8} (h : Restyled s t) : Restyled (Byte.lf :: s) (Byte.cr :: Byte.lf :: t)

namespace Restyled

variable {s t : List UInt8}

theorem bytes_first_eq (h : Restyled s t) : (Line.first t).bytes = (Line.first s).bytes := by
  induction h with
  | nil => rfl
  | text hb h ih => rw [Line.first_cons_of_isText hb, Line.first_cons_of_isText hb, ih]
  | lf h ih => rfl
  | cr hkept h ih => rfl
  | crlf h ih => rfl

theorem eof_iff (h : Restyled s t) :
    (Line.first t).ending = .eof ↔ (Line.first s).ending = .eof := by
  induction h with
  | nil => exact Iff.rfl
  | text hb h ih =>
    rw [Line.first_cons_of_isText hb, Line.first_cons_of_isText hb]
    exact ih
  | lf h ih => exact ⟨LineEnd.noConfusion, LineEnd.noConfusion⟩
  | cr hkept h ih => exact ⟨LineEnd.noConfusion, LineEnd.noConfusion⟩
  | crlf h ih => exact ⟨LineEnd.noConfusion, LineEnd.noConfusion⟩

/-- Behind the first line and its terminator, the one is still the other restyled. -/
theorem drop_lineLength (h : Restyled s t) :
    Restyled (s.drop (lineLength s)) (t.drop (lineLength t)) := by
  have hlf : ∀ rest, lineLength (Byte.lf :: rest) = 1 := fun rest => by
    rw [lineLength_cons_of_isBreak (by decide), if_neg fun hcr => absurd hcr.1 (by decide)]
  induction h with
  | nil => exact .nil
  | @text b s t hb h ih =>
    rw [lineLength_cons_of_isText hb, lineLength_cons_of_isText hb]
    exact ih
  | @lf s t h ih =>
    rw [hlf, hlf]
    exact h
  | @cr s t hkept h ih =>
    rw [hlf, lineLength_cons_of_isBreak (by decide), if_neg fun hcr => hkept hcr.2]
    exact h
  | @crlf s t h ih =>
    rw [hlf, lineLength_cons_of_isBreak (by decide), if_pos ⟨rfl, rfl⟩]
    exact h

/-- Text bytes in front stay. -/
theorem exists_of_append_left {mark : List UInt8} (hmark : ∀ b ∈ mark, Line.isText b = true)
    (h : Restyled (mark ++ s) t) : ∃ t', t = mark ++ t' ∧ Restyled s t' := by
  induction mark generalizing t with
  | nil => exact ⟨t, rfl, h⟩
  | cons b mark ih =>
    rw [List.forall_mem_cons] at hmark
    have hne : b ≠ Byte.lf := by
      rintro rfl
      exact absurd hmark.1 (by decide)
    generalize hs : b :: mark ++ s = s' at h
    cases h with
    | nil => cases hs
    | text hb h =>
      obtain ⟨rfl, rfl⟩ := List.cons.inj hs
      obtain ⟨t', rfl, h'⟩ := ih hmark.2 h
      exact ⟨t', rfl, h'⟩
    | lf h => exact absurd (List.cons.inj hs).1 hne
    | cr hkept h => exact absurd (List.cons.inj hs).1 hne
    | crlf h => exact absurd (List.cons.inj hs).1 hne

/-- Text bytes in front were there before. -/
theorem exists_of_append_right {mark : List UInt8} (hmark : ∀ b ∈ mark, Line.isText b = true)
    (h : Restyled s (mark ++ t)) : ∃ s', s = mark ++ s' ∧ Restyled s' t := by
  induction mark generalizing s with
  | nil => exact ⟨s, rfl, h⟩
  | cons b mark ih =>
    rw [List.forall_mem_cons] at hmark
    have hbreak : ∀ b', Byte.isBreak b' = true → b ≠ b' := by
      rintro b' hb' rfl
      rw [← Line.isText_eq_false_iff, hmark.1] at hb'
      cases hb'
    generalize ht : b :: mark ++ t = t' at h
    cases h with
    | nil => cases ht
    | text hb h =>
      obtain ⟨rfl, rfl⟩ := List.cons.inj ht
      obtain ⟨s', rfl, h'⟩ := ih hmark.2 h
      exact ⟨s', rfl, h'⟩
    | lf h => exact absurd (List.cons.inj ht).1 (hbreak _ (by decide))
    | cr hkept h => exact absurd (List.cons.inj ht).1 (hbreak _ (by decide))
    | crlf h => exact absurd (List.cons.inj ht).1 (hbreak _ (by decide))

/-- A byte order mark is text, so both inputs have one or none has. -/
theorem ofBytes (h : Restyled s t) : Restyled (Text.ofBytes s).rest (Text.ofBytes t).rest := by
  have htext : ∀ b ∈ Reader.byteOrderMark, Line.isText b = true := List.all_eq_true.1 (by decide)
  by_cases hs : Reader.byteOrderMark <+: s
  · obtain ⟨s', rfl⟩ := hs
    obtain ⟨t', rfl, h'⟩ := h.exists_of_append_left htext
    rw [Text.ofBytes, Text.ofBytes, if_pos (List.isPrefixOf_iff_prefix.2 (List.prefix_append _ _)),
      if_pos (List.isPrefixOf_iff_prefix.2 (List.prefix_append _ _))]
    exact h'
  · have ht : ¬Reader.byteOrderMark <+: t := by
      rintro ⟨t', rfl⟩
      obtain ⟨s', rfl, -⟩ := h.exists_of_append_right htext
      exact hs (List.prefix_append _ _)
    rw [Text.ofBytes, Text.ofBytes, if_neg fun hp => hs (List.isPrefixOf_iff_prefix.1 hp),
      if_neg fun hp => ht (List.isPrefixOf_iff_prefix.1 hp)]
    exact h

end Restyled
end Text

/-- A text and the same text with its terminators in another style. -/
structure TextPair where
  plain : Text
  restyled : Text
  related : Text.Restyled plain.rest restyled.rest

namespace TextPair

def ofBytes {s t : List UInt8} (h : Text.Restyled s t) : TextPair :=
  ⟨.ofBytes s, .ofBytes t, h.ofBytes⟩

instance : LineSource TextPair where
  line p := LineSource.line p.plain
  offset p := p.plain.offset
  beyond p := LineSource.beyond p.plain
  next p := ⟨p.plain.nextLine, p.restyled.nextLine, p.related.drop_lineLength⟩
  next_lt p := LineSource.next_lt p.plain

def toPlain : LineSource.Hom TextPair Text where
  toFun := plain
  line_eq _ := rfl
  offset_eq _ := rfl
  beyond_eq _ := rfl
  next_eq _ _ := rfl

def toRestyled : LineSource.Likeness TextPair Text where
  toFun := restyled
  bytes_eq p := p.related.bytes_first_eq
  eof_iff p := p.related.eof_iff
  next_eq _ _ := rfl

end TextPair
end Lexeme
