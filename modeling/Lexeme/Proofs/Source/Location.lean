import Lexeme.Proofs.Source.Passage
import Lexeme.Proofs.Layout.Route

/-!
# The line and the column of an offset

The bytes of an input alone tell on which line an offset lies and where that line starts: a
terminator ends behind a line feed, and behind a carriage return that no line feed follows. A
cursor that goes along lines and over terminators carries the same line number and column, so
that the bookkeeping of a scan agrees with the bytes wherever the scan leads.
-/

set_option autoImplicit false

namespace Lexeme

theorem Line.isBreak_of_afterText_eq_cons {bytes rest : List UInt8} {b : UInt8}
    (h : afterText bytes = b :: rest) : Byte.isBreak b = true := by
  rcases split bytes with hs | ⟨text, c, tail, rfl, ht, hc⟩
  · rw [afterText_of_isText hs] at h
    cases h
  · rw [afterText_append_cons ht hc] at h
    obtain ⟨rfl, -⟩ := List.cons.inj h
    exact hc

namespace Text

/-- Whether a terminator ends behind the byte at an offset. -/
def endsBreak (input : List UInt8) (i : Nat) : Bool :=
  input[i]? == some Byte.lf || (input[i]? == some Byte.cr && input[i + 1]? != some Byte.lf)

/-- How many terminators end at or before an offset. -/
def breaksBefore (input : List UInt8) : Nat → Nat
  | 0 => 0
  | i + 1 => breaksBefore input i + if endsBreak input i then 1 else 0

/-- The offset of the first byte of the line that an offset lies on. The first line starts behind
the byte order mark, if there is one. -/
def lineStart (input : List UInt8) : Nat → Nat
  | 0 => if Reader.byteOrderMark.isPrefixOf input then Reader.byteOrderMark.length else 0
  | i + 1 => if endsBreak input i then i + 1 else lineStart input i

/-- The position of an offset, the first line having the number `first` in 32 bits. -/
def positionAt (file : FileId) (first : Nat) (input : List UInt8) (offset : Nat) : Position :=
  ⟨file, wrap32 (first + breaksBefore input offset), offset - lineStart input offset⟩

/-- The byte in front of an offset, on the same line. -/
def before? (input : List UInt8) (offset : Nat) : Option UInt8 :=
  if lineStart input offset = offset then none else input[offset - 1]?

theorem endsBreak_eq_false {input : List UInt8} {i : Nat} {b : UInt8} (h : input[i]? = some b)
    (hb : Line.isText b = true) : endsBreak input i = false := by
  rw [Line.isText, Bool.not_eq_true', Byte.isBreak, Bool.or_eq_false_iff] at hb
  obtain ⟨hcr, hlf⟩ := hb
  rw [beq_eq_false_iff_ne] at hcr hlf
  simp [endsBreak, h, hcr, hlf]

/-- Along a line nothing changes. -/
theorem location_eq {input : List UInt8} {s o : Nat} (hle : s ≤ o)
    (h : ∀ i, s ≤ i → i < o → endsBreak input i = false) :
    breaksBefore input o = breaksBefore input s ∧ lineStart input o = lineStart input s := by
  induction o, hle using Nat.le_induction with
  | base => exact ⟨rfl, rfl⟩
  | succ o hso ih =>
    obtain ⟨hbreaks, hstart⟩ := ih fun i hlo hhi => h i hlo (Nat.lt_succ_of_lt hhi)
    have ho := h o hso (Nat.lt_succ_self o)
    rw [breaksBefore, lineStart, ho, hbreaks, hstart]
    exact ⟨rfl, rfl⟩

/-- Behind a terminator a new line starts. -/
theorem location_succ {input : List UInt8} {i : Nat} (h : endsBreak input i = true) :
    breaksBefore input (i + 1) = breaksBefore input i + 1 ∧ lineStart input (i + 1) = i + 1 := by
  rw [breaksBefore, lineStart, h]
  exact ⟨rfl, rfl⟩

theorem breaksBefore_le (input : List UInt8) (o : Nat) : breaksBefore input o ≤ o := by
  induction o with
  | zero => exact Nat.le_refl 0
  | succ o ih =>
    rw [breaksBefore]
    split
    · exact Nat.succ_le_succ ih
    · exact Nat.le_succ_of_le ih

theorem breaksBefore_mono (input : List UInt8) {s o : Nat} (h : s ≤ o) :
    breaksBefore input s ≤ breaksBefore input o := by
  induction o, h using Nat.le_induction with
  | base => exact Nat.le_refl _
  | succ o _ ih => exact Nat.le_trans ih (Nat.le_add_right _ _)

/-- Offsets with the same terminators in front are on one line. -/
theorem lineStart_of_breaksBefore {input : List UInt8} {s o : Nat} (hle : s ≤ o)
    (h : breaksBefore input o = breaksBefore input s) : lineStart input o = lineStart input s := by
  induction o, hle using Nat.le_induction with
  | base => rfl
  | succ o hso ih =>
    have hmono := breaksBefore_mono input hso
    rw [breaksBefore] at h
    split at h
    · omega
    · rename_i hends
      exact (if_neg hends).trans (ih h)

/-- How many terminators some bytes have. -/
def breaks (bytes : List UInt8) : Nat := breaksBefore bytes bytes.length

/-- A terminator ends behind its last byte and not before. -/
theorem endsBreak_terminator {input : List UInt8} {e : Nat} {b : UInt8} {rest : List UInt8}
    (h : input.drop e = b :: rest) (hb : Byte.isBreak b = true) :
    endsBreak input (e + (terminatorLength (b :: rest) - 1)) = true ∧
      ∀ i, e ≤ i → i < e + (terminatorLength (b :: rest) - 1) → endsBreak input i = false := by
  have hbyte : ∀ j, input[e + j]? = (b :: rest)[j]? := by
    intro j
    rw [← h, List.getElem?_drop]
  have h0 : input[e]? = some b := hbyte 0
  have h1 : input[e + 1]? = rest[0]? := hbyte 1
  rw [terminatorLength_cons]
  split
  · rename_i hpair
    obtain ⟨rfl, hlf⟩ := hpair
    rw [hlf] at h1
    refine ⟨?_, ?_⟩
    · simp [endsBreak, h1]
    · intro i hlo hhi
      obtain rfl : i = e := by omega
      have hne : Byte.cr ≠ Byte.lf := by decide
      simp [endsBreak, h0, h1, hne]
  · rename_i hpair
    refine ⟨?_, fun i hlo hhi => by omega⟩
    rcases Bool.or_eq_true_iff.1 hb with hb | hb
    · obtain rfl := beq_iff_eq.1 hb
      have hne : rest[0]? ≠ some Byte.lf := fun hlf => hpair ⟨rfl, hlf⟩
      rw [← h1] at hne
      simp [endsBreak, h0, hne]
    · obtain rfl := beq_iff_eq.1 hb
      simp [endsBreak, h0]

/-- The text starts on the first line, and there is no terminator in the byte order mark. -/
theorem location_ofBytes (input : List UInt8) :
    breaksBefore input (ofBytes input).offset = 0 ∧
      lineStart input (ofBytes input).offset = (ofBytes input).offset := by
  by_cases hmark : Reader.byteOrderMark.isPrefixOf input = true
  · have hsource : ofBytes input = ⟨3, input.drop 3⟩ := if_pos hmark
    have htext : ∀ i, 0 ≤ i → i < 3 → endsBreak input i = false := by
      intro i _ hi
      obtain ⟨rest, rfl⟩ := List.isPrefixOf_iff_prefix.1 hmark
      have hbyte : (Reader.byteOrderMark ++ rest)[i]? = some Reader.byteOrderMark[i] := by
        rw [List.getElem?_append_left hi, List.getElem?_eq_getElem hi]
      have hall : Reader.byteOrderMark.all Line.isText = true := by decide
      exact endsBreak_eq_false hbyte (List.all_eq_true.1 hall _ (List.getElem_mem hi))
    obtain ⟨hbreaks, hstart⟩ := location_eq (Nat.zero_le 3) htext
    rw [hsource, hbreaks, hstart, lineStart, if_pos hmark]
    exact ⟨rfl, rfl⟩
  · have hsource : ofBytes input = ⟨0, input⟩ := if_neg hmark
    rw [hsource]
    exact ⟨rfl, if_neg hmark⟩

end Text

namespace Cursor

/-- The cursor stands in the input, and its line number and its line's start are those that the
bytes tell. -/
structure Located (input : List UInt8) (first : Nat) (c : Cursor Text) : Prop where
  within : c.Within input
  line_eq : c.line = wrap32 (first + Text.breaksBefore input c.source.offset)
  start_eq : Text.lineStart input c.source.offset = c.source.offset

section Located

variable {input : List UInt8} {first : Nat} {c : Cursor Text}

theorem Within.endsBreak_eq_false (h : c.Within input) {i : Nat} (hlo : c.source.offset ≤ i)
    (hhi : i < c.source.offset + c.lineBytes.length) : Text.endsBreak input i = false := by
  obtain ⟨j, rfl⟩ := Nat.exists_eq_add_of_le hlo
  have hj : j < (Line.first (input.drop c.source.offset)).bytes.length := by
    rw [← h.lineBytes_eq]
    omega
  have hbyte : input[c.source.offset + j]? =
      some (Line.first (input.drop c.source.offset)).bytes[j] := by
    rw [← List.getElem?_drop, Line.getElem?_of_lt_first hj]
  exact Text.endsBreak_eq_false hbyte (Line.isText_of_mem_first (List.getElem_mem hj))

theorem Located.location_eq (h : c.Located input first) :
    Text.breaksBefore input c.offset = Text.breaksBefore input c.source.offset ∧
      Text.lineStart input c.offset = c.source.offset := by
  have hcol := h.within.column_le
  have hoff : c.offset = c.source.offset + c.column := rfl
  have hline := Text.location_eq (s := c.source.offset) (o := c.offset) (by omega)
    fun i hlo hhi => h.within.endsBreak_eq_false hlo (by omega)
  rwa [h.start_eq] at hline

/-- Cursors on one line have the same number of terminators in front. -/
theorem Located.breaksBefore_eq {d : Cursor Text} (h : c.Located input first)
    (hd : d.Located input first) (hsource : d.source.offset = c.source.offset) :
    Text.breaksBefore input d.offset = Text.breaksBefore input c.offset := by
  rw [hd.location_eq.1, h.location_eq.1, hsource]

theorem Located.before?_eq (h : c.Located input first) :
    c.before? = Text.before? input c.offset := by
  have hoff : c.offset = c.source.offset + c.column := rfl
  have hcol := h.within.column_le
  rw [Cursor.before?, Text.before?, h.location_eq.2]
  by_cases hcolumn : c.column = 0
  · rw [if_pos hcolumn, if_pos (by omega)]
  · have hlt : c.column - 1 < (Line.first (input.drop c.source.offset)).bytes.length := by
      rw [← h.within.lineBytes_eq]
      omega
    have hplace : c.offset - 1 = c.source.offset + (c.column - 1) := by omega
    rw [if_neg hcolumn, if_neg (by omega), h.within.lineBytes_eq, hplace, ← List.getElem?_drop,
      ← List.getElem?_append_left hlt, Line.bytes_append_afterText]

theorem Located.advance (h : c.Located input first) {n : Nat} (hn : n ≤ c.rest.length) :
    (c.advance n).Located input first :=
  ⟨h.within.advance hn, h.line_eq, h.start_eq⟩

/-- Behind the text of a line that is not the last one stands the terminator that the step to the
next line passes. -/
theorem Within.exists_terminator (h : c.Within input) (hlast : c.isLast = false) :
    ∃ b rest, input.drop (c.offset + c.rest.length) = b :: rest ∧ Byte.isBreak b = true ∧
      c.nextLine.offset = c.offset + c.rest.length + Text.terminatorLength (b :: rest) := by
  obtain ⟨-, hoffset⟩ := within_nextLine h hlast
  have hne : (Line.first (input.drop c.source.offset)).ending ≠ .eof := by
    rw [← h.ending_eq]
    simpa [isLast] using hlast
  have hdrop : input.drop (c.offset + c.rest.length) =
      Line.afterText (input.drop c.source.offset) := by
    rw [← List.drop_drop, h.drop_offset, List.drop_left]
  obtain ⟨b, rest, hafter⟩ := List.exists_cons_of_ne_nil (Line.afterText_ne_nil hne)
  rw [hafter] at hdrop hoffset
  exact ⟨b, rest, hdrop, Line.isBreak_of_afterText_eq_cons hafter, hoffset⟩

/-- Up to the last byte of its terminator, no terminator ends on a line. -/
theorem Within.endsBreak_before_nextLine (h : c.Within input) (hlast : c.isLast = false) {i : Nat}
    (hlo : c.source.offset ≤ i) (hhi : i + 1 < c.nextLine.offset) :
    Text.endsBreak input i = false := by
  obtain ⟨b, rest, hdrop, hb, hoffset⟩ := h.exists_terminator hlast
  have hcol := h.column_le
  have hoff : c.offset = c.source.offset + c.column := rfl
  by_cases hi : i < c.offset + c.rest.length
  · refine h.endsBreak_eq_false hlo ?_
    rw [Cursor.rest, List.length_drop] at hi
    omega
  · exact (Text.endsBreak_terminator hdrop hb).2 i (Nat.not_lt.1 hi) (by omega)

theorem offset_nextLine (hlast : c.isLast = false) :
    c.nextLine.offset = c.nextLine.source.offset := by
  rw [Cursor.nextLine, if_neg (by simp [hlast])]
  rfl

theorem line_nextLine (hlast : c.isLast = false) : c.nextLine.line = wrap32 (c.line + 1) := by
  rw [Cursor.nextLine, if_neg (by simp [hlast])]

/-- The step to the next line passes one terminator. -/
theorem Within.location_nextLine (h : c.Within input) (hlast : c.isLast = false) :
    Text.breaksBefore input c.nextLine.source.offset =
        Text.breaksBefore input c.source.offset + 1 ∧
      Text.lineStart input c.nextLine.source.offset = c.nextLine.source.offset := by
  obtain ⟨b, rest, hdrop, hb, hoffset⟩ := h.exists_terminator hlast
  have hends := (Text.endsBreak_terminator hdrop hb).1
  have hpos := Text.terminatorLength_pos (List.cons_ne_nil b rest)
  have hoff : c.offset = c.source.offset + c.column := rfl
  have hstart := offset_nextLine hlast
  have hlastByte := Text.location_eq (s := c.source.offset)
    (o := c.offset + c.rest.length + (Text.terminatorLength (b :: rest) - 1)) (by omega)
    fun i hlo hhi => h.endsBreak_before_nextLine hlast hlo (by omega)
  have hbehind := Text.location_succ hends
  have hnext : c.offset + c.rest.length + (Text.terminatorLength (b :: rest) - 1) + 1 =
      c.nextLine.source.offset := by omega
  rwa [hnext, hlastByte.1] at hbehind

theorem Located.nextLine (h : c.Located input first) : c.nextLine.Located input first := by
  cases hlast : c.isLast with
  | true =>
    rw [Cursor.nextLine, if_pos hlast]
    exact h
  | false =>
    obtain ⟨hbreaks, hstart⟩ := h.within.location_nextLine hlast
    refine ⟨(within_nextLine h.within hlast).1, ?_, hstart⟩
    rw [line_nextLine hlast, hbreaks, h.line_eq, wrap32_wrap32_add, Nat.add_assoc]

theorem Route.located {d : Cursor Text} (hroute : Route c d) (h : c.Located input first) :
    d.Located input first := by
  induction hroute with
  | refl => exact h
  | advance _ hn ih => exact ih.advance hn
  | nextLine _ ih => exact ih.nextLine

/-- No line is numbered higher than the last one. -/
theorem Located.line_le (h : c.Located input first) : c.line ≤ first + Text.breaks input := by
  have hstart : c.source.offset ≤ input.length := by
    have hle := h.within.offset_le
    have hoff : c.offset = c.source.offset + c.column := rfl
    omega
  have hmono := Text.breaksBefore_mono input hstart
  rw [h.line_eq]
  exact (Nat.mod_le _ _).trans (Nat.add_le_add_left hmono first)

/-- In an input that columns can count, the cursor's position is that of its offset. -/
theorem Located.position_eq (h : c.Located input first) (hlen : input.length < pow2 32) :
    c.position = Text.positionAt c.file first input c.offset := by
  obtain ⟨hbreaks, hstart⟩ := h.location_eq
  have hle := h.within.offset_le
  have hoff : c.offset = c.source.offset + c.column := rfl
  have hcol : min (c.column + 0) Position.maxColumn = c.offset - c.source.offset := by
    rw [Position.maxColumn]
    omega
  rw [position, Cursor.positionAt, Text.positionAt, hbreaks, hstart, ← h.line_eq, hcol]

/-- Where the first line starts, the cursor stands at the front of an input that lines can
count. -/
theorem Located.front (h : c.Located input first) (hlen : input.length < pow2 32)
    (hmark : ¬Reader.byteOrderMark <+: input) (hline : c.line = wrap32 first)
    (hcolumn : c.column = 0) : c.offset = 0 ∧ c.rest <+: input := by
  have hbreaks : Text.breaksBefore input c.source.offset = 0 := by
    have hcount := Text.breaksBefore_le input c.source.offset
    have hle := h.within.offset_le
    have hoff : c.offset = c.source.offset + c.column := rfl
    exact wrap32_add_left_cancel (by omega) (h.line_eq.symm.trans hline)
  have hstart : c.source.offset = 0 := by
    rw [← h.start_eq, Text.lineStart_of_breaksBefore (Nat.zero_le _) hbreaks, Text.lineStart,
      if_neg fun hprefix => hmark (List.isPrefixOf_iff_prefix.1 hprefix)]
  have hoffset : c.offset = 0 := by
    change c.source.offset + c.column = 0
    rw [hstart, hcolumn]
  have hdrop := h.within.drop_offset
  rw [hoffset, List.drop_zero] at hdrop
  exact ⟨hoffset, _, hdrop.symm⟩

end Located
end Cursor
end Lexeme
