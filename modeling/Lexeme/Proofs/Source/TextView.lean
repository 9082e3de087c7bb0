import Lexeme.Proofs.Source.Represents
import Lexeme.Proofs.Source.Line
import Lexeme.Proofs.Source.Hom

/-!
# A reader reads like a text

The text view of a reader is what it has not passed yet, in the window or still in the stream.
A reader that represents its input shows the first line of that text, and its step to the next
line is the text's own, however many windows it takes. So such readers are sources of their own
kind, which read like readers on the one side and like texts on the other.
-/

set_option autoImplicit false

namespace Lexeme

namespace Reader

/-- The input from the current line on, as one text. -/
def toText (r : Reader) : Text := ⟨r.offsetAt r.lineStart, r.upcoming ++ r.stream.bytes⟩

section Lines

variable {r : Reader} {input : List UInt8}

theorem Represents.lineStart_le_length (hr : r.Represents input) :
    r.lineStart ≤ r.window.bytes.length := by
  have hs := hr.lineStart_le
  cases he : r.window.exhausted with
  | true => rw [hr.filled.ended he]; exact hs
  | false => have := (hr.filled.lastBreak he).lt; omega

theorem Represents.toText_eq (hr : r.Represents input) :
    r.toText = Text.within input (r.offsetAt r.lineStart) := by
  rw [toText, Text.within, upcoming, ← List.drop_append_of_le_length hr.lineStart_le_length,
    hr.contents, List.drop_drop]
  rfl

/-- Until the stream ends, the current line ends in the window. -/
theorem Represents.exists_isBreak (hr : r.Represents input) (he : r.window.exhausted = false) :
    ∃ b ∈ r.upcoming, Byte.isBreak b = true := by
  obtain ⟨b, hb, hbreak⟩ := (hr.filled.lastBreak he).here
  refine ⟨b, ?_, hbreak⟩
  have hu : r.upcoming[r.window.sentinel - r.lineStart]? = some b := by
    rw [upcoming, List.getElem?_drop, Nat.add_sub_cancel' hr.lineStart_le, hb]
  exact List.mem_of_getElem? hu

theorem Represents.line_eq (hr : r.Represents input) : r.line = Line.first r.toText.rest := by
  cases he : r.window.exhausted with
  | true => rw [toText, hr.filled.drained he, List.append_nil, line]
  | false => rw [toText, Line.first_append (hr.exists_isBreak he), line]

theorem Represents.beyond_eq (hr : r.Represents input) :
    (Line.afterText r.upcoming).length + r.stream.pending =
      (Line.afterText r.toText.rest).length := by
  cases he : r.window.exhausted with
  | true =>
    rw [toText, ByteStream.pending, hr.filled.drained he, List.append_nil]
    rfl
  | false =>
    rw [toText, Line.afterText_append (hr.exists_isBreak he), List.length_append,
      ByteStream.pending]

/-- No terminator lies behind the sentinel. -/
theorem Represents.le_sentinel (hr : r.Represents input) {pos : Nat}
    (hb : Byte.isBreak (r.byteAt pos) = true) : pos ≤ r.window.sentinel := by
  have hlt := (List.getElem?_eq_some_iff.1 (getElem?_of_isBreak hb)).1
  cases he : r.window.exhausted with
  | true =>
    have := hr.filled.ended he
    omega
  | false =>
    by_contra hgt
    rw [hr.filled.full he] at hlt
    rw [hr.byteAt_behind he (by omega) hlt] at hb
    cases hb

/-- The place behind the text of the current line. -/
def lineEnd (r : Reader) : Nat := r.lineStart + r.line.bytes.length

theorem offsetAt_lineEnd (r : Reader) :
    r.offsetAt r.lineEnd = r.offsetAt r.lineStart + r.line.bytes.length :=
  (Nat.add_assoc _ _ _).symm

theorem getElem?_lineEnd (r : Reader) : r.window.bytes[r.lineEnd]? = r.line.ending.byte? := by
  have h := Line.getElem?_length_first r.upcoming
  rwa [upcoming, List.getElem?_drop] at h

theorem byteAt_lineEnd {b : UInt8} (h : r.line.ending.byte? = some b) :
    r.byteAt r.lineEnd = b := by
  rw [byteAt, getElem?_lineEnd, h, Option.getD_some]

theorem isBreak_of_byte? {e : LineEnd} {b : UInt8} (h : e.byte? = some b) :
    Byte.isBreak b = true := by
  cases e <;> cases h <;> decide

theorem Represents.lineEnd_le_sentinel (hr : r.Represents input) :
    r.lineEnd ≤ r.window.sentinel := by
  cases hb : r.line.ending.byte? with
  | some b =>
    apply hr.le_sentinel
    rw [byteAt_lineEnd hb]
    exact isBreak_of_byte? hb
  | none =>
    have hlen := Line.length_first_add r.upcoming
    have hle := hr.lineStart_le_length
    have hall : r.lineEnd ≤ r.window.bytes.length := by
      simp only [lineEnd, line, upcoming, List.length_drop] at hlen ⊢
      omega
    cases he : r.window.exhausted with
    | true => rw [← hr.filled.ended he]; exact hall
    | false =>
      obtain ⟨b, hmem, hbreak⟩ := hr.exists_isBreak he
      have heof : r.line.ending = .eof := by
        cases h : r.line.ending <;> simp [h, LineEnd.byte?] at hb ⊢
      rw [← Line.isText_eq_false_iff, Line.ending_eq_eof_iff.1 heof b hmem] at hbreak
      cases hbreak

end Lines

section Next

variable {r : Reader} {input : List UInt8}

theorem Represents.landsAt_of_lf (hr : r.Represents input) (he : r.line.ending = .lf) :
    LandsAt (r.passFeed r.lineEnd) input
      (r.offsetAt r.lineStart + Text.lineLength r.toText.rest) := by
  have hb : r.byteAt r.lineEnd = Byte.lf := byteAt_lineEnd (by rw [he]; rfl)
  have hl := landsAt_passFeed hr hr.lineEnd_le_sentinel (by rw [hb]; decide)
  have hlen := Text.lineLength_eq (by rw [← hr.line_eq, he]; decide)
  rw [← hr.line_eq, if_neg (by simp [he])] at hlen
  rw [hlen, ← Nat.add_assoc, ← offsetAt_lineEnd]
  exact hl

theorem Represents.landsAt_of_cr (hr : r.Represents input) (he : r.line.ending = .cr) :
    LandsAt (r.passReturn r.lineEnd) input
      (r.offsetAt r.lineStart + Text.lineLength r.toText.rest) := by
  have hb : r.byteAt r.lineEnd = Byte.cr := byteAt_lineEnd (by rw [he]; rfl)
  have hl := landsAt_passReturn hr hr.lineEnd_le_sentinel (by rw [hb]; decide)
  have hlen := Text.lineLength_eq (by rw [← hr.line_eq, he]; decide)
  have hnext : r.toText.rest[r.line.bytes.length + 1]? = input[r.offsetAt r.lineEnd + 1]? := by
    rw [hr.toText_eq, Text.within, List.getElem?_drop, offsetAt_lineEnd, Nat.add_assoc]
  rw [← hr.line_eq] at hlen
  simp only [he, true_and, hnext] at hlen
  rw [hlen, ← Nat.add_assoc, ← offsetAt_lineEnd]
  exact hl

/-- The step to the next line lands behind the line and its terminator. -/
theorem Represents.nextLine_landsAt (hr : r.Represents input) (h : r.line.ending ≠ .eof) :
    LandsAt (r.nextLine.lineStart, r.nextLine) input
      (r.offsetAt r.lineStart + Text.lineLength r.toText.rest) := by
  unfold nextLine
  cases he : r.line.ending with
  | eof => exact absurd he h
  | lf =>
    have hl := hr.landsAt_of_lf he
    exact ⟨hl.represents.withCursor _, rfl, hl.offset_eq⟩
  | cr =>
    have hl := hr.landsAt_of_cr he
    exact ⟨hl.represents.withCursor _, rfl, hl.offset_eq⟩

theorem represents_nextLine (hr : r.Represents input) : r.nextLine.Represents input := by
  by_cases h : r.line.ending = .eof
  · rw [nextLine, h]
    exact hr
  · exact (hr.nextLine_landsAt h).represents

theorem Represents.toText_nextLine (hr : r.Represents input) (h : r.line.ending ≠ .eof) :
    r.nextLine.toText = r.toText.nextLine := by
  have hl := hr.nextLine_landsAt h
  rw [hl.represents.toText_eq, hl.offset_eq, hr.toText_eq, Text.nextLine_within]
  rfl

end Next

/-! ## The first line -/

theorem byteOrderMark_length_le {bytes : List UInt8} {i : Nat} {b : UInt8}
    (hmark : byteOrderMark <+: bytes) (hi : bytes[i]? = some b) (hb : Byte.isBreak b = true) :
    byteOrderMark.length ≤ i := by
  obtain ⟨rest, rfl⟩ := hmark
  by_contra hlt
  rw [List.getElem?_append_left (by omega)] at hi
  have hmem : byteOrderMark.all Line.isText = true := rfl
  have htext := List.all_eq_true.1 hmem b (List.mem_of_getElem? hi)
  rw [Line.isText, hb] at htext
  cases htext

/-- A byte order mark in front of the input shows in the first window, whatever its size. -/
theorem lineStart_ofStream (stream : ByteStream) (size : Nat) (h : 0 < size) :
    (ofStream stream size h).lineStart =
      if byteOrderMark.isPrefixOf stream.bytes then byteOrderMark.length else 0 := by
  have hf := Window.filled_fill [] size h stream (Nat.zero_le _)
  have hc := Window.fill_append [] size h stream
  unfold ofStream
  generalize Window.fill [] size h stream = filled at hf hc ⊢
  obtain ⟨window, rest⟩ := filled
  dsimp only at hf hc ⊢
  rw [List.nil_append] at hc
  congr 1
  simp only [List.isPrefixOf_iff_prefix, eq_iff_iff]
  constructor
  · rintro ⟨_, hp⟩
    rw [← hc]
    exact hp.trans (List.prefix_append _ _)
  · intro hp
    have hle : byteOrderMark.length ≤ window.sentinel := by
      cases he : window.exhausted with
      | true =>
        have hd : rest.bytes = [] := hf.drained he
        rw [hd, List.append_nil] at hc
        rw [← hf.ended he, hc]
        exact hp.length_le
      | false =>
        obtain ⟨b, hb, hbreak⟩ := (hf.lastBreak he).here
        refine byteOrderMark_length_le hp ?_ hbreak
        rw [← hc, List.getElem?_append_left (hf.lastBreak he).lt, hb]
    refine ⟨hle, ?_⟩
    rw [← hc] at hp
    refine List.prefix_of_prefix_length_le hp (List.prefix_append _ _) ?_
    cases he : window.exhausted with
    | true => rw [hf.ended he]; exact hle
    | false => have := (hf.lastBreak he).lt; omega

/-- Opened on a stream, a reader reads like the stream's bytes in memory. -/
theorem toText_ofStream (stream : ByteStream) (size : Nat) (h : 0 < size) :
    (ofStream stream size h).toText = Text.ofBytes stream.bytes := by
  have hbase : (ofStream stream size h).base = 0 := rfl
  rw [(represents_ofStream stream size h).toText_eq, Text.within, offsetAt, hbase, Nat.zero_add,
    lineStart_ofStream, Text.ofBytes]
  split <;> rfl

end Reader

/-! ## Readers as sources -/

/-- A reader that represents its input. -/
structure SoundReader (input : List UInt8) where
  reader : Reader
  represents : reader.Represents input

namespace SoundReader

variable {input : List UInt8}

def ofStream (stream : ByteStream) (size : Nat) (h : 0 < size) : SoundReader stream.bytes :=
  ⟨.ofStream stream size h, Reader.represents_ofStream stream size h⟩

instance : LineSource (SoundReader input) where
  line s := s.reader.line
  offset s := LineSource.offset s.reader
  beyond s := LineSource.beyond s.reader
  next s := ⟨s.reader.nextLine, Reader.represents_nextLine s.represents⟩
  next_lt s h := LineSource.next_lt s.reader h

def toReader : LineSource.Hom (SoundReader input) Reader where
  toFun := reader
  line_eq _ := rfl
  offset_eq _ := rfl
  beyond_eq _ := rfl
  next_eq _ _ := rfl

def toText : LineSource.Hom (SoundReader input) Text where
  toFun s := s.reader.toText
  line_eq s := s.represents.line_eq.symm
  offset_eq _ := rfl
  beyond_eq s := s.represents.beyond_eq.symm
  next_eq s h := s.represents.toText_nextLine h

end SoundReader
end Lexeme
