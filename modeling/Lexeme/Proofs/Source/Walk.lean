import Lexeme.Proofs.Source.TextView

/-!
# Walking a reader byte by byte

A scanner walks a reader: it passes the bytes of a line one after the other, hands each
terminator to the reader and goes on where the reader says. `walk` records what it sees on the
way, and the result is the list of lines that `splitLines` cuts the input into, each with its
number, its columns and its text, whatever the window and however the stream delivers. Numbers and
columns have 32 bits: the numbers start again at 0, and the columns stay at the last one. A NUL in
the input is a byte like others, since only the end of the input reads as the end.
-/

set_option autoImplicit false

namespace Lexeme

/-- A line as a walk meets it. -/
structure WalkedLine where
  number : Nat
  /-- The bytes, each with its column. -/
  bytes : List (UInt8 × Nat)
  /-- The text shown for the current line at every place, the line's end included. -/
  shown : List String
deriving DecidableEq, Repr

namespace WalkedLine

def cons (byte : UInt8) (column : Nat) (text : String) (l : WalkedLine) : WalkedLine :=
  { l with bytes := (byte, column) :: l.bytes, shown := text :: l.shown }

/-- The part of a line from a column on. Columns are distances from the line's start, up to
the last one there is. -/
def ofPart (number column : Nat) (line : List UInt8) : WalkedLine where
  number := number
  bytes := ((line.drop column).zipIdx column).map fun p => (p.1, min p.2 Position.maxColumn)
  shown := List.replicate (line.length + 1 - column) (Utf8.lossy line)

def ofLine (number : Nat) (line : List UInt8) : WalkedLine := ofPart number 0 line

/-- Lines in their order, the first one with the given number, in 32 bits. -/
def numbered (start : Nat) (lines : List (List UInt8)) : List WalkedLine :=
  (lines.zipIdx start).map fun p => ofLine (wrap32 p.2) p.1

theorem numbered_cons (start : Nat) (line : List UInt8) (lines : List (List UInt8)) :
    numbered start (line :: lines) = ofLine (wrap32 start) line :: numbered (start + 1) lines :=
  rfl

theorem numbered_wrap32 (start : Nat) (lines : List (List UInt8)) :
    numbered (wrap32 start) lines = numbered start lines := by
  have hstart : ∀ m n, wrap32 m = wrap32 n → numbered m lines = numbered n lines := by
    induction lines with
    | nil => exact fun _ _ _ => rfl
    | cons line lines ih =>
      intro m n hmn
      have hnext : wrap32 (m + 1) = wrap32 (n + 1) := by
        rw [← wrap32_wrap32_add m, hmn, wrap32_wrap32_add]
      rw [numbered_cons, numbered_cons, hmn, ih _ _ hnext]
  exact hstart _ _ (wrap32_wrap32 start)

theorem getElem?_numbered (start : Nat) (lines : List (List UInt8)) (k : Nat) :
    (numbered start lines)[k]? = lines[k]?.map (ofLine (wrap32 (start + k))) := by
  rw [numbered, List.getElem?_map, List.getElem?_zipIdx, Option.map_map]
  rfl

end WalkedLine

namespace Reader

/-- Walk on from a place, looking at no more than `fuel` places; `none` if the end of the input
is not among them. -/
def walk : Nat → Nat → Reader → Option (List WalkedLine)
  | 0, _, _ => none
  | fuel + 1, pos, r =>
    let ended : WalkedLine := ⟨r.lineNumber, [], [r.lineText false]⟩
    if r.byteAt pos == Byte.cr then
      (walk fuel (r.passReturn pos).1 (r.passReturn pos).2).map (ended :: ·)
    else if r.byteAt pos == Byte.lf then
      (walk fuel (r.passFeed pos).1 (r.passFeed pos).2).map (ended :: ·)
    else if r.isEnd pos then some [ended]
    else
      (walk fuel (pos + 1) r).map
        (List.modifyHead (.cons (r.byteAt pos) (r.columnAt pos) (r.lineText false)))

section Places

variable {r : Reader} {input : List UInt8}

theorem columnAt_of_le {pos : Nat} (h : r.lineStart ≤ pos) :
    r.columnAt pos = min (pos - r.lineStart) Position.maxColumn := by
  rw [columnAt, Nat.max_eq_left h, Nat.min_eq_right h]

theorem getElem?_lineStart_add {i : Nat} (h : i < r.line.bytes.length) :
    r.window.bytes[r.lineStart + i]? = r.line.bytes[i]? := by
  have hsplit : r.line.bytes ++ Line.afterText r.upcoming = r.upcoming :=
    Line.bytes_append_afterText r.upcoming
  rw [← List.getElem?_append_left h, hsplit, upcoming, List.getElem?_drop]

theorem byteAt_lineStart_add {i : Nat} (h : i < r.line.bytes.length) :
    r.byteAt (r.lineStart + i) = r.line.bytes[i] := by
  rw [byteAt, getElem?_lineStart_add h, List.getElem?_eq_getElem h, Option.getD_some]

theorem Represents.offsetAt_le (hr : r.Represents input) {pos : Nat}
    (h : pos ≤ r.window.sentinel) : r.offsetAt pos ≤ input.length := by
  have hlen := hr.length_eq
  have hs : r.window.sentinel ≤ r.window.bytes.length := by
    cases he : r.window.exhausted with
    | true => exact Nat.le_of_eq (hr.filled.ended he).symm
    | false => exact Nat.le_of_lt (hr.filled.lastBreak he).lt
  rw [offsetAt] at hlen ⊢
  omega

theorem Represents.lines_of_eof (hr : r.Represents input) (he : r.line.ending = .eof) :
    splitLines r.toText.rest = [r.line.bytes] ∧ r.offsetAt r.lineEnd = input.length := by
  have heof := he
  rw [hr.line_eq] at he ⊢
  refine ⟨splitLines_of_eof he, ?_⟩
  have hall := Line.first_of_isText (Line.ending_eq_eof_iff.1 he)
  have hle := hr.offsetAt_le hr.lineStart_le
  rw [offsetAt_lineEnd, hr.line_eq, hall, hr.toText_eq, Text.within, List.length_drop]
  omega

/-- Behind a terminator the walk stands at the start of the lines that follow. -/
theorem LandsAt.lines_eq {p : Nat × Reader} (hr : r.Represents input)
    (he : r.line.ending ≠ .eof)
    (hl : LandsAt p input (r.offsetAt r.lineStart + Text.lineLength r.toText.rest)) :
    splitLines r.toText.rest = r.line.bytes :: splitLines p.2.toText.rest := by
  have hdrop : ∀ n, r.toText.rest.drop n = input.drop (r.offsetAt r.lineStart + n) := by
    intro n
    rw [hr.toText_eq, Text.within, List.drop_drop]
  rw [Text.splitLines_of_ne_eof (by rwa [← hr.line_eq]), ← hr.line_eq,
    hl.represents.toText_eq, hl.offset_eq, hdrop]
  rfl

end Places

/-! ## One look -/

section Looks

variable {r : Reader} {input : List UInt8}

theorem walk_text (hr : r.Represents input) (fuel : Nat) {i : Nat}
    (hi : i < r.line.bytes.length) :
    walk (fuel + 1) (r.lineStart + i) r =
      (walk fuel (r.lineStart + (i + 1)) r).map (List.modifyHead
        (.cons r.line.bytes[i] (min i Position.maxColumn) (Utf8.lossy r.line.bytes))) := by
  have hb := byteAt_lineStart_add hi
  have ht : Line.isText (r.byteAt (r.lineStart + i)) = true := by
    rw [hb]
    exact Line.isText_of_mem_first (List.getElem_mem hi)
  simp only [Line.isText, Byte.isBreak, Bool.not_or, Bool.and_eq_true, Bool.not_eq_true'] at ht
  have hin : r.lineStart + i < r.lineEnd := Nat.add_lt_add_left hi _
  have hend := hr.lineEnd_le_sentinel
  have hnoend : r.isEnd (r.lineStart + i) = false := by
    have hle := hr.offsetAt_le hend
    rw [← Bool.not_eq_true, hr.isEnd_iff (by omega)]
    rw [offsetAt] at hle ⊢
    omega
  rw [walk, if_neg (by simp [ht.1]), if_neg (by simp [ht.2]), if_neg (by simp [hnoend]), hb,
    columnAt_of_le (Nat.le_add_right _ _), Nat.add_sub_cancel_left]
  rfl

theorem walk_eof (hr : r.Represents input) (he : r.line.ending = .eof) (fuel : Nat) :
    walk (fuel + 1) r.lineEnd r =
      some [⟨r.lineNumber, [], [Utf8.lossy r.line.bytes]⟩] := by
  have hnul : r.byteAt r.lineEnd = Byte.nul := by
    rw [byteAt, getElem?_lineEnd, he]
    rfl
  have hoff := (hr.lines_of_eof he).2
  rw [walk, if_neg (by rw [hnul]; decide), if_neg (by rw [hnul]; decide),
    if_pos ((hr.isEnd_iff hr.lineEnd_le_sentinel).2 hoff)]
  rfl

/-- At a terminator the walk goes on at the start of a line, with a number one higher. -/
theorem walk_terminator (hr : r.Represents input) (he : r.line.ending ≠ .eof) (fuel : Nat) :
    ∃ p : Nat × Reader,
      LandsAt p input (r.offsetAt r.lineStart + Text.lineLength r.toText.rest) ∧
      p.2.lineNumber = wrap32 (r.lineNumber + 1) ∧
      walk (fuel + 1) r.lineEnd r =
        (walk fuel p.1 p.2).map (⟨r.lineNumber, [], [Utf8.lossy r.line.bytes]⟩ :: ·) := by
  cases h : r.line.ending with
  | eof => exact absurd h he
  | lf =>
    have hb : r.byteAt r.lineEnd = Byte.lf := byteAt_lineEnd (by rw [h]; rfl)
    refine ⟨_, hr.landsAt_of_lf h, lineNumber_passFeed _ _, ?_⟩
    rw [walk, if_neg (by rw [hb]; decide), if_pos (by rw [hb]; decide)]
    rfl
  | cr =>
    have hb : r.byteAt r.lineEnd = Byte.cr := byteAt_lineEnd (by rw [h]; rfl)
    refine ⟨_, hr.landsAt_of_cr h, lineNumber_passReturn _ _, ?_⟩
    rw [walk, if_pos (by rw [hb]; decide)]
    rfl

end Looks

/-! ## The whole walk -/

theorem ofPart_length (number : Nat) (line : List UInt8) :
    WalkedLine.ofPart number line.length line = ⟨number, [], [Utf8.lossy line]⟩ := by
  rw [WalkedLine.ofPart, List.drop_length, Nat.add_sub_cancel_left]
  rfl

theorem ofPart_of_lt {number column : Nat} {text : List UInt8} (h : column < text.length) :
    WalkedLine.ofPart number column text =
      (WalkedLine.ofPart number (column + 1) text).cons text[column]
        (min column Position.maxColumn) (Utf8.lossy text) := by
  have hsub : text.length + 1 - column = text.length + 1 - (column + 1) + 1 := by omega
  rw [WalkedLine.ofPart, List.drop_eq_getElem_cons h, List.zipIdx_cons, hsub]
  rfl

theorem numbered_splitLines {r : Reader} {input : List UInt8} (hr : r.Represents input) (n : Nat) :
    WalkedLine.numbered n (splitLines r.toText.rest) =
      .ofLine (wrap32 n) r.line.bytes ::
        WalkedLine.numbered (n + 1) (splitLines r.toText.rest).tail := by
  by_cases he : r.line.ending = .eof
  · rw [(hr.lines_of_eof he).1]
    rfl
  · rw [(hr.nextLine_landsAt he).lines_eq hr he]
    rfl

/-- From any place of the current line, the walk sees the rest of that line and then the lines
that follow. -/
theorem walk_eq {input : List UInt8} (fuel : Nat) :
    ∀ (r : Reader) (i : Nat), r.Represents input → i ≤ r.line.bytes.length →
      input.length < r.offsetAt (r.lineStart + i) + fuel →
      walk fuel (r.lineStart + i) r =
        some (.ofPart r.lineNumber i r.line.bytes ::
          WalkedLine.numbered (r.lineNumber + 1) (splitLines r.toText.rest).tail) := by
  induction fuel with
  | zero =>
    intro r i hr hi hfuel
    have hle := hr.offsetAt_le hr.lineEnd_le_sentinel
    rw [offsetAt, lineEnd] at hle
    rw [offsetAt] at hfuel
    omega
  | succ fuel ih =>
    intro r i hr hi hfuel
    rw [offsetAt] at hfuel
    by_cases hin : i < r.line.bytes.length
    · rw [walk_text hr fuel hin, ih r (i + 1) hr hin (by rw [offsetAt]; omega), ofPart_of_lt hin]
      rfl
    · obtain rfl : i = r.line.bytes.length := Nat.le_antisymm hi (Nat.le_of_not_lt hin)
      rw [ofPart_length]
      by_cases he : r.line.ending = .eof
      · rw [(hr.lines_of_eof he).1]
        exact walk_eof hr he fuel
      · obtain ⟨p, hl, hn, hwalk⟩ := walk_terminator hr he fuel
        have hlonger : r.line.bytes.length < Text.lineLength r.toText.rest := by
          rw [hr.line_eq, Text.lineLength_eq (by rwa [← hr.line_eq])]
          split <;> omega
        have hrun := ih p.2 0 hl.represents (Nat.zero_le _)
          (by rw [Nat.add_zero, hl.offset_eq, offsetAt]; omega)
        rw [Nat.add_zero, ← hl.fst_eq] at hrun
        rw [lineEnd] at hwalk
        have hnumbers : WalkedLine.numbered (wrap32 (r.lineNumber + 1) + 1)
            (splitLines p.2.toText.rest).tail =
            WalkedLine.numbered (r.lineNumber + 1 + 1) (splitLines p.2.toText.rest).tail := by
          rw [← WalkedLine.numbered_wrap32, wrap32_wrap32_add, WalkedLine.numbered_wrap32]
        rw [hwalk, hrun, hl.lines_eq hr he, List.tail_cons, numbered_splitLines hl.represents, hn,
          hnumbers]
        rfl

theorem walk_ofStream (stream : ByteStream) (size : Nat) (h : 0 < size) :
    walk (stream.bytes.length + 1) (ofStream stream size h).cursor (ofStream stream size h) =
      some (WalkedLine.numbered 1 (splitLines (Text.ofBytes stream.bytes).rest)) := by
  have hr := represents_ofStream stream size h
  have hw := walk_eq (stream.bytes.length + 1) _ 0 hr (Nat.zero_le _) (by omega)
  rw [← toText_ofStream stream size h, numbered_splitLines hr]
  exact hw

/-- Opened on any stream with any window, a reader shows a walk the lines of what the stream
delivers, without the byte order mark, numbered from 1 in 32 bits. The walk looks at one place more
than there are bytes at most. -/
theorem walk_open? (stream : ByteStream) (size : Nat) (h : 0 < size) :
    ∃ start, open? stream size = .ok start ∧
      walk (stream.bytes.length + 1) start.cursor start =
        some (WalkedLine.numbered 1 (splitLines (Text.ofBytes stream.bytes).rest)) :=
  ⟨ofStream stream size h, dif_pos h, walk_ofStream stream size h⟩

/-- A stream with a byte order mark in pieces, a NUL, and a carriage return that arrives without
its line feed. -/
def brokenMark : ByteStream :=
  ⟨[.chunk 239 [187], .interruption, .chunk 191 [97, 0, 13], .chunk 10 [13, 98]], .failed [99]⟩

theorem walk_open?_brokenMark :
    0 < 1 ∧ ∃ start, open? brokenMark 1 = .ok start ∧
      walk 10 start.cursor start =
        some [⟨1, [(97, 0), (0, 1)], ["a\x00", "a\x00", "a\x00"]⟩, ⟨2, [], [""]⟩,
          ⟨3, [(98, 0)], ["b", "b"]⟩] := by
  obtain ⟨start, ho, hw⟩ := walk_open? brokenMark 1 (by decide)
  refine ⟨by decide, start, ho, hw.trans ?_⟩
  decide +kernel

/-! ## Where numbers and columns end -/

theorem rest_ofBytes_cons {b : UInt8} (h : b ≠ 0xEF) (bytes : List UInt8) :
    (Text.ofBytes (b :: bytes)).rest = b :: bytes := by
  have hmark : ¬Reader.byteOrderMark.isPrefixOf (b :: bytes) := fun hmark =>
    h (List.cons_prefix_cons.1 (List.isPrefixOf_iff_prefix.1 hmark)).1.symm
  rw [Text.ofBytes, if_neg hmark]

theorem splitLines_feeds (n : Nat) :
    splitLines (List.replicate n Byte.lf) = List.replicate (n + 1) [] := by
  induction n with
  | zero => rfl
  | succ n ih =>
    have hbreak : Byte.isBreak Byte.lf = true := by decide
    have hempty : ∀ c ∈ ([] : List UInt8), Line.isText c = true :=
      fun _ hc => absurd hc List.not_mem_nil
    have hline : splitLines ([] ++ Byte.lf :: List.replicate n Byte.lf) = _ :=
      splitLines_append_cons hempty hbreak
    rw [Text.terminatorLength_cons, if_neg fun hcr => absurd hcr.1 (by decide)] at hline
    rw [List.replicate_succ, List.replicate_succ, ← ih]
    exact hline

/-- A walk over bytes that start with no mark shows the lines of the bytes. -/
theorem walk_ofBytes {b : UInt8} (h : b ≠ 0xEF) (bytes : List UInt8) :
    ∃ start, open? (.ofBytes (b :: bytes)) 1 = .ok start ∧
      walk (bytes.length + 2) start.cursor start =
        some (WalkedLine.numbered 1 (splitLines (b :: bytes))) := by
  have hwalk := walk_ofStream (.ofBytes (b :: bytes)) 1 Nat.one_pos
  rw [ByteStream.bytes_ofBytes, rest_ofBytes_cons h] at hwalk
  exact ⟨_, dif_pos Nat.one_pos, hwalk⟩

/-- Behind `n + 1` line feeds the line has the number `n + 2`, in 32 bits. -/
theorem walk_feeds (n : Nat) :
    ∃ start lines, open? (.ofBytes (List.replicate (n + 1) Byte.lf)) 1 = .ok start ∧
      walk (n + 2) start.cursor start = some lines ∧
      lines[n + 1]? = some ⟨wrap32 (n + 2), [], [""]⟩ := by
  obtain ⟨start, hopen, hwalk⟩ := walk_ofBytes (b := Byte.lf) (by decide) (List.replicate n Byte.lf)
  rw [List.length_replicate, ← List.replicate_succ] at hwalk
  refine ⟨start, _, hopen, hwalk, ?_⟩
  rw [WalkedLine.getElem?_numbered, splitLines_feeds,
    List.getElem?_replicate_of_lt (Nat.lt_succ_self _), Nat.add_comm 1]
  rfl

/-- Behind `n` spaces the column is `n`, or the last one if `n` is larger. -/
theorem walk_spaces (n : Nat) :
    ∃ start lines, open? (.ofBytes (List.replicate (n + 1) Byte.space)) 1 = .ok start ∧
      walk (n + 2) start.cursor start = some lines ∧
      (lines[0]?.bind fun l => l.bytes[n]?) = some (Byte.space, min n Position.maxColumn) := by
  have htext : ∀ c ∈ List.replicate (n + 1) Byte.space, Line.isText c = true := by
    intro c hc
    rw [List.eq_of_mem_replicate hc]
    decide
  obtain ⟨start, hopen, hwalk⟩ :=
    walk_ofBytes (b := Byte.space) (by decide) (List.replicate n Byte.space)
  rw [List.length_replicate, ← List.replicate_succ] at hwalk
  refine ⟨start, _, hopen, hwalk, ?_⟩
  rw [WalkedLine.getElem?_numbered, splitLines_of_isText htext, List.getElem?_cons_zero,
    Option.map_some, Option.bind_some, WalkedLine.ofLine, WalkedLine.ofPart, List.drop_zero,
    List.getElem?_map, List.getElem?_zipIdx, List.getElem?_replicate_of_lt (Nat.lt_succ_self n),
    Option.map_some, Option.map_some, Nat.zero_add]

/-- Behind `2 ^ 32 - 1` line feeds the walk is on line 0, and behind `2 ^ 32` spaces it is at the
same column as one byte before. -/
theorem walk_open?_overlong :
    (∃ start lines, open? (.ofBytes (List.replicate (pow2 32 - 2 + 1) Byte.lf)) 1 = .ok start ∧
      walk (pow2 32 - 2 + 2) start.cursor start = some lines ∧
      lines[pow2 32 - 2 + 1]? = some ⟨0, [], [""]⟩) ∧
    ∃ start lines, open? (.ofBytes (List.replicate (pow2 32 + 1) Byte.space)) 1 = .ok start ∧
      walk (pow2 32 + 2) start.cursor start = some lines ∧
      (lines[0]?.bind fun l => l.bytes[pow2 32]?) = some (Byte.space, pow2 32 - 1) := by
  have hline : wrap32 (pow2 32 - 2 + 2) = 0 := by decide
  have hcolumn : min (pow2 32) Position.maxColumn = pow2 32 - 1 := by decide
  have hfeeds := walk_feeds (pow2 32 - 2)
  have hspaces := walk_spaces (pow2 32)
  rw [hline] at hfeeds
  rw [hcolumn] at hspaces
  exact ⟨hfeeds, hspaces⟩

end Reader
end Lexeme
