import Lexeme.Source.ByteStream
import Lexeme.Source.Line
import Lexeme.Position
import Lexeme.Text.Utf8

/-!
# The sliding window

A reader holds a window of a stream. While the stream has data, the window's `sentinel` is
the place of its last line terminator, so no line is cut; the bytes behind it begin the next
line, and they are kept when stepping over that terminator moves the window on. A line that
does not fit makes the window double. Once the stream has ended, the sentinel is the place
behind the last byte, and from there on the window reads as NUL.
-/

set_option autoImplicit false

namespace Lexeme

/-- The place of the last line terminator byte. -/
def lastBreak? : List UInt8 → Option Nat
  | [] => none
  | b :: bytes =>
    match lastBreak? bytes with
    | some i => some (i + 1)
    | none => if Byte.isBreak b then some 0 else none

structure Window where
  /-- The bytes that have been loaded; the places behind them hold NUL. -/
  bytes : List UInt8
  capacity : Nat
  sentinel : Nat
  /-- Whether the stream has ended. -/
  exhausted : Bool
  capacity_pos : 0 < capacity

namespace Window

/-- The window on the last bytes of a stream. -/
def final (bytes : List UInt8) (capacity : Nat) (h : 0 < capacity) : Window :=
  ⟨bytes, capacity, bytes.length, true, h⟩

/-- Go on from a full window without a terminator: double it, fill the new half, and look for
a terminator there, until one shows up or the stream ends. -/
def grow (bytes : List UInt8) (capacity : Nat) (h : 0 < capacity) (stream : ByteStream) :
    Window × ByteStream :=
  if hshort : (stream.read capacity).1.length < capacity then
    (final (bytes ++ (stream.read capacity).1) (2 * capacity) (by omega), (stream.read capacity).2)
  else
    match lastBreak? (stream.read capacity).1 with
    | some i =>
      (⟨bytes ++ (stream.read capacity).1, 2 * capacity, bytes.length + i, false, by omega⟩,
        (stream.read capacity).2)
    | none =>
      grow (bytes ++ (stream.read capacity).1) (2 * capacity) (by omega) (stream.read capacity).2
termination_by stream.pending
decreasing_by
  have := stream.length_read_add_pending capacity
  omega

/-- A window that starts with the bytes `keep` and is topped up from the stream. -/
def fill (keep : List UInt8) (capacity : Nat) (h : 0 < capacity) (stream : ByteStream) :
    Window × ByteStream :=
  match stream.read (capacity - keep.length) with
  | (more, rest) =>
    if more.length < capacity - keep.length then (final (keep ++ more) capacity h, rest)
    else
      match lastBreak? (keep ++ more) with
      | some i => (⟨keep ++ more, capacity, i, false, h⟩, rest)
      | none => grow (keep ++ more) capacity h rest

theorem length_grow (bytes : List UInt8) (capacity : Nat) (h : 0 < capacity)
    (stream : ByteStream) :
    (grow bytes capacity h stream).1.bytes.length + (grow bytes capacity h stream).2.pending =
      bytes.length + stream.pending := by
  fun_induction grow bytes capacity h stream with
  | case1 bytes capacity h stream hshort =>
    have := stream.length_read_add_pending capacity
    simp only [final, List.length_append]; omega
  | case2 bytes capacity h stream hshort i hi =>
    have := stream.length_read_add_pending capacity
    simp only [List.length_append]; omega
  | case3 bytes capacity h stream hshort hi ih =>
    have := stream.length_read_add_pending capacity
    rw [ih, List.length_append]; omega

/-- Filling the window moves bytes from the stream into it and loses none. -/
theorem length_fill (keep : List UInt8) (capacity : Nat) (h : 0 < capacity)
    (stream : ByteStream) :
    (fill keep capacity h stream).1.bytes.length + (fill keep capacity h stream).2.pending =
      keep.length + stream.pending := by
  have hr := stream.length_read_add_pending (capacity - keep.length)
  unfold fill
  generalize stream.read (capacity - keep.length) = got at hr ⊢
  obtain ⟨more, rest⟩ := got
  dsimp only at hr ⊢
  split
  · simp only [final, List.length_append]; omega
  · split
    · simp only [List.length_append]; omega
    · rw [length_grow, List.length_append]; omega

end Window

/-- A window on a stream, with a cursor and the bookkeeping of lines. Places are counted from
the front of the window. -/
structure Reader where
  window : Window
  stream : ByteStream
  /-- Where scanning stands; set by the scanner. -/
  cursor : Nat
  /-- Where the current line starts. -/
  lineStart : Nat
  /-- Number of the current line, in 32 bits. -/
  lineNumber : Nat
  /-- How many bytes have left the window at its front. -/
  base : Nat

/-- Why a reader cannot be opened. -/
inductive OpenError where
  | emptyWindow
deriving DecidableEq, Repr

def OpenError.message : OpenError → String
  | emptyWindow => "source reader buffer size must be positive"

namespace Reader

/-- The mark that some editors put in front of UTF-8 text. -/
def byteOrderMark : List UInt8 := [0xEF, 0xBB, 0xBF]

/-- A reader on a stream, at the start of its first line. A byte order mark in front is passed
over if it lies in the window with the sentinel behind it. -/
def ofStream (stream : ByteStream) (size : Nat) (h : 0 < size) : Reader :=
  let (window, rest) := Window.fill [] size h stream
  let start :=
    if byteOrderMark.length ≤ window.sentinel ∧ byteOrderMark.isPrefixOf window.bytes then
      byteOrderMark.length
    else 0
  ⟨window, rest, start, start, 1, 0⟩

/-- A reader with a window of the given size, which must not be empty. -/
def open? (stream : ByteStream) (size : Nat) : Except OpenError Reader :=
  if h : 0 < size then .ok (ofStream stream size h) else .error .emptyWindow

/-- The byte at a place, NUL behind the loaded ones. -/
def byteAt (r : Reader) (pos : Nat) : UInt8 := (r.window.bytes[pos]?).getD Byte.nul

/-- Whether a place is the end of the input, and not a NUL inside it. -/
def isEnd (r : Reader) (pos : Nat) : Bool :=
  r.window.exhausted && r.window.sentinel ≤ pos && r.byteAt pos == Byte.nul

/-- Column of a place in the current line. -/
def columnAt (r : Reader) (pos : Nat) : Nat :=
  min (max pos r.lineStart - min pos r.lineStart) Position.maxColumn

/-- Absolute offset of a place. -/
def offsetAt (r : Reader) (pos : Nat) : Nat := r.base + pos

/-- The bytes of the window from one place up to another. -/
def slice (r : Reader) (first last : Nat) : List UInt8 :=
  let last := min last r.window.capacity
  let bytes := (r.window.bytes.take last).drop first
  bytes ++ List.replicate (last - max (min first last) r.window.bytes.length) Byte.nul

/-- Step past the terminator at a place; behind the last one the window moves on. -/
def stepOver (r : Reader) (pos : Nat) : Nat × Reader :=
  if pos < r.window.sentinel ∨ r.window.exhausted then (pos + 1, { r with lineStart := pos + 1 })
  else
    let (window, stream) :=
      Window.fill (r.window.bytes.drop (pos + 1)) r.window.capacity r.window.capacity_pos r.stream
    (0, { r with window, stream, cursor := 0, lineStart := 0, base := r.base + (pos + 1) })

/-- Step past the line feed at a place. The result says where the next line starts; the cursor
is left to the scanner. -/
def passFeed (r : Reader) (pos : Nat) : Nat × Reader :=
  { r with lineNumber := wrap32 (r.lineNumber + 1) }.stepOver pos

/-- Step past the carriage return at a place, and past a line feed right behind it. -/
def passReturn (r : Reader) (pos : Nat) : Nat × Reader :=
  let (next, r) := r.passFeed pos
  if r.byteAt next == Byte.lf then r.stepOver next else (next, r)

/-- The bytes that have not been passed, from the current line's start. -/
def upcoming (r : Reader) : List UInt8 := r.window.bytes.drop r.lineStart

/-- The current line. -/
def line (r : Reader) : Line := .first r.upcoming

/-- Step over the current line's terminator and set the cursor to the next line. -/
def nextLine (r : Reader) : Reader :=
  let pos := r.lineStart + r.line.bytes.length
  let commit (p : Nat × Reader) : Reader := { p.2 with cursor := p.1 }
  match r.line.ending with
  | .eof => r
  | .cr => commit (r.passReturn pos)
  | .lf => commit (r.passFeed pos)

/-- The text of the current line, with a caret under the cursor if asked for. -/
def lineText (r : Reader) (marker : Bool) : String :=
  let text := Utf8.lossy r.line.bytes
  if marker then
    text ++ "\n" ++ String.ofList (List.replicate (r.columnAt r.cursor) ' ') ++ "^"
  else text

/-- What `readLine` found. -/
structure LineRead where
  bytes : List UInt8
  /-- Column of the line's end. -/
  column : Nat
  /-- Where the next line starts. -/
  next : Nat
deriving DecidableEq, Repr

/-- Read from the cursor to the end of the line, step over the terminator and set the cursor
behind it. -/
def readLine (r : Reader) : LineRead × Reader :=
  let line := Line.first (r.window.bytes.drop r.cursor)
  let pos := r.cursor + line.bytes.length
  let (next, after) := match line.ending with
    | .eof => (pos, r)
    | .cr => r.passReturn pos
    | .lf => r.passFeed pos
  (⟨line.bytes, r.columnAt pos, next⟩, { after with cursor := next })

theorem unread_stepOver (r : Reader) (pos : Nat) :
    (r.stepOver pos).2.upcoming.length + (r.stepOver pos).2.stream.pending =
      (r.window.bytes.drop (pos + 1)).length + r.stream.pending := by
  unfold stepOver
  split
  · rfl
  · simp only [upcoming, List.drop_zero]
    exact Window.length_fill _ _ _ _

theorem fst_stepOver (r : Reader) (pos : Nat) :
    (r.stepOver pos).1 = (r.stepOver pos).2.lineStart := by
  unfold stepOver; split <;> rfl

theorem unread_passFeed (r : Reader) (pos : Nat) :
    (r.passFeed pos).2.upcoming.length + (r.passFeed pos).2.stream.pending =
      (r.window.bytes.drop (pos + 1)).length + r.stream.pending :=
  unread_stepOver _ pos

theorem unread_passReturn_le (r : Reader) (pos : Nat) :
    (r.passReturn pos).2.upcoming.length + (r.passReturn pos).2.stream.pending ≤
      (r.window.bytes.drop (pos + 1)).length + r.stream.pending := by
  have h := r.unread_passFeed pos
  have h1 : (r.passFeed pos).1 = (r.passFeed pos).2.lineStart := fst_stepOver _ pos
  unfold passReturn
  generalize r.passFeed pos = passed at h h1 ⊢
  obtain ⟨next, r'⟩ := passed
  dsimp only at h h1 ⊢
  split
  · have h2 := r'.unread_stepOver next
    rw [h2, ← h, h1]
    simp only [upcoming, List.length_drop]
    omega
  · exact Nat.le_of_eq h

theorem unread_nextLine_lt (r : Reader) (h : r.line.ending ≠ .eof) :
    r.nextLine.upcoming.length + r.nextLine.stream.pending <
      (Line.afterText r.upcoming).length + r.stream.pending := by
  have hlen := Line.length_first_add r.upcoming
  have hpos : 0 < (Line.afterText r.upcoming).length :=
    List.length_pos_iff.2 (Line.afterText_ne_nil h)
  have hdrop : (r.window.bytes.drop (r.lineStart + r.line.bytes.length + 1)).length <
      (Line.afterText r.upcoming).length := by
    simp only [line, upcoming, List.length_drop] at hlen hpos ⊢
    omega
  unfold nextLine
  split
  · contradiction
  · exact Nat.lt_of_le_of_lt (r.unread_passReturn_le _) (by omega)
  · exact Nat.lt_of_le_of_lt (Nat.le_of_eq (r.unread_passFeed _)) (by omega)

instance : LineSource Reader where
  line := line
  offset r := r.offsetAt r.lineStart
  beyond r := (Line.afterText r.upcoming).length + r.stream.pending
  next := nextLine
  next_lt r h := by
    have hlt := r.unread_nextLine_lt h
    have hlen := Line.length_first_add r.nextLine.upcoming
    simp only [line] at hlen ⊢
    omega

end Reader
end Lexeme
