import Lexeme.Source.Line
import Lexeme.Diagnostic

/-!
# Cursors

A cursor is a place in a source: a line and how many of its bytes have been passed. Scanners
read `rest`, the bytes from the cursor to the line's end, and step to the next line by
`nextLine`; whoever does so passes on the `lengthHint` that an overlong line has earned.
-/

set_option autoImplicit false

namespace Lexeme

structure Cursor (σ : Type) where
  file : FileId
  /-- The source, at the cursor's line. -/
  source : σ
  /-- Number of the line, in 32 bits. -/
  line : Nat
  /-- How many bytes of the line have been passed. -/
  column : Nat

namespace Cursor

variable {σ : Type}

/-- Pass `n` bytes of the line. -/
def advance (c : Cursor σ) (n : Nat) : Cursor σ := { c with column := c.column + n }

/-- The position `n` bytes behind the cursor. -/
def positionAt (c : Cursor σ) (n : Nat) : Position :=
  ⟨c.file, c.line, min (c.column + n) Position.maxColumn⟩

def position (c : Cursor σ) : Position := c.positionAt 0

/-- A complaint about the byte at the cursor. -/
def report (c : Cursor σ) (message : Message) : Diagnostic := ⟨c.position, message⟩

/-- A finding of a scan that started at the cursor. -/
def locate (c : Cursor σ) (f : Finding) : Diagnostic := ⟨c.positionAt f.offset, f.message⟩

@[simp] theorem advance_source (c : Cursor σ) (n : Nat) : (c.advance n).source = c.source := rfl

variable [LineSource σ]

/-- The bytes of the whole line. -/
def lineBytes (c : Cursor σ) : List UInt8 := (LineSource.line c.source).bytes

/-- The bytes of the line that have not been passed. -/
def rest (c : Cursor σ) : List UInt8 := c.lineBytes.drop c.column

/-- What ends the line. -/
def ending (c : Cursor σ) : LineEnd := (LineSource.line c.source).ending

/-- Whether the line is the last one. -/
def isLast (c : Cursor σ) : Bool := c.ending == .eof

/-- The byte in front of the cursor, on the same line. -/
def before? (c : Cursor σ) : Option UInt8 :=
  if c.column = 0 then none else c.lineBytes[c.column - 1]?

/-- Absolute offset of the cursor. -/
def offset (c : Cursor σ) : Nat := LineSource.offset c.source + c.column

/-- How many bytes have not been passed. -/
def unread (c : Cursor σ) : Nat := c.rest.length + LineSource.beyond c.source

/-- The cursor at the end of its line. -/
def lineEnd (c : Cursor σ) : Cursor σ := c.advance c.rest.length

/-- The start of the next line; on the last line the cursor stays. -/
def nextLine (c : Cursor σ) : Cursor σ :=
  if c.isLast then c
  else { c with source := LineSource.next c.source, line := wrap32 (c.line + 1), column := 0 }

/-- The hint a line gets whose terminator stands further right than `limit`. -/
def lengthHint (limit : Nat) (c : Cursor σ) : List Diagnostic :=
  if limit < c.lineEnd.position.column then [c.lineEnd.report .lineTooLong] else []

@[simp] theorem rest_advance (c : Cursor σ) (n : Nat) : (c.advance n).rest = c.rest.drop n := by
  simp [rest, advance, lineBytes, List.drop_drop]

@[simp] theorem ending_advance (c : Cursor σ) (n : Nat) : (c.advance n).ending = c.ending := rfl

@[simp] theorem isLast_advance (c : Cursor σ) (n : Nat) : (c.advance n).isLast = c.isLast := rfl

theorem unread_advance_le (c : Cursor σ) (n : Nat) : (c.advance n).unread ≤ c.unread := by
  simp only [unread, rest_advance, advance_source, List.length_drop]
  omega

/-- Passing a byte leaves fewer. -/
theorem unread_advance_lt {c : Cursor σ} {n : Nat} (hn : 0 < n) (hr : c.rest ≠ []) :
    (c.advance n).unread < c.unread := by
  have := List.length_pos_iff.2 hr
  simp only [unread, rest_advance, advance_source, List.length_drop]
  omega

/-- Stepping over a terminator leaves fewer bytes. -/
theorem unread_nextLine_lt {c : Cursor σ} (h : c.isLast = false) :
    c.nextLine.unread < c.unread := by
  have hne : (LineSource.line c.source).ending ≠ .eof := by
    simpa [isLast, ending] using h
  have := LineSource.next_lt c.source hne
  simp only [nextLine, h, unread, rest, lineBytes]
  simp only [Bool.false_eq_true, if_false, List.drop_zero]
  omega

theorem unread_nextLine_le (c : Cursor σ) : c.nextLine.unread ≤ c.unread := by
  cases h : c.isLast with
  | true => simp [nextLine, h]
  | false => exact Nat.le_of_lt (unread_nextLine_lt h)

end Cursor

/-- How many spaces bytes start with. -/
def leadingSpaces (bytes : List UInt8) : Nat := (bytes.takeWhile (· == Byte.space)).length

theorem leadingSpaces_le (bytes : List UInt8) : leadingSpaces bytes ≤ bytes.length :=
  (List.takeWhile_sublist _).length_le

end Lexeme
