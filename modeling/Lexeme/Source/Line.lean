import Lexeme.Byte

/-!
# Lines

The lexer sees a source line by line. `LineSource` is all it asks of an input: the current
line, the step to the next one, and a bound on what is left, which makes every scan end.
A carriage return, a line feed, and the two in a row each end one line.
-/

set_option autoImplicit false

namespace Lexeme

/-- What a line ends with. Whether a line feed follows a carriage return is not told: the two
are one terminator. -/
inductive LineEnd where
  | cr
  | lf
  | eof
deriving DecidableEq, Repr

/-- The byte that stands at the end of a line; behind the last one it is NUL. -/
def LineEnd.byte : LineEnd → UInt8
  | cr => Byte.cr
  | lf => Byte.lf
  | eof => Byte.nul

structure Line where
  /-- The bytes in front of the terminator. -/
  bytes : List UInt8
  ending : LineEnd
deriving DecidableEq, Repr

namespace Line

/-- Whether a byte is ordinary text of a line. -/
def isText (b : UInt8) : Bool := !Byte.isBreak b

/-- The terminator at the front of some bytes. -/
def endingOf : List UInt8 → LineEnd
  | [] => .eof
  | b :: _ => if b == Byte.cr then .cr else .lf

/-- The first line of some bytes. -/
def first (bytes : List UInt8) : Line :=
  ⟨bytes.takeWhile isText, endingOf (bytes.dropWhile isText)⟩

/-- What follows the first line's text: its terminator and all later lines. -/
def afterText (bytes : List UInt8) : List UInt8 := bytes.dropWhile isText

theorem afterText_ne_nil {bytes : List UInt8} (h : (first bytes).ending ≠ .eof) :
    afterText bytes ≠ [] := by
  intro hn
  exact h (by simp [first, ← afterText.eq_def, hn, endingOf])

theorem length_first_add (bytes : List UInt8) :
    (first bytes).bytes.length + (afterText bytes).length = bytes.length := by
  rw [first, afterText, ← List.length_append, List.takeWhile_append_dropWhile]

end Line

/-- An input that can be read line by line. -/
class LineSource (σ : Type) where
  /-- The current line. -/
  line : σ → Line
  /-- Absolute offset of the current line's first byte. -/
  offset : σ → Nat
  /-- How many bytes there are from the current line's terminator on. -/
  beyond : σ → Nat
  /-- Step over the terminator of the current line. -/
  next : σ → σ
  /-- Each step uses up a byte at least. -/
  next_lt (s : σ) : (line s).ending ≠ .eof →
    (line (next s)).bytes.length + beyond (next s) < beyond s

end Lexeme
