import Lexeme.Source.Line
import Lexeme.Source.Reader

/-!
# A source in memory

The plain counterpart of a reader: the whole rest of the input as one byte string, split at
its terminators.
-/

set_option autoImplicit false

namespace Lexeme

structure Text where
  /-- Absolute offset of the current line. -/
  offset : Nat
  /-- The input from the current line on. -/
  rest : List UInt8
deriving DecidableEq, Repr

namespace Text

/-- The input without a byte order mark in front. -/
def ofBytes (bytes : List UInt8) : Text :=
  if Reader.byteOrderMark.isPrefixOf bytes then ⟨3, bytes.drop 3⟩ else ⟨0, bytes⟩

/-- How many bytes the terminator at the front has. -/
def terminatorLength : List UInt8 → Nat
  | [] => 0
  | Byte.cr :: Byte.lf :: _ => 2
  | _ :: _ => 1

/-- The input from the next line on. -/
def nextLine (t : Text) : Text :=
  let passed := (Line.first t.rest).bytes.length + terminatorLength (Line.afterText t.rest)
  ⟨t.offset + passed, t.rest.drop passed⟩

theorem terminatorLength_pos {bytes : List UInt8} (h : bytes ≠ []) :
    0 < terminatorLength bytes := by
  unfold terminatorLength; split <;> simp_all

instance : LineSource Text where
  line t := .first t.rest
  offset := Text.offset
  beyond t := (Line.afterText t.rest).length
  next := nextLine
  next_lt t h := by
    have hne := Line.afterText_ne_nil h
    have hpos := terminatorLength_pos hne
    have h0 := List.length_pos_iff.2 hne
    rw [Line.length_first_add]
    have hlen := Line.length_first_add t.rest
    simp only [nextLine, List.length_drop]
    omega

end Text
end Lexeme
