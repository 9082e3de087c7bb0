import Lexeme.Source.Cursor

/-!
# Sources that read alike

A likeness of line sources keeps the bytes of every line and goes along with the step to the next
one; where the lines stand in the input and what byte ends them may differ. A cursor is carried
along a likeness, and to lines further down if there are more lines in front: it reads the same
bytes, and what it reports is reported as many lines further down. A homomorphism keeps all that a
source tells, so that the sources cannot be told apart.
-/

set_option autoImplicit false

namespace Lexeme

/-- The number of the line `n` lines further down. -/
def Position.lineBelow (line : Nat) : Nat → Nat
  | 0 => line
  | n + 1 => wrap32 (lineBelow line n + 1)

/-- The next line of a line further down is as far below the next line. -/
theorem Position.lineBelow_next (line n : Nat) :
    lineBelow (wrap32 (line + 1)) n = wrap32 (lineBelow line n + 1) := by
  induction n with
  | zero => rfl
  | succ n ih => rw [lineBelow, ih, lineBelow]

theorem Position.lineBelow_wrap32 (line n : Nat) :
    lineBelow (wrap32 line) n = wrap32 (line + n) := by
  induction n with
  | zero => rfl
  | succ n ih => rw [lineBelow, ih, wrap32_wrap32_add, Nat.add_assoc]

theorem Position.lineBelow_of_lt {line n : Nat} (h : line + n < pow2 32) :
    lineBelow line n = line + n := by
  have hline : line < pow2 32 := by omega
  have hbelow := lineBelow_wrap32 line n
  rwa [wrap32_of_lt hline, wrap32_of_lt h] at hbelow

/-- Numbers of lines behind the offsets they are counted from agree once the other's offset is
added to each, exactly if they agree without their own. -/
theorem Position.lineBelow_eq_iff {line line' n n' : Nat} (hline : line < pow2 32)
    (hline' : line' < pow2 32) (hn : n ≤ line) (hn' : n' ≤ line') :
    lineBelow line n' = lineBelow line' n ↔ line - n = line' - n' := by
  have hbelow := lineBelow_wrap32 line n'
  have hbelow' := lineBelow_wrap32 line' n
  have hpow : pow2 32 = 4294967296 := rfl
  rw [wrap32_of_lt hline] at hbelow
  rw [wrap32_of_lt hline'] at hbelow'
  rw [hbelow, hbelow', wrap32, wrap32]
  rw [hpow] at hline hline' ⊢
  omega

/-- The position `n` lines further down. -/
def Position.below (n : Nat) (p : Position) : Position := { p with line := lineBelow p.line n }

/-- The same message, `n` lines further down. -/
def Diagnostic.below (n : Nat) (d : Diagnostic) : Diagnostic :=
  { d with position := d.position.below n }

theorem Diagnostic.map_below_zero (ds : List Diagnostic) : ds.map (below 0) = ds :=
  List.map_id ds

namespace LineSource

structure Likeness (σ τ : Type) [LineSource σ] [LineSource τ] where
  toFun : σ → τ
  bytes_eq (s : σ) : (line (toFun s)).bytes = (line s).bytes
  eof_iff (s : σ) : (line (toFun s)).ending = .eof ↔ (line s).ending = .eof
  /-- Nothing is asked of a step from the last line: no scanner takes it. -/
  next_eq (s : σ) : (line s).ending ≠ .eof → toFun (next s) = next (toFun s)

structure Hom (σ τ : Type) [LineSource σ] [LineSource τ] where
  toFun : σ → τ
  line_eq (s : σ) : line (toFun s) = line s
  offset_eq (s : σ) : offset (toFun s) = offset s
  beyond_eq (s : σ) : beyond (toFun s) = beyond s
  next_eq (s : σ) : (line s).ending ≠ .eof → toFun (next s) = next (toFun s)

def Hom.likeness {σ τ : Type} [LineSource σ] [LineSource τ] (f : Hom σ τ) : Likeness σ τ where
  toFun := f.toFun
  bytes_eq s := congrArg Line.bytes (f.line_eq s)
  eof_iff s := by rw [f.line_eq s]
  next_eq := f.next_eq

end LineSource

namespace Cursor

variable {σ τ : Type} [LineSource σ] [LineSource τ]

section Carry

variable (f : LineSource.Likeness σ τ) (n : Nat) (c : Cursor σ)

/-- The same place of the other source, `n` lines further down. -/
def carry : Cursor τ := ⟨c.file, f.toFun c.source, Position.lineBelow c.line n, c.column⟩

theorem lineBytes_carry : (c.carry f n).lineBytes = c.lineBytes := f.bytes_eq c.source

theorem rest_carry : (c.carry f n).rest = c.rest := by
  rw [rest, lineBytes_carry]
  rfl

theorem isLast_carry : (c.carry f n).isLast = c.isLast := by
  rw [Bool.eq_iff_iff, isLast, isLast, beq_iff_eq, beq_iff_eq]
  exact f.eof_iff c.source

theorem before?_carry : (c.carry f n).before? = c.before? := by
  rw [before?, before?, lineBytes_carry]
  rfl

theorem advance_carry (k : Nat) : (c.carry f n).advance k = (c.advance k).carry f n := rfl

theorem report_carry (message : Message) :
    (c.carry f n).report message = (c.report message).below n := rfl

theorem map_locate_carry (findings : List Finding) :
    findings.map (c.carry f n).locate = (findings.map c.locate).map (Diagnostic.below n) := by
  rw [List.map_map]
  rfl

theorem lineEnd_carry : (c.carry f n).lineEnd = c.lineEnd.carry f n := by
  rw [lineEnd, rest_carry, advance_carry, lineEnd]

theorem lengthHint_carry (limit : Nat) :
    (c.carry f n).lengthHint limit = (c.lengthHint limit).map (Diagnostic.below n) := by
  rw [lengthHint, lineEnd_carry, report_carry, lengthHint]
  change (if limit < c.lineEnd.position.column then _ else _) = _
  split
  · rfl
  · rfl

theorem nextLine_carry : (c.carry f n).nextLine = c.nextLine.carry f n := by
  cases h : c.isLast with
  | true => rw [nextLine, nextLine, isLast_carry, if_pos h, if_pos h]
  | false =>
    have hne : (LineSource.line c.source).ending ≠ .eof := by simpa [isLast, ending] using h
    rw [nextLine, nextLine, isLast_carry, if_neg (by simp [h]), if_neg (by simp [h])]
    simp only [carry, f.next_eq c.source hne, Position.lineBelow_next]

end Carry

section Map

variable (f : LineSource.Hom σ τ) (c : Cursor σ)

/-- The same place of the other source. -/
def map : Cursor τ := ⟨c.file, f.toFun c.source, c.line, c.column⟩

theorem map_eq_carry : c.map f = c.carry f.likeness 0 := rfl

theorem offset_map : (c.map f).offset = c.offset := congrArg (· + c.column) (f.offset_eq c.source)

end Map

end Cursor
end Lexeme
