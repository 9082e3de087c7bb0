import Lexeme.Proofs.Source.TextView
import Lexeme.Proofs.Lexer.Run

/-!
# The window does not show

A lexer on a stream and the lexer on the stream's bytes in memory stand side by side: both are
images of one lexer on a reader that represents its input. So every call on the stream shows what
it shows in memory, and two streams with the same bytes cannot be told apart, however they deliver
them and whatever the windows.
-/

set_option autoImplicit false

namespace Lexeme.Lexer

/-- A lexer on a source in memory. -/
def ofText (file : FileId) (options : Options) (input : List UInt8) : Lexer Text :=
  ofSource file options (.ofBytes input)

/-- A lexer on a stream, with what its reader represents. -/
def ofStream (file : FileId) (stream : ByteStream) (options : Options)
    (h : 0 < options.bufferSize) : Lexer (SoundReader stream.bytes) :=
  ofSource file options (.ofStream stream options.bufferSize h)

section Sides

variable (file : FileId) (stream : ByteStream) (options : Options) (h : 0 < options.bufferSize)

theorem open?_eq_ok :
    open? file stream options =
      .ok ((ofStream file stream options h).map SoundReader.toReader) := by
  rw [open?, Reader.open?, dif_pos h]
  rfl

theorem map_toText_ofStream :
    (ofStream file stream options h).map SoundReader.toText = ofText file options stream.bytes := by
  have htext := Reader.toText_ofStream stream options.bufferSize h
  exact congrArg (ofSource file options) htext

/-- Every call shows what it shows on the same bytes in memory. -/
theorem observation_ofStream (table : IdentTable) (k : Nat) :
    (((ofStream file stream options h).map SoundReader.toReader).call table k).observation =
      ((ofText file options stream.bytes).call table k).observation := by
  rw [← map_toText_ofStream file stream options h, call_map, call_map,
    LexerStep.observation_map, LexerStep.observation_map]

theorem outlook_ofStream :
    ((ofStream file stream options h).map SoundReader.toReader).outlook =
      (ofText file options stream.bytes).outlook := by
  rw [← map_toText_ofStream file stream options h, outlook_map, outlook_map]

end Sides

theorem observation_withWindow (file : FileId) (options : Options) (input : List UInt8)
    (size : Nat) (table : IdentTable) (k : Nat) :
    ((ofText file (options.withWindow size) input).call table k).observation =
      ((ofText file options input).call table k).observation := by
  have hl : ofText file (options.withWindow size) input =
      (ofText file options input).withWindow size := rfl
  rw [hl, call_withWindow]
  rfl

/-- Two runs on streams with the same bytes show the same, call by call: the tokens with all
their fields, the diagnostics in their order, and the position, the line and the indentations
that the lexer tells. Both start from the same table, fresh or not. -/
theorem open?_observation_eq (file : FileId) (options : Options) (m n : Nat)
    (hm : 0 < m) (hn : 0 < n) (s t : ByteStream) (hbytes : s.bytes = t.bytes) :
    ∃ l l', open? file s (options.withWindow m) = .ok l ∧
      open? file t (options.withWindow n) = .ok l' ∧ l.outlook = l'.outlook ∧
      ∀ table k, (l.call table k).observation = (l'.call table k).observation := by
  have hm' : 0 < (options.withWindow m).bufferSize := hm
  have hn' : 0 < (options.withWindow n).bufferSize := hn
  refine ⟨_, _, open?_eq_ok file s (options.withWindow m) hm',
    open?_eq_ok file t (options.withWindow n) hn', ?_, ?_⟩
  · rw [outlook_ofStream, outlook_ofStream, hbytes]
    rfl
  · intro table k
    rw [observation_ofStream, observation_ofStream, observation_withWindow,
      observation_withWindow, hbytes]

theorem open?_observation_eq_splitPair :
    0 < 1 ∧ 0 < 9 ∧ Reader.splitPair.bytes = (ByteStream.ofBytes [97, 13, 10, 98]).bytes ∧ ∃ l l',
      open? {} Reader.splitPair (Options.withWindow {} 1) = .ok l ∧
      open? {} (.ofBytes [97, 13, 10, 98]) (Options.withWindow {} 9) = .ok l' ∧
      l.outlook = l'.outlook ∧
      ∀ table k, (l.call table k).observation = (l'.call table k).observation :=
  ⟨by decide, by decide, by decide, open?_observation_eq {} {} 1 9 (by decide) (by decide)
    Reader.splitPair (.ofBytes [97, 13, 10, 98]) (by decide)⟩

end Lexeme.Lexer
