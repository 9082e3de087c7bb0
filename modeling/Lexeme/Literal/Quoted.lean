import Lexeme.Literal.Escape

/-!
# Strings and characters on one line

A plain string has escapes; in a raw string, and in one right behind a symbol, a backslash is
a backslash and a doubled quote is a quote. Neither goes on past its line. A character
literal holds one byte or one escape.
-/

set_option autoImplicit false

namespace Lexeme

/-- The contents of a literal behind its opening quote: the bytes it stands for, and where it
ends. Offsets count from the opening quote. -/
structure Quoted where
  bytes : List UInt8
  stop : Nat
  findings : List Finding
deriving DecidableEq, Repr

namespace Quoted

/-- The literal with more contents in front. -/
def prepend (bytes : List UInt8) (findings : List Finding) (q : Quoted) : Quoted :=
  { q with bytes := bytes ++ q.bytes, findings := findings ++ q.findings }

/-- A string that the line ends in the middle of. -/
def unterminated (offset : Nat) : Quoted := ⟨[], offset, [⟨offset, .unterminatedString⟩]⟩

/-- The rest of a plain string, `offset` bytes behind its opening quote. -/
def plain (ctx : Escape.Context) (offset : Nat) : List UInt8 → Quoted
  | [] => unterminated offset
  | b :: rest =>
    if b == Byte.quote then ⟨[], offset + 1, []⟩
    else if b == Byte.backslash then
      let e := Escape.scan ctx rest
      (plain ctx (offset + 1 + e.length) (rest.drop e.length)).prepend e.bytes
        (e.findings.map (Finding.shift (offset + 1)))
    else (plain ctx (offset + 1) rest).prepend [b] []
termination_by bytes => bytes.length
decreasing_by
  all_goals simp only [List.length_cons, List.length_drop]; omega

/-- The rest of a raw string, `offset` bytes behind its opening quote. -/
def raw (offset : Nat) : List UInt8 → Quoted
  | [] => unterminated offset
  | Byte.quote :: Byte.quote :: rest => (raw (offset + 2) rest).prepend [Byte.quote] []
  | b :: rest =>
    if b == Byte.quote then ⟨[], offset + 1, []⟩ else (raw (offset + 1) rest).prepend [b] []

/-- What stands between the quotes of a character literal. A stray control byte is passed
over, so that the closing quote still pairs with the opening one. -/
def characterContents (ctx : Escape.Context) : List UInt8 → Quoted
  | [] => ⟨[], 1, [⟨1, .invalidCharLiteral⟩]⟩
  | b :: rest =>
    if b == Byte.apostrophe then ⟨[], 1, [⟨1, .invalidCharLiteral⟩]⟩
    else if b < Byte.space then ⟨[], 2, [⟨1, .invalidCharLiteral⟩]⟩
    else if b == Byte.backslash then
      let e := Escape.scan ctx rest
      ⟨e.bytes, 2 + e.length, e.findings.map (Finding.shift 2)⟩
    else ⟨[b], 2, []⟩

/-- A character literal; `bytes` is what follows its opening quote. -/
def character (ctx : Escape.Context) (bytes : List UInt8) : Quoted :=
  let q := characterContents ctx bytes
  if (bytes.drop (q.stop - 1)).head? = some Byte.apostrophe then { q with stop := q.stop + 1 }
  else { q with findings := q.findings ++ [⟨q.stop, .unterminatedChar⟩] }

end Quoted
end Lexeme
