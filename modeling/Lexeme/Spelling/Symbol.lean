import Lexeme.Ident.Hash

/-!
# Symbols

A symbol is a maximal run of letters and digits with single underscores between them. It is
known by its spelling in small letters; the hash that finds it in the identifier table is
computed along the way, and skips the underscores.
-/

set_option autoImplicit false

namespace Lexeme.Spelling

/-- A scanned symbol. -/
structure Symbol where
  /-- The spelling in small letters, as long as the symbol itself. -/
  bytes : List UInt8
  hash : IdentHash
  /-- Whether the symbol stopped in front of an underscore that no letter or digit follows. -/
  dangling : Bool
deriving DecidableEq, Repr

namespace Symbol

/-- The symbol with one more byte in front of its spelling. -/
def cons (b : UInt8) (s : Symbol) : Symbol := { s with bytes := b :: s.bytes }

/-- Whether a line goes on with a byte of a symbol. -/
def continues : List UInt8 → Bool
  | [] => false
  | b :: _ => Byte.isSymbol b

/-- The symbol at the front of a line, given the hash of what came before. -/
def scan (hash : IdentHash) : List UInt8 → Symbol
  | [] => ⟨[], hash, false⟩
  | b :: rest =>
    if Byte.isSymbol b then cons (Byte.toLower b) (scan (hash.push (Byte.toLower b)) rest)
    else if b == Byte.underscore then
      if continues rest then cons b (scan hash rest) else ⟨[], hash, true⟩
    else ⟨[], hash, false⟩

end Symbol

/-- Whether a line goes on as if with a symbol. -/
def meetsSymbol : List UInt8 → Bool
  | [] => false
  | b :: _ => Byte.isSymbol b || b == Byte.underscore

end Lexeme.Spelling
