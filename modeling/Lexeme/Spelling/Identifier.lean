import Lexeme.Text.Utf8
import Lexeme.Byte

/-!
# Well-formed identifiers

An identifier starts with a letter and goes on with letters and digits; an underscore may
stand only between two of them.
-/

set_option autoImplicit false

namespace Lexeme.Spelling

/-- Whether bytes may follow the start of an identifier up to its end. -/
def isIdentifierTail : List UInt8 → Bool
  | [] => true
  | [b] => Byte.isSymbol b
  | b :: c :: rest =>
    if b == Byte.underscore then Byte.isSymbol c && isIdentifierTail rest
    else Byte.isSymbol b && isIdentifierTail (c :: rest)

/-- Whether bytes spell an identifier. -/
def isIdentifierBytes : List UInt8 → Bool
  | [] => false
  | b :: rest => Byte.isSymbolStart b && isIdentifierTail rest

/-- Whether a text is an identifier. -/
def isIdentifier (text : String) : Bool := isIdentifierBytes (Utf8.encode text)

end Lexeme.Spelling
