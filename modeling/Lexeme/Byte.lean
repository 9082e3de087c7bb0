/-!
# Source bytes

Sources are byte strings, and every rule of the lexical grammar is a rule on bytes: letters
are ASCII letters, and each byte of a multi-byte character counts as a letter of its own.
This module names the bytes with a meaning in the grammar and the classes built from them.
-/

set_option autoImplicit false

namespace Lexeme.Byte

@[match_pattern] abbrev nul : UInt8 := 0
@[match_pattern] abbrev backspace : UInt8 := 8
@[match_pattern] abbrev tab : UInt8 := 9
@[match_pattern] abbrev lf : UInt8 := 10
@[match_pattern] abbrev formFeed : UInt8 := 12
@[match_pattern] abbrev cr : UInt8 := 13
@[match_pattern] abbrev escape : UInt8 := 27
@[match_pattern] abbrev space : UInt8 := 32
@[match_pattern] abbrev quote : UInt8 := 34
@[match_pattern] abbrev hash : UInt8 := 35
@[match_pattern] abbrev apostrophe : UInt8 := 39
@[match_pattern] abbrev parenLeft : UInt8 := 40
@[match_pattern] abbrev parenRight : UInt8 := 41
@[match_pattern] abbrev star : UInt8 := 42
@[match_pattern] abbrev plus : UInt8 := 43
@[match_pattern] abbrev comma : UInt8 := 44
@[match_pattern] abbrev minus : UInt8 := 45
@[match_pattern] abbrev dot : UInt8 := 46
@[match_pattern] abbrev zero : UInt8 := 48
@[match_pattern] abbrev colon : UInt8 := 58
@[match_pattern] abbrev semicolon : UInt8 := 59
@[match_pattern] abbrev equals : UInt8 := 61
@[match_pattern] abbrev greater : UInt8 := 62
@[match_pattern] abbrev bracketLeft : UInt8 := 91
@[match_pattern] abbrev backslash : UInt8 := 92
@[match_pattern] abbrev bracketRight : UInt8 := 93
@[match_pattern] abbrev underscore : UInt8 := 95
@[match_pattern] abbrev backtick : UInt8 := 96
@[match_pattern] abbrev braceLeft : UInt8 := 123
@[match_pattern] abbrev braceRight : UInt8 := 125

/-- The byte of an ASCII character. -/
abbrev ofChar (c : Char) : UInt8 := c.toNat.toUInt8

/-- The character whose code point is the byte's value. -/
def toChar (b : UInt8) : Char := Char.ofNat b.toNat

/-- A line ends at a carriage return or a line feed. -/
def isBreak (b : UInt8) : Bool := b == cr || b == lf

def isDigit (b : UInt8) : Bool := 48 ≤ b && b ≤ 57

def isUpper (b : UInt8) : Bool := 65 ≤ b && b ≤ 90

def isLower (b : UInt8) : Bool := 97 ≤ b && b ≤ 122

def isHexDigit (b : UInt8) : Bool := isDigit b || (65 ≤ b && b ≤ 70) || (97 ≤ b && b ≤ 102)

def isOctalDigit (b : UInt8) : Bool := 48 ≤ b && b ≤ 55

def isBinaryDigit (b : UInt8) : Bool := b == 48 || b == 49

/-- The value of a hexadecimal digit of either letter case. -/
def hexValue? (b : UInt8) : Option Nat :=
  if isDigit b then some (b.toNat - 48)
  else if 65 ≤ b && b ≤ 70 then some (b.toNat - 55)
  else if 97 ≤ b && b ≤ 102 then some (b.toNat - 87)
  else none

/-- ASCII capitals become small letters; every other byte stays. -/
def toLower (b : UInt8) : UInt8 := if isUpper b then b + 32 else b

/-- The bytes operators are written with, in the order they are listed in reference tables. -/
def operators : List UInt8 :=
  [43, 45, 42, 47, 92, 60, 62, 33, 63, 94, 46, 124, 61, 37, 38, 36, 64, 126, 58]

def isOperator (b : UInt8) : Bool := operators.contains b

/-- A symbol starts with a letter or with any byte of a multi-byte character. -/
def isSymbolStart (b : UInt8) : Bool := isUpper b || isLower b || 128 ≤ b

/-- The bytes a symbol goes on with; the underscore has a rule of its own. -/
def isSymbol (b : UInt8) : Bool := isSymbolStart b || isDigit b

/-- The bytes of an ASCII text. -/
def ofAscii (text : String) : List UInt8 := text.toList.map ofChar

end Lexeme.Byte
