import Lexeme.Token.Keyword

/-!
# Token kinds

A kind says what a token is: one of the keywords, a literal of some type, a punctuation mark,
or one of a few single cases. Kinds are numbered in one sequence that `Kind.index` gives.
-/

set_option autoImplicit false

namespace Lexeme

/-- The type an integer literal declares by its suffix. -/
inductive IntType where
  | int | int8 | int16 | int32 | int64
  | uint | uint8 | uint16 | uint32 | uint64
deriving DecidableEq, Repr

namespace IntType

def all : List IntType :=
  [.int, .int8, .int16, .int32, .int64, .uint, .uint8, .uint16, .uint32, .uint64]

def isUnsigned : IntType → Bool
  | uint | uint8 | uint16 | uint32 | uint64 => true
  | _ => false

/-- How many bits the type has; without a width in the suffix there are 64. -/
def width : IntType → Nat
  | int8 | uint8 => 8
  | int16 | uint16 => 16
  | int32 | uint32 => 32
  | _ => 64

def index : IntType → Nat
  | int => 0
  | int8 => 1
  | int16 => 2
  | int32 => 3
  | int64 => 4
  | uint => 5
  | uint8 => 6
  | uint16 => 7
  | uint32 => 8
  | uint64 => 9

def name : IntType → String
  | int => "int"
  | int8 => "int8"
  | int16 => "int16"
  | int32 => "int32"
  | int64 => "int64"
  | uint => "uint"
  | uint8 => "uint8"
  | uint16 => "uint16"
  | uint32 => "uint32"
  | uint64 => "uint64"

end IntType

/-- The type a floating-point literal declares by its suffix. -/
inductive FloatType where
  | float | float32 | float64 | float128
deriving DecidableEq, Repr

namespace FloatType

def all : List FloatType := [.float, .float32, .float64, .float128]

def index : FloatType → Nat
  | float => 0
  | float32 => 1
  | float64 => 2
  | float128 => 3

def name : FloatType → String
  | float => "float"
  | float32 => "float32"
  | float64 => "float64"
  | float128 => "float128"

end FloatType

/-- The ways to write a string. A string right behind a symbol is a generalized one. -/
inductive StringForm where
  | plain | raw | triple | generalized | generalizedTriple
deriving DecidableEq, Repr

namespace StringForm

def all : List StringForm := [.plain, .raw, .triple, .generalized, .generalizedTriple]

def index : StringForm → Nat
  | plain => 0
  | raw => 1
  | triple => 2
  | generalized => 3
  | generalizedTriple => 4

def name : StringForm → String
  | plain => "string literal"
  | raw => "raw string literal"
  | triple => "triple-quoted string literal"
  | generalized => "generalized string literal"
  | generalizedTriple => "generalized triple-quoted string literal"

end StringForm

/-- Brackets, separators and the operators with a meaning of their own. -/
inductive Mark where
  | parenLeft | parenRight | bracketLeft | bracketRight | curlyLeft | curlyRight
  | bracketDotLeft | bracketDotRight | curlyDotLeft | curlyDotRight | parenDotLeft | parenDotRight
  | comma | semicolon | colon | colonColon | equals | dot | dotDot | bracketLeftColon
deriving DecidableEq, Repr

namespace Mark

def all : List Mark :=
  [.parenLeft, .parenRight, .bracketLeft, .bracketRight, .curlyLeft, .curlyRight, .bracketDotLeft,
   .bracketDotRight, .curlyDotLeft, .curlyDotRight, .parenDotLeft, .parenDotRight, .comma,
   .semicolon, .colon, .colonColon, .equals, .dot, .dotDot, .bracketLeftColon]

def index : Mark → Nat
  | parenLeft => 0
  | parenRight => 1
  | bracketLeft => 2
  | bracketRight => 3
  | curlyLeft => 4
  | curlyRight => 5
  | bracketDotLeft => 6
  | bracketDotRight => 7
  | curlyDotLeft => 8
  | curlyDotRight => 9
  | parenDotLeft => 10
  | parenDotRight => 11
  | comma => 12
  | semicolon => 13
  | colon => 14
  | colonColon => 15
  | equals => 16
  | dot => 17
  | dotDot => 18
  | bracketLeftColon => 19

def spelling : Mark → String
  | parenLeft => "("
  | parenRight => ")"
  | bracketLeft => "["
  | bracketRight => "]"
  | curlyLeft => "\x7b"
  | curlyRight => "\x7d"
  | bracketDotLeft => "[."
  | bracketDotRight => ".]"
  | curlyDotLeft => "\x7b."
  | curlyDotRight => ".\x7d"
  | parenDotLeft => "(."
  | parenDotRight => ".)"
  | comma => ","
  | semicolon => ";"
  | colon => ":"
  | colonColon => "::"
  | equals => "="
  | dot => "."
  | dotDot => ".."
  | bracketLeftColon => "[:"

/-- The marks that are written like operators, in the order of their identifier numbers. -/
def operators : List Mark := [.colon, .colonColon, .equals, .dot, .dotDot]

end Mark

inductive Kind where
  | invalid
  | eof
  | symbol
  | keyword (word : Keyword)
  | intLit (type : IntType)
  | floatLit (type : FloatType)
  | strLit (form : StringForm)
  | charLit
  | mark (mark : Mark)
  /-- An operator that is no mark. -/
  | operator
  | comment
  | accent
  /-- This kind and the rest name formatting devices that no source yields. -/
  | spaces
  | infixOperator
  | prefixOperator
  | postfixOperator
deriving DecidableEq, Repr

namespace Kind

/-- All kinds, in order. -/
def all : List Kind :=
  [invalid, eof, symbol] ++ Keyword.all.map keyword ++ IntType.all.map intLit ++
    FloatType.all.map floatLit ++ StringForm.all.map strLit ++ [charLit] ++ Mark.all.map mark ++
    [operator, comment, accent, spaces, infixOperator, prefixOperator, postfixOperator]

/-- The number of a kind in the sequence of all kinds. -/
def index : Kind → Nat
  | invalid => 0
  | eof => 1
  | symbol => 2
  | keyword k => 3 + k.index
  | intLit t => 69 + t.index
  | floatLit t => 79 + t.index
  | strLit f => 83 + f.index
  | charLit => 88
  | mark m => 89 + m.index
  | operator => 109
  | comment => 110
  | accent => 111
  | spaces => 112
  | infixOperator => 113
  | prefixOperator => 114
  | postfixOperator => 115

def isKeyword : Kind → Bool
  | keyword _ => true
  | _ => false

def isIntLiteral : Kind → Bool
  | intLit _ => true
  | _ => false

def isUnsignedLiteral : Kind → Bool
  | intLit t => t.isUnsigned
  | _ => false

def isFloatLiteral : Kind → Bool
  | floatLit _ => true
  | _ => false

def isStringLiteral : Kind → Bool
  | strLit _ => true
  | _ => false

/-- The tokens behind which a parser may relax the layout rules. -/
def isWeak : Kind → Bool
  | mark m => m ∈ [.comma, .semicolon, .colon, .parenRight, .parenDotRight, .bracketRight,
      .bracketDotRight, .curlyRight]
  | _ => false

/-- The spelling of keywords and marks, a short name for all else. -/
def name : Kind → String
  | invalid => "invalid"
  | eof => "[EOF]"
  | symbol => "identifier"
  | keyword k => k.spelling
  | intLit t => t.name ++ " literal"
  | floatLit t => t.name ++ " literal"
  | strLit f => f.name
  | charLit => "character literal"
  | mark m => m.spelling
  | operator => "operator"
  | comment => "comment"
  | accent => "`"
  | spaces => "spaces"
  | infixOperator => "infix operator"
  | prefixOperator => "prefix operator"
  | postfixOperator => "postfix operator"

end Kind
end Lexeme
