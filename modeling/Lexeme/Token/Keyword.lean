/-!
# Keywords

The reserved words of the language, in alphabetical order. Their order fixes the identifier
numbers and the token kinds that belong to them.
-/

set_option autoImplicit false

namespace Lexeme

inductive Keyword where
  | kwAddr | kwAnd | kwAs | kwAsm | kwBind | kwBlock | kwBreak | kwCase | kwCast | kwConcept
  | kwConst | kwContinue | kwConverter | kwDefer | kwDiscard | kwDistinct | kwDiv | kwDo | kwElif
  | kwElse | kwEnd | kwEnum | kwExcept | kwExport | kwFinally | kwFor | kwFrom | kwFunc | kwIf
  | kwImport | kwIn | kwInclude | kwInterface | kwIs | kwIsnot | kwIterator | kwLet | kwMacro
  | kwMethod | kwMixin | kwMod | kwNil | kwNot | kwNotin | kwObject | kwOf | kwOr | kwOut
  | kwProc | kwPtr | kwRaise | kwRef | kwReturn | kwShl | kwShr | kwStatic | kwTemplate | kwTry
  | kwTuple | kwType | kwUsing | kwVar | kwWhen | kwWhile | kwXor | kwYield
deriving DecidableEq, Repr

namespace Keyword

/-- All keywords, in order. -/
def all : List Keyword :=
  [.kwAddr, .kwAnd, .kwAs, .kwAsm, .kwBind, .kwBlock, .kwBreak, .kwCase, .kwCast, .kwConcept,
   .kwConst, .kwContinue, .kwConverter, .kwDefer, .kwDiscard, .kwDistinct, .kwDiv, .kwDo,
   .kwElif, .kwElse, .kwEnd, .kwEnum, .kwExcept, .kwExport, .kwFinally, .kwFor, .kwFrom,
   .kwFunc, .kwIf, .kwImport, .kwIn, .kwInclude, .kwInterface, .kwIs, .kwIsnot, .kwIterator,
   .kwLet, .kwMacro, .kwMethod, .kwMixin, .kwMod, .kwNil, .kwNot, .kwNotin, .kwObject, .kwOf,
   .kwOr, .kwOut, .kwProc, .kwPtr, .kwRaise, .kwRef, .kwReturn, .kwShl, .kwShr, .kwStatic,
   .kwTemplate, .kwTry, .kwTuple, .kwType, .kwUsing, .kwVar, .kwWhen, .kwWhile, .kwXor, .kwYield]

/-- How the keyword is written, in small letters. -/
def spelling : Keyword → String
  | kwAddr => "addr"
  | kwAnd => "and"
  | kwAs => "as"
  | kwAsm => "asm"
  | kwBind => "bind"
  | kwBlock => "block"
  | kwBreak => "break"
  | kwCase => "case"
  | kwCast => "cast"
  | kwConcept => "concept"
  | kwConst => "const"
  | kwContinue => "continue"
  | kwConverter => "converter"
  | kwDefer => "defer"
  | kwDiscard => "discard"
  | kwDistinct => "distinct"
  | kwDiv => "div"
  | kwDo => "do"
  | kwElif => "elif"
  | kwElse => "else"
  | kwEnd => "end"
  | kwEnum => "enum"
  | kwExcept => "except"
  | kwExport => "export"
  | kwFinally => "finally"
  | kwFor => "for"
  | kwFrom => "from"
  | kwFunc => "func"
  | kwIf => "if"
  | kwImport => "import"
  | kwIn => "in"
  | kwInclude => "include"
  | kwInterface => "interface"
  | kwIs => "is"
  | kwIsnot => "isnot"
  | kwIterator => "iterator"
  | kwLet => "let"
  | kwMacro => "macro"
  | kwMethod => "method"
  | kwMixin => "mixin"
  | kwMod => "mod"
  | kwNil => "nil"
  | kwNot => "not"
  | kwNotin => "notin"
  | kwObject => "object"
  | kwOf => "of"
  | kwOr => "or"
  | kwOut => "out"
  | kwProc => "proc"
  | kwPtr => "ptr"
  | kwRaise => "raise"
  | kwRef => "ref"
  | kwReturn => "return"
  | kwShl => "shl"
  | kwShr => "shr"
  | kwStatic => "static"
  | kwTemplate => "template"
  | kwTry => "try"
  | kwTuple => "tuple"
  | kwType => "type"
  | kwUsing => "using"
  | kwVar => "var"
  | kwWhen => "when"
  | kwWhile => "while"
  | kwXor => "xor"
  | kwYield => "yield"

/-- Position in the order, from 0. -/
def index : Keyword → Nat
  | kwAddr => 0
  | kwAnd => 1
  | kwAs => 2
  | kwAsm => 3
  | kwBind => 4
  | kwBlock => 5
  | kwBreak => 6
  | kwCase => 7
  | kwCast => 8
  | kwConcept => 9
  | kwConst => 10
  | kwContinue => 11
  | kwConverter => 12
  | kwDefer => 13
  | kwDiscard => 14
  | kwDistinct => 15
  | kwDiv => 16
  | kwDo => 17
  | kwElif => 18
  | kwElse => 19
  | kwEnd => 20
  | kwEnum => 21
  | kwExcept => 22
  | kwExport => 23
  | kwFinally => 24
  | kwFor => 25
  | kwFrom => 26
  | kwFunc => 27
  | kwIf => 28
  | kwImport => 29
  | kwIn => 30
  | kwInclude => 31
  | kwInterface => 32
  | kwIs => 33
  | kwIsnot => 34
  | kwIterator => 35
  | kwLet => 36
  | kwMacro => 37
  | kwMethod => 38
  | kwMixin => 39
  | kwMod => 40
  | kwNil => 41
  | kwNot => 42
  | kwNotin => 43
  | kwObject => 44
  | kwOf => 45
  | kwOr => 46
  | kwOut => 47
  | kwProc => 48
  | kwPtr => 49
  | kwRaise => 50
  | kwRef => 51
  | kwReturn => 52
  | kwShl => 53
  | kwShr => 54
  | kwStatic => 55
  | kwTemplate => 56
  | kwTry => 57
  | kwTuple => 58
  | kwType => 59
  | kwUsing => 60
  | kwVar => 61
  | kwWhen => 62
  | kwWhile => 63
  | kwXor => 64
  | kwYield => 65

end Keyword
end Lexeme
