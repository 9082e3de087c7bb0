import Lexeme.Position

/-!
# Diagnostics

Reading a source never fails: malformed text gives a best-effort token and a diagnostic.
`Message` lists everything there is to complain about, `Message.text` holds the wording and
`Message.severity` the weight of each.
-/

set_option autoImplicit false

namespace Lexeme

/-- Hints are about style, warnings about deprecated spellings whose token is still good. -/
inductive Severity where
  | hint
  | warning
  | error
deriving DecidableEq, Repr

namespace Severity

def text : Severity → String
  | hint => "hint"
  | warning => "warning"
  | error => "error"

/-- Graver diagnostics rank higher. -/
def rank : Severity → Nat
  | hint => 0
  | warning => 1
  | error => 2

end Severity

inductive Message where
  /-- The literal as written. -/
  | invalidNumber (literal : String)
  | numberOutOfRange (literal : String)
  | deprecatedOctalPrefix (literal : String)
  | invalidOctalPrefix (literal : String)
  | underscoreGrouping
  | numberFollowedByIdent
  | trailingUnderscore
  /-- The stray character and the byte it stands for. -/
  | invalidToken (char : Char) (byte : UInt8)
  | unterminatedTripleString
  | unterminatedString
  | invalidCharLiteral
  | unterminatedChar
  /-- The letter of the escape. -/
  | escapeNotAllowedInChar (letter : Char)
  /-- The character in place of the digit. -/
  | expectedHexDigit (found : Char)
  | emptyCodePoint
  /-- The digits as written. -/
  | codePointTooLarge (digits : String)
  | invalidCharConstant
  | octalEscape
  | unterminatedComment
  | tabsNotAllowed
  | lineTooLong
deriving DecidableEq, Repr

namespace Message

def text : Message → String
  | invalidNumber literal => "invalid number: '" ++ literal ++ "'"
  | numberOutOfRange literal => "number out of range: '" ++ literal ++ "'"
  | deprecatedOctalPrefix literal =>
    literal ++ " will soon be invalid for oct literals; use '0o' for octals"
  | invalidOctalPrefix literal =>
    literal ++ " is an invalid int literal; for octal literals use the '0o' prefix"
  | underscoreGrouping =>
    "only single underscores may occur in a token and token may not end with an underscore: " ++
      "e.g. '1__1' and '1_' are invalid"
  | numberFollowedByIdent => "invalid token: no whitespace between number and identifier"
  | trailingUnderscore => "invalid token: trailing underscore"
  | invalidToken char byte =>
    "invalid token: " ++ char.toString ++ " (\\" ++ toString byte.toNat ++ ")"
  | unterminatedTripleString => "closing \"\"\" expected, but end of file reached"
  | unterminatedString => "closing \" expected"
  | invalidCharLiteral => "invalid character literal"
  | unterminatedChar => "missing closing ' for character literal"
  | escapeNotAllowedInChar letter => "\\" ++ letter.toString ++ " not allowed in character literal"
  | expectedHexDigit found =>
    "expected a hex digit, but found: " ++ found.toString ++ "; maybe prepend with 0"
  | emptyCodePoint => "Unicode codepoint cannot be empty"
  | codePointTooLarge digits =>
    "Unicode codepoint must be lower than 0x10FFFF, but was: " ++ digits
  | invalidCharConstant => "invalid character constant"
  | octalEscape => "octal escape sequences do not exist; leading zero is ignored"
  | unterminatedComment => "end of multiline comment expected"
  | tabsNotAllowed => "tabulators are not allowed"
  | lineTooLong => "line too long"

def severity : Message → Severity
  | lineTooLong => .hint
  | deprecatedOctalPrefix _ | octalEscape => .warning
  | _ => .error

end Message

/-- A message and where it belongs. -/
structure Diagnostic where
  position : Position
  message : Message
deriving DecidableEq, Repr

namespace Diagnostic

def severity (d : Diagnostic) : Severity := d.message.severity

def isError (d : Diagnostic) : Bool := d.severity == .error

/-- The position, the severity and the message, with a colon and a space between them. -/
def text (d : Diagnostic) : String :=
  d.position.text ++ ": " ++ d.severity.text ++ ": " ++ d.message.text

end Diagnostic

/-- A message about a byte of the line being scanned, `offset` bytes behind the scan's start. -/
structure Finding where
  offset : Nat
  message : Message
deriving DecidableEq, Repr

/-- The same finding, seen from a start `n` bytes further left. -/
def Finding.shift (n : Nat) (f : Finding) : Finding := { f with offset := n + f.offset }

end Lexeme
