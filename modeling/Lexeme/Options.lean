/-!
# Options

The switches that change how a source is read.
-/

set_option autoImplicit false

namespace Lexeme

/-- The window size used when the caller has no preference. -/
def defaultWindow : Nat := 8192

structure Options where
  /-- Size of the read window; it grows when a line does not fit. -/
  bufferSize : Nat := defaultWindow
  /-- Tabs are blanks like spaces instead of errors. -/
  allowTabs : Bool := false
  /-- The newline escape is refused in character literals. -/
  legacyNewlineEscape : Bool := false
  /-- Spaces in front of an operator weaken its binding. -/
  strongSpaces : Bool := false
  /-- Ordinary comments become tokens instead of blanks. -/
  retainComments : Bool := false
  /-- Longer lines get a hint. -/
  maxLineLength : Nat := 80
  /-- Added to every line number, in 32 bits. -/
  lineOffset : Nat := 0
deriving DecidableEq, Repr

end Lexeme
