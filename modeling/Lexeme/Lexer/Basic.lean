import Lexeme.Lexer.Piece
import Lexeme.Layout.Blank
import Lexeme.Literal.TripleString
import Lexeme.Source.Reader
import Lexeme.Token.Precedence

/-!
# The lexer

A lexer turns a source into tokens, one at a time: it passes over the blanks, reads the token
behind them, and remembers the indentation. It never fails; what is wrong with the source is
told by diagnostics, and behind the last token comes the end of input, again and again. The
identifier table is handed through, so several lexers may share one.
-/

set_option autoImplicit false

namespace Lexeme

structure Lexer (σ : Type) where
  options : Options
  cursor : Cursor σ
  /-- Indentation of the line behind a documentation comment, for the token that starts it. -/
  pendingIndent : Option Nat := none
  /-- Indentation of the latest line that started with a token. -/
  lineIndent : Nat := 0

/-- A token read at a cursor, its place not yet filled in. -/
structure TokenRead (σ : Type) where
  token : Token
  table : IdentTable
  /-- Behind the token. -/
  cursor : Cursor σ
  pendingIndent : Option Nat
  diagnostics : List Diagnostic

namespace TokenRead

variable {σ : Type} [LineSource σ]

/-- The end of the input. -/
def ofEnd (c : Cursor σ) (table : IdentTable) : TokenRead σ :=
  ⟨{ kind := .eof }, table, c, none, []⟩

def ofComment (options : Options) (c : Cursor σ) (table : IdentTable) : TokenRead σ :=
  let comment := Comment.scan options.maxLineLength c
  ⟨{ kind := .comment, int := comment.breaks, literal := comment.text }, table, comment.cursor,
    comment.pendingIndent, comment.diagnostics⟩

/-- A triple-quoted string; one without an end is reported where it starts. -/
def ofTriple (options : Options) (o : StringOpening) (c : Cursor σ) (table : IdentTable) :
    TokenRead σ :=
  let string := TripleString.scan options.maxLineLength (c.advance (o.lead + 3))
  let missing := if string.closed then [] else [c.report .unterminatedTripleString]
  ⟨{ kind := .strLit o.tripleForm, literal := string.text }, table, string.cursor, none,
    string.diagnostics ++ missing⟩

/-- A token on one line. -/
def ofPiece (p : Piece) (c : Cursor σ) (table : IdentTable) : TokenRead σ :=
  let (token, table) := p.toToken table
  ⟨token, table, c.advance p.length, none, p.findings.map c.locate⟩

/-- The token at a cursor. -/
def scan (options : Options) (c : Cursor σ) (table : IdentTable) : TokenRead σ :=
  let ctx : Escape.Context := ⟨options.legacyNewlineEscape, false, c.ending.byte⟩
  match c.rest with
  | [] => ofEnd c table
  | b :: rest =>
    if b == Byte.hash then ofComment options c table
    else match StringOpening.ofLine? c.before? (b :: rest) with
      | some o =>
        if o.isTriple (b :: rest) then ofTriple options o c table
        else ofPiece (.ofString ctx o (b :: rest)) c table
      | none => ofPiece (.ofBytes ctx b rest) c table

end TokenRead

/-- What reading one token comes to. -/
structure LexerStep (σ : Type) where
  token : Token
  lexer : Lexer σ
  table : IdentTable
  diagnostics : List Diagnostic

namespace Lexer

variable {σ : Type}

/-- A lexer at the start of a source. -/
def ofSource (file : FileId) (options : Options) (source : σ) : Lexer σ :=
  { options, cursor := ⟨file, source, wrap32 (1 + options.lineOffset), 0⟩ }

/-- A lexer on a stream. -/
def open? (file : FileId) (stream : ByteStream) (options : Options) :
    Except OpenError (Lexer Reader) :=
  (Reader.open? stream options.bufferSize).map (ofSource file options)

/-- Where the next token is looked for. -/
def position (l : Lexer σ) : Position := l.cursor.position

/-- How strongly a token binds under the lexer's options. -/
def precedence (l : Lexer σ) (t : Token) : Int := t.precedence l.options.strongSpaces

variable [LineSource σ]

/-- The text of the current line, with a caret under the cursor if asked for. -/
def lineText (l : Lexer σ) (marker : Bool) : String :=
  let text := Utf8.lossy l.cursor.lineBytes
  if marker then
    text ++ "\n" ++ String.ofList (List.replicate l.position.column ' ') ++ "^"
  else text

/-- What stands in front of the next token. -/
def blank (l : Lexer σ) : Blank σ := Blank.scan l.options 0 l.cursor

/-- Read the next token. -/
def next (l : Lexer σ) (table : IdentTable) : LexerStep σ :=
  let blank := l.blank
  let indent := blank.indent <|> l.pendingIndent
  let read := TokenRead.scan l.options blank.cursor table
  { token :=
      { read.token with
        indent := if read.token.kind = .eof then some 0 else indent
        line := blank.cursor.position.line
        column := blank.cursor.position.column
        spaceBefore := blank.spaces }
    lexer :=
      { options := l.options
        cursor := read.cursor
        pendingIndent := read.pendingIndent
        lineIndent := indent.getD l.lineIndent }
    table := read.table
    diagnostics := blank.diagnostics ++ read.diagnostics }

/-- The next steps, at most `count`, up to and including the end of the input. -/
def steps : Nat → Lexer σ → IdentTable → List (LexerStep σ)
  | 0, _, _ => []
  | count + 1, l, table =>
    let step := l.next table
    if step.token.kind = .eof then [step] else step :: steps count step.lexer step.table

/-- All steps to the end of the input. Every token but the last takes a byte at least. -/
def toEnd (l : Lexer σ) (table : IdentTable) : List (LexerStep σ) :=
  l.steps (l.cursor.unread + 1) table

end Lexer
end Lexeme
