import Lexeme.Lexer.Basic

/-!
# The indentation width of a source

The width a source is indented by shows at the first indented line that opens a block: one
behind a colon, an equals sign, or a keyword that begins a section.
-/

set_option autoImplicit false

namespace Lexeme

/-- Whether a block may open behind a token of the kind. -/
def Kind.mayOpenBlock : Kind → Bool
  | .mark m => m ∈ [.colon, .equals]
  | .keyword k => k ∈ [.kwType, .kwConst, .kwLet, .kwVar, .kwUsing]
  | _ => false

structure IndentWidth where
  /-- The width, 0 if no line shows it. -/
  width : Nat
  table : IdentTable
  diagnostics : List Diagnostic

namespace IndentWidth

variable {σ : Type} [LineSource σ]

/-- Look for the width in at most `count` tokens, the token in front being of kind `previous`. -/
def search : Nat → Kind → Lexer σ → IdentTable → IndentWidth
  | 0, _, _, table => ⟨0, table, []⟩
  | count + 1, previous, lexer, table =>
    let step := lexer.next table
    let width := step.token.indent.getD 0
    if step.token.kind = .eof then ⟨0, step.table, step.diagnostics⟩
    else if 0 < width ∧ previous.mayOpenBlock then ⟨width, step.table, step.diagnostics⟩
    else
      let more := search count step.token.kind step.lexer step.table
      { more with diagnostics := step.diagnostics ++ more.diagnostics }

/-- The width of the source a lexer stands at the start of. Tokens are read up to the one that
shows it. -/
def ofLexer (lexer : Lexer σ) (table : IdentTable) : IndentWidth :=
  search (lexer.cursor.unread + 1) .eof lexer table

end IndentWidth
end Lexeme
