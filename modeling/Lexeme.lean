import Lexeme.Power
import Lexeme.Byte
import Lexeme.Text.Utf8
import Lexeme.Text.CodePoint
import Lexeme.Binary64.Basic
import Lexeme.Binary64.Shortest
import Lexeme.Position
import Lexeme.Diagnostic
import Lexeme.Options
import Lexeme.Token.Keyword
import Lexeme.Token.Kind
import Lexeme.Token.Basic
import Lexeme.Token.Precedence
import Lexeme.Ident.Hash
import Lexeme.Ident.Table
import Lexeme.Spelling.Identifier
import Lexeme.Spelling.Symbol
import Lexeme.Spelling.Operator
import Lexeme.Source.ByteStream
import Lexeme.Source.Line
import Lexeme.Source.Reader
import Lexeme.Source.Text
import Lexeme.Source.Cursor
import Lexeme.Token.Piece
import Lexeme.Literal.Escape
import Lexeme.Literal.Quoted
import Lexeme.Literal.Digits
import Lexeme.Literal.Suffix
import Lexeme.Literal.NumberValue
import Lexeme.Literal.Number
import Lexeme.Literal.TripleString
import Lexeme.Layout.BlockComment
import Lexeme.Layout.Comment
import Lexeme.Layout.Blank
import Lexeme.Lexer.Piece
import Lexeme.Lexer.Basic
import Lexeme.Lexer.IndentWidth
import Lexeme.Lexer.Family
import Lexeme.Proofs.Source.Represents
import Lexeme.Proofs.Source.Line
import Lexeme.Proofs.Source.TextView
import Lexeme.Proofs.Source.Walk
import Lexeme.Proofs.Lexer.Transport
import Lexeme.Proofs.Lexer.Run
import Lexeme.Proofs.Lexer.WindowIndependence
import Lexeme.Proofs.Layout.Passage
import Lexeme.Proofs.Literal.Extent
import Lexeme.Proofs.Lexer.Progress
import Lexeme.Proofs.Lexer.Positions
import Lexeme.Proofs.Layout.Leads
import Lexeme.Proofs.Lexer.WholeRun
import Lexeme.Proofs.Lexer.RetainedComments
import Lexeme.Proofs.Ident.Table
import Lexeme.Proofs.Lexer.Naming
import Lexeme.Proofs.Lexer.Interleaving
import Lexeme.Proofs.Lexer.Resumption
import Lexeme.Proofs.Source.Restyled
import Lexeme.Proofs.Lexer.TerminatorStyle
import Lexeme.Proofs.Layout.Essential
import Lexeme.Proofs.Lexer.OptionIndependence
import Lexeme.Proofs.Lexer.ErrorFree
import Lexeme.Proofs.Literal.NumberGrammar
import Lexeme.Proofs.Literal.NumberLiteral
import Lexeme.Proofs.Lexer.NumberToken
import Lexeme.Proofs.Lexer.LengthHints
import Lexeme.Proofs.Ident.Interning
import Lexeme.Proofs.Lexer.SourceText
import Lexeme.Proofs.Lexer.Classification
import Lexeme.Proofs.Lexer.Rendering
import Lexeme.Proofs.Lexer.NumberValues
import Lexeme.Proofs.Lexer.PlainString
import Lexeme.Proofs.Text.CodePoint
import Lexeme.Proofs.Literal.CodePointEscape
import Lexeme.Proofs.Lexer.CodePointString
import Lexeme.Proofs.Literal.EscapeExtent
import Lexeme.Proofs.Lexer.StringEnd
import Lexeme.Proofs.Lexer.RawString
import Lexeme.Proofs.Literal.PieceFindings
import Lexeme.Proofs.Literal.TripleContents
import Lexeme.Proofs.Lexer.TripleQuoted
import Lexeme.Proofs.Lexer.CommentLines
import Lexeme.Proofs.Layout.BlockEnds
import Lexeme.Proofs.Lexer.BlockComments
import Lexeme.Proofs.Lexer.NestedBlocks
import Lexeme.Proofs.Lexer.DocumentationLines
import Lexeme.Proofs.Layout.Indented
import Lexeme.Proofs.Lexer.LineIndent
import Lexeme.Proofs.Lexer.TabbedLines
import Lexeme.Proofs.Lexer.CommentLayout
import Lexeme.Proofs.Lexer.OperatorSpaces
import Lexeme.Proofs.Text.RoundTrip
import Lexeme.Proofs.Token.Precedence
import Lexeme.Proofs.Lexer.WholeWord
import Lexeme.Proofs.Literal.FindingPlaces
import Lexeme.Proofs.Layout.Enclosed
import Lexeme.Proofs.Lexer.DiagnosticPlaces
import Lexeme.Proofs.Literal.NumberQuote
import Lexeme.Proofs.Lexer.OutOfRangeText
import Lexeme.Proofs.Lexer.IndentWidth
import Lexeme.Proofs.Source.Growth
import Lexeme.Proofs.Text.CodePointSequence
