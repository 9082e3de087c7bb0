import Lexeme.Proofs.Source.Hom
import Lexeme.Proofs.Layout.Blank
import Lexeme.Lexer.Basic

/-!
# Scanning sources that read alike

Scanners know a source by its lines alone, so a likeness carries what they find from one source to
the other: the same texts and counts, cursors at the same place, and the same diagnostics, as many
lines further down as there are more lines in front. Only a token on one line also depends on the
byte that ends its line. Along a homomorphism nothing changes at all.
-/

set_option autoImplicit false

namespace Lexeme

variable {σ τ : Type} [LineSource σ] [LineSource τ]

section Carry

variable (f : LineSource.Likeness σ τ) (n : Nat)

open Cursor

namespace BlockComment

def carry (b : BlockComment σ) : BlockComment τ :=
  ⟨b.text, b.breaks, b.closed, b.cursor.carry f n, b.diagnostics.map (Diagnostic.below n)⟩

theorem dropSpaces_carry (count : Nat) (c : Cursor σ) :
    dropSpaces count (c.carry f n) = (dropSpaces count c).carry f n := by
  rw [dropSpaces, rest_carry, advance_carry, dropSpaces]

theorem scan_carry (form : BlockForm) (limit strip : Nat) (depth : UInt32) (c : Cursor σ) :
    scan form limit strip depth (c.carry f n) = (scan form limit strip depth c).carry f n := by
  fun_induction scan form limit strip depth c with
  | case1 depth c l hd =>
    rw [scan, rest_carry]
    simp only [l] at hd
    simp only [hd]
    rfl
  | case2 depth c l depth' hd h =>
    rw [scan, rest_carry]
    simp only [l] at hd
    simp only [hd, isLast_carry, h, lineEnd_carry, report_carry]
    rfl
  | case3 depth c l depth' hd h more ih =>
    rw [scan, rest_carry]
    simp only [l] at hd
    simp only [hd, isLast_carry, h, lengthHint_carry, nextLine_carry, dropSpaces_carry, ih, more,
      carry, List.map_append]
    rfl

theorem ordinary_carry (limit : Nat) (c : Cursor σ) :
    ordinary limit (c.carry f n) = (ordinary limit c).carry f n :=
  scan_carry f n _ _ _ _ c

theorem documentation_carry (limit : Nat) (c : Cursor σ) :
    documentation limit (c.carry f n) = (documentation limit c).carry f n := by
  have hcolumn : (c.carry f n).position.column = c.position.column := rfl
  simp only [documentation, rest_carry, isLast_carry, lengthHint_carry, nextLine_carry,
    advance_carry, scan_carry, hcolumn]
  split
  · simp only [carry, List.map_append]
  · rfl

end BlockComment

namespace Comment

def carry (comment : Comment σ) : Comment τ :=
  ⟨comment.text, comment.breaks, comment.cursor.carry f n, comment.pendingIndent,
    comment.diagnostics.map (Diagnostic.below n)⟩

theorem documentationLines_carry (limit strip : Nat) (c : Cursor σ) :
    documentationLines limit strip (c.carry f n) =
      (documentationLines limit strip c).carry f n := by
  fun_induction documentationLines limit strip c with
  | case1 c h =>
    rw [documentationLines]
    simp only [isLast_carry, h, rest_carry, lineEnd_carry]
    rfl
  | case2 c h indent next hdoc more ih =>
    rw [documentationLines]
    simp only [next, indent] at hdoc ih
    simp only [isLast_carry, h, nextLine_carry, rest_carry, advance_carry, hdoc,
      BlockComment.dropSpaces_carry, ih, lengthHint_carry, more, next, indent, carry,
      List.map_append]
    rfl
  | case3 c h indent next hdoc =>
    rw [documentationLines]
    simp only [next, indent] at hdoc
    simp only [isLast_carry, h, nextLine_carry, rest_carry, advance_carry, hdoc, lengthHint_carry]
    rfl

theorem scan_carry (limit : Nat) (c : Cursor σ) :
    scan limit (c.carry f n) = (scan limit c).carry f n := by
  simp only [scan, rest_carry, advance_carry, lineEnd_carry, BlockComment.documentation_carry,
    BlockComment.ordinary_carry, documentationLines_carry]
  split
  · rfl
  · split
    · rfl
    · split
      · rfl
      · rfl

end Comment

namespace TripleString

def carry (string : TripleString σ) : TripleString τ :=
  ⟨string.text, string.closed, string.cursor.carry f n,
    string.diagnostics.map (Diagnostic.below n)⟩

theorem contents_carry (limit : Nat) (c : Cursor σ) :
    contents limit (c.carry f n) = (contents limit c).carry f n := by
  fun_induction contents limit c with
  | case1 c l hl =>
    rw [contents, rest_carry]
    simp only [l] at hl
    simp only [hl, advance_carry]
    rfl
  | case2 c l hl h =>
    rw [contents, rest_carry]
    simp only [l] at hl
    simp only [hl, isLast_carry, h, lineEnd_carry]
    rfl
  | case3 c l hl h more ih =>
    rw [contents, rest_carry]
    simp only [l] at hl
    simp only [hl, isLast_carry, h, nextLine_carry, ih, lengthHint_carry, more, carry,
      List.map_append]
    rfl

theorem scan_carry (limit : Nat) (c : Cursor σ) :
    scan limit (c.carry f n) = (scan limit c).carry f n := by
  simp only [scan, rest_carry, isLast_carry, nextLine_carry, contents_carry, lengthHint_carry]
  split
  · simp only [carry, List.map_append]
  · rfl

end TripleString

namespace Indentation

def carry (i : Indentation σ) : Indentation τ :=
  ⟨i.width, i.cursor.carry f n, i.diagnostics.map (Diagnostic.below n)⟩

theorem scan_carry (options : Options) (width : Nat) (c : Cursor σ) :
    scan options width (c.carry f n) = (scan options width c).carry f n := by
  fun_induction scan options width c with
  | case1 width c spaces start h block more ih =>
    rw [scan]
    simp only [start, spaces] at h
    simp only [block, start, spaces] at ih
    simp only [rest_carry, advance_carry, h, BlockComment.ordinary_carry, BlockComment.carry, ih,
      more, block, start, spaces, carry, List.map_append]
    rfl
  | case2 width c spaces start h =>
    rw [scan]
    simp only [start, spaces] at h
    simp only [rest_carry, advance_carry, h]
    rfl

end Indentation

namespace Blank

def carry (b : Blank σ) : Blank τ :=
  ⟨b.cursor.carry f n, b.spaces, b.indent, b.diagnostics.map (Diagnostic.below n)⟩

theorem carry_prepend (ds : List Diagnostic) (b : Blank σ) :
    (b.prepend ds).carry f n = (b.carry f n).prepend (ds.map (Diagnostic.below n)) := by
  simp only [carry, prepend, List.map_append]

theorem run_carry (options : Options) (spaces : Nat) (c : Cursor σ) :
    run options spaces (c.carry f n) = run options spaces c := by
  rw [run, rest_carry, run]

theorem ahead_carry (options : Options) (c : Cursor σ) :
    ahead options (c.carry f n) = (ahead options c).carry f n := by
  rw [ahead, nextLine_carry, Indentation.scan_carry, ahead]

theorem block_carry (options : Options) (spaces : Nat) (c : Cursor σ) :
    block options spaces (c.carry f n) = (block options spaces c).carry f n := by
  rw [block, run_carry, advance_carry, advance_carry, BlockComment.ordinary_carry, block]

theorem scan_carry (options : Options) (spaces : Nat) (c : Cursor σ) :
    scan options spaces (c.carry f n) = (scan options spaces c).carry f n := by
  induction spaces, c using scanCases (σ := σ) options with
  | token spaces c h =>
    rw [scan_of_token h, scan_of_token (by rwa [run_carry]), run_carry, map_locate_carry]
    rfl
  | last spaces c h hlast =>
    rw [scan_of_isLast h hlast, scan_of_isLast (by rwa [run_carry]) (by rwa [isLast_carry]),
      run_carry, map_locate_carry]
    rfl
  | start spaces c h hlast hstart =>
    rw [scan_of_lineEnd h hlast, if_pos hstart,
      scan_of_lineEnd (by rwa [run_carry]) (by rwa [isLast_carry]), run_carry, ahead_carry,
      lengthHint_carry, map_locate_carry]
    simp only [Indentation.carry, rest_carry]
    rw [if_pos hstart]
    simp only [carry, List.map_append]
  | comment spaces c h ih =>
    rw [scan_of_block h, scan_of_block (by rwa [run_carry]), run_carry, block_carry,
      map_locate_carry, carry_prepend, List.map_append]
    simp only [BlockComment.carry]
    rw [ih]
  | line spaces c h hlast hstart ih =>
    rw [scan_of_lineEnd h hlast, if_neg (by simp [hstart]),
      scan_of_lineEnd (by rwa [run_carry]) (by rwa [isLast_carry]), run_carry, ahead_carry,
      lengthHint_carry, map_locate_carry, carry_prepend, List.map_append, List.map_append]
    simp only [Indentation.carry, rest_carry]
    rw [if_neg (by simp [hstart]), ih]

end Blank

namespace TokenRead

def carry (read : TokenRead σ) : TokenRead τ :=
  ⟨read.token, read.table, read.cursor.carry f n, read.pendingIndent,
    read.diagnostics.map (Diagnostic.below n)⟩

theorem ofComment_carry (options : Options) (c : Cursor σ) (table : IdentTable) :
    ofComment options (c.carry f n) table = (ofComment options c table).carry f n := by
  rw [ofComment, Comment.scan_carry]
  rfl

theorem ofTriple_carry (options : Options) (o : StringOpening) (c : Cursor σ)
    (table : IdentTable) :
    ofTriple options o (c.carry f n) table = (ofTriple options o c table).carry f n := by
  rw [ofTriple, advance_carry, TripleString.scan_carry, report_carry, ofTriple]
  simp only [TripleString.carry, carry, List.map_append, apply_ite (List.map (Diagnostic.below n)),
    List.map_nil, List.map_singleton]
  rfl

theorem ofPiece_carry (p : Piece) (c : Cursor σ) (table : IdentTable) :
    ofPiece p (c.carry f n) table = (ofPiece p c table).carry f n := by
  rw [ofPiece, map_locate_carry]
  rfl

theorem scan_carry (options : Options) {c : Cursor σ} (h : (c.carry f n).ending = c.ending)
    (table : IdentTable) :
    scan options (c.carry f n) table = (scan options c table).carry f n := by
  simp only [scan, rest_carry, h, before?_carry, ofComment_carry, ofTriple_carry, ofPiece_carry]
  split
  · rfl
  · split
    · rfl
    · split
      · split
        · rfl
        · rfl
      · rfl

end TokenRead
end Carry

/-! ## Homomorphisms -/

section Map

variable (f : LineSource.Hom σ τ)

def Blank.map (b : Blank σ) : Blank τ := ⟨b.cursor.map f, b.spaces, b.indent, b.diagnostics⟩

theorem Blank.carry_likeness (b : Blank σ) : b.carry f.likeness 0 = b.map f := by
  rw [carry, Diagnostic.map_below_zero]
  rfl

def TokenRead.map (read : TokenRead σ) : TokenRead τ :=
  ⟨read.token, read.table, read.cursor.map f, read.pendingIndent, read.diagnostics⟩

theorem TokenRead.scan_map (options : Options) (c : Cursor σ) (table : IdentTable) :
    scan options (c.map f) table = (scan options c table).map f := by
  have hending : (c.carry f.likeness 0).ending = c.ending :=
    congrArg Line.ending (f.line_eq c.source)
  rw [Cursor.map_eq_carry, scan_carry f.likeness 0 options hending, carry,
    Diagnostic.map_below_zero]
  rfl

namespace Lexer

/-- The lexer in the same state on the other source. -/
def map (l : Lexer σ) : Lexer τ := ⟨l.options, l.cursor.map f, l.pendingIndent, l.lineIndent⟩

theorem lineText_map (l : Lexer σ) (marker : Bool) :
    (l.map f).lineText marker = l.lineText marker := by
  have hbytes : (l.cursor.map f).lineBytes = l.cursor.lineBytes :=
    congrArg Line.bytes (f.line_eq l.cursor.source)
  simp only [lineText, map, hbytes]
  rfl

theorem blank_map (l : Lexer σ) : (l.map f).blank = l.blank.map f := by
  have hcarry := Blank.scan_carry f.likeness 0 l.options 0 l.cursor
  rw [Blank.carry_likeness] at hcarry
  exact hcarry

end Lexer

def LexerStep.map (step : LexerStep σ) : LexerStep τ :=
  ⟨step.token, step.lexer.map f, step.table, step.diagnostics⟩

/-- A token is read alike from sources that read alike. -/
@[simp] theorem Lexer.next_map (l : Lexer σ) (table : IdentTable) :
    (l.map f).next table = (l.next table).map f := by
  rw [next, blank_map]
  simp only [Blank.map, Lexer.map, TokenRead.scan_map]
  rfl

end Map
end Lexeme
