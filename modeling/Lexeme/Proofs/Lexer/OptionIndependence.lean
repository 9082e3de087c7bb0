import Lexeme.Proofs.Layout.Essential
import Lexeme.Proofs.Lexer.Resumption

/-!
# Options that decide about complaints only

Whether tabs, long lines and newline escapes in characters are complained about, how spaces weaken
an operator, and where lines start to count: none of these options moves the cursor. Two runs on
one input that agree on whether comments are retained stay side by side, and show the same once
such complaints are left out and the lines are counted from one start.
-/

set_option autoImplicit false

namespace Lexeme

/-! ## Tokens -/

theorem essentialFindings_append (fs gs : List Finding) :
    essentialFindings (fs ++ gs) = essentialFindings fs ++ essentialFindings gs :=
  List.filter_append ..

theorem essentialFindings_shift (n : Nat) (fs : List Finding) :
    essentialFindings (fs.map (Finding.shift n)) = (essentialFindings fs).map (Finding.shift n) :=
  List.filter_map ..

/-- Of findings, those are looked at that do not depend on options. -/
def FindingView.essential : FindingView :=
  ⟨essentialFindings, essentialFindings_append, essentialFindings_shift⟩

namespace Escape

/-- The context under another rule for newline escapes in characters. -/
def Context.withLegacy (ctx : Context) (legacy : Bool) : Context :=
  { ctx with legacyNewline := legacy }

theorem agree_withLegacy (ctx : Context) (legacy : Bool) :
    FindingView.essential.Agree ctx (ctx.withLegacy legacy) := by
  intro bytes
  cases bytes with
  | nil => exact ⟨rfl, rfl, rfl⟩
  | cons b rest =>
    rw [scan, scan]
    dsimp only
    split
    · exact ⟨rfl, rfl, rfl⟩
    · split
      · have hrefused : ∀ legacy inCharacter : Bool,
            essentialFindings (if legacy then
              if inCharacter then [⟨0, .escapeNotAllowedInChar 'n'⟩] else [] else []) = [] := by
          decide
        refine ⟨rfl, rfl, ?_⟩
        exact (hrefused legacy ctx.inCharacter).trans
          (hrefused ctx.legacyNewline ctx.inCharacter).symm
      · exact ⟨rfl, rfl, rfl⟩

end Escape

section Reads

variable {σ : Type} [LineSource σ] (options options' : Options)

namespace TokenRead

def essential (read : TokenRead σ) : TokenRead σ :=
  { read with diagnostics := Diagnostic.essential read.diagnostics }

omit [LineSource σ] in
theorem essential_ofPiece {p p' : Piece}
    (h : FindingView.essential.piece p' = FindingView.essential.piece p) (c : Cursor σ)
    (table : IdentTable) : (ofPiece p' c table).essential = (ofPiece p c table).essential := by
  obtain ⟨htoken, hlength, hfindings⟩ := FindingView.of_piece_eq h table
  change essentialFindings p'.findings = essentialFindings p.findings at hfindings
  simp only [essential, ofPiece, htoken, hlength, Diagnostic.essential_map_locate, hfindings]

theorem essential_ofComment (c : Cursor σ) (table : IdentTable) :
    (ofComment options' c table).essential = (ofComment options c table).essential := by
  have hscan := Comment.essential_scan options'.maxLineLength options.maxLineLength c
  simp only [Comment.essential, Comment.mk.injEq] at hscan
  obtain ⟨htext, hbreaks, hcursor, hpending, hdiags⟩ := hscan
  simp only [essential, ofComment, htext, hbreaks, hcursor, hpending, hdiags]

theorem essential_ofTriple (o : StringOpening) (c : Cursor σ) (table : IdentTable) :
    (ofTriple options' o c table).essential = (ofTriple options o c table).essential := by
  have hscan := TripleString.essential_scan options'.maxLineLength options.maxLineLength
    (c.advance (o.lead + 3))
  simp only [TripleString.essential, TripleString.mk.injEq] at hscan
  obtain ⟨htext, hclosed, hcursor, hdiags⟩ := hscan
  simp only [essential, ofTriple, Diagnostic.essential_append, htext, hclosed, hcursor, hdiags]

/-- A token is the same but for complaints that options decide about. -/
theorem essential_scan (c : Cursor σ) (table : IdentTable) :
    (scan options' c table).essential = (scan options c table).essential := by
  have hctx : context options' c = (context options c).withLegacy options'.legacyNewlineEscape :=
    rfl
  cases way c with
  | nil h => rw [scan_of_nil options h, scan_of_nil options' h]
  | comment rest h =>
    rw [scan_of_hash options h, scan_of_hash options' h]
    exact essential_ofComment options options' c table
  | triple o ho ht =>
    rw [scan_of_triple options ho ht, scan_of_triple options' ho ht]
    exact essential_ofTriple options options' o c table
  | string o ho ht =>
    rw [scan_of_string options ho ht, scan_of_string options' ho ht, hctx]
    apply essential_ofPiece
    exact (Escape.agree_withLegacy _ _).ofString o c.rest
  | bytes b rest h hb ho =>
    rw [scan_of_bytes options h hb ho, scan_of_bytes options' h hb ho, hctx]
    apply essential_ofPiece
    apply FindingView.Agree.ofBytes
    exact Escape.agree_withLegacy { context options c with inCharacter := true } _

end TokenRead
end Reads

/-! ## Lexers side by side -/

/-- What of a step does not depend on options. -/
structure Essence where
  token : Token
  diagnostics : List Diagnostic
  pendingIndent : Option Nat
  lineIndent : Nat
deriving DecidableEq, Repr

namespace LexerStep

variable {σ : Type}

/-- Lines are counted `n` further down. -/
def essence (n : Nat) (step : LexerStep σ) : Essence :=
  { token := step.token.below n
    diagnostics := (Diagnostic.essential step.diagnostics).map (Diagnostic.below n)
    pendingIndent := step.lexer.pendingIndent
    lineIndent := step.lexer.lineIndent }

/-- The same step on the other source, `n` lines further down. -/
def carry {τ : Type} [LineSource σ] [LineSource τ] (f : LineSource.Likeness σ τ) (n : Nat)
    (step : LexerStep σ) : LexerStep τ :=
  ⟨step.token.below n, step.lexer.carry f n step.lexer.lineIndent, step.table,
    step.diagnostics.map (Diagnostic.below n)⟩

end LexerStep

theorem Diagnostic.essential_map_below (n : Nat) (ds : List Diagnostic) :
    essential (ds.map (below n)) = (essential ds).map (below n) :=
  List.filter_map ..

/-- A source reads like itself. -/
def LineSource.Likeness.refl (σ : Type) [LineSource σ] : Likeness σ σ :=
  ⟨id, fun _ => rfl, fun _ => Iff.rfl, fun _ _ => rfl⟩

namespace Lexer

section Steps

variable {σ : Type} [LineSource σ]

def withOptions (l : Lexer σ) (options : Options) : Lexer σ := { l with options }

/-- A step with other options. -/
theorem next_withOptions (l : Lexer σ) {options : Options}
    (hretain : options.retainComments = l.options.retainComments) (table : IdentTable) :
    ((l.withOptions options).next table).token = (l.next table).token ∧
      ((l.withOptions options).next table).lexer = (l.next table).lexer.withOptions options ∧
      ((l.withOptions options).next table).table = (l.next table).table ∧
      Diagnostic.essential ((l.withOptions options).next table).diagnostics =
        Diagnostic.essential (l.next table).diagnostics := by
  have hblank := Blank.essential_scan hretain 0 l.cursor
  simp only [Blank.essential, Blank.mk.injEq] at hblank
  obtain ⟨hstart, hspaces, hindent, hblankDiags⟩ := hblank
  have hread := TokenRead.essential_scan l.options options l.blank.cursor table
  simp only [TokenRead.essential, TokenRead.mk.injEq] at hread
  obtain ⟨htoken, htable, hcursor, hpending, hreadDiags⟩ := hread
  simp only [blank] at htoken htable hcursor hpending hreadDiags
  simp only [next, withOptions, blank, Diagnostic.essential_append, hstart, hspaces, hindent,
    hblankDiags, htoken, htable, hcursor, hpending, hreadDiags]
  exact ⟨rfl, trivial, trivial, trivial⟩

theorem next_carry_lineIndent {τ : Type} [LineSource τ] (f : LineSource.Likeness σ τ) (n : Nat)
    (hf : ∀ s, (LineSource.line (f.toFun s)).ending = (LineSource.line s).ending) (l : Lexer σ)
    (table : IdentTable) :
    (l.carry f n l.lineIndent).next table = (l.next table).carry f n := by
  have hblank : (l.carry f n l.lineIndent).blank = l.blank.carry f n :=
    Blank.scan_carry f n l.options 0 l.cursor
  have hread := TokenRead.scan_carry f n l.options (hf l.blank.cursor.source) table
  have hoptions : (l.carry f n l.lineIndent).options = l.options := rfl
  simp only [next, hblank, hoptions]
  simp only [Blank.carry, hread, TokenRead.carry, LexerStep.carry, List.map_append]
  rfl

/-- The lexer, `n` lines further down. -/
def below (n : Nat) (l : Lexer σ) : Lexer σ := l.carry (.refl σ) n l.lineIndent

/-- Once the lines are counted further down, the two lexers differ in options only. -/
structure Alongside (n n' : Nat) (l l' : Lexer σ) : Prop where
  retain_eq : l'.options.retainComments = l.options.retainComments
  below_eq : l'.below n' = (l.below n).withOptions l'.options

theorem inStep_alongside (n n' : Nat) :
    InStep (σ := σ) (Alongside n n') (LexerStep.essence n) (LexerStep.essence n') := by
  intro l l' h table
  have hdown : (l.below n).next table = (l.next table).carry (.refl σ) n :=
    next_carry_lineIndent (.refl σ) n (fun _ => rfl) l table
  have hdown' : (l'.below n').next table = (l'.next table).carry (.refl σ) n' :=
    next_carry_lineIndent (.refl σ) n' (fun _ => rfl) l' table
  have hoptions := (l.below n).next_withOptions h.retain_eq table
  rw [← h.below_eq, hdown, hdown'] at hoptions
  obtain ⟨htoken, hlexer, htable, hdiags⟩ := hoptions
  have hkind := congrArg Token.kind htoken
  have hpending := congrArg Lexer.pendingIndent hlexer
  have hindent := congrArg Lexer.lineIndent hlexer
  simp only [LexerStep.carry, Diagnostic.essential_map_below] at htoken hdiags
  refine ⟨⟨h.retain_eq, hlexer⟩, hkind, htable, ?_⟩
  rw [LexerStep.essence, LexerStep.essence, htoken, hdiags]
  exact congrArg₂ (Essence.mk _ _) hpending hindent

end Steps

section Runs

variable (file : FileId) (stream : ByteStream) (options : Options) (h : 0 < options.bufferSize)
  (n : Nat) (table : IdentTable)

theorem essence_toEnd_ofStream :
    ((((ofStream file stream options h).map SoundReader.toReader).toEnd table).map
        (LexerStep.essence n)) =
      ((ofText file options stream.bytes).toEnd table).map (LexerStep.essence n) := by
  rw [← map_toText_ofStream file stream options h, toEnd_map, toEnd_map, List.map_map,
    List.map_map]
  rfl

theorem essence_call_ofStream (k : Nat) :
    (((ofStream file stream options h).map SoundReader.toReader).call table k).essence n =
      ((ofText file options stream.bytes).call table k).essence n := by
  rw [← map_toText_ofStream file stream options h, call_map, call_map]
  rfl

end Runs

theorem alongside_ofText (file : FileId) (options options' : Options)
    (hretain : options'.retainComments = options.retainComments) (input : List UInt8) :
    Alongside options'.lineOffset options.lineOffset (ofText file options input)
      (ofText file options' input) := by
  refine ⟨hretain, ?_⟩
  have hline : Position.lineBelow (wrap32 (1 + options'.lineOffset)) options.lineOffset =
      Position.lineBelow (wrap32 (1 + options.lineOffset)) options'.lineOffset := by
    rw [Position.lineBelow_wrap32, Position.lineBelow_wrap32, Nat.add_right_comm]
  simp only [below, carry, withOptions, ofText, ofSource, Cursor.carry, hline]

/-- Two runs on a stream whose options agree on whether comments are retained give the same tokens
in every field, and the same diagnostics once those that options decide about are left out. Lines
are compared after the other run's offset has been added to them in 32 bits, which is to take off
the own one from both (`Position.lineBelow_eq_iff`). After every call, the indentations that the
lexers tell agree. -/
theorem open?_essence_eq (file : FileId) (stream : ByteStream) (options options' : Options)
    (h : 0 < options.bufferSize) (h' : 0 < options'.bufferSize)
    (hretain : options'.retainComments = options.retainComments) :
    ∃ l l', open? file stream options = .ok l ∧ open? file stream options' = .ok l' ∧
      ∀ table,
        (l'.toEnd table).map (LexerStep.essence options.lineOffset) =
            (l.toEnd table).map (LexerStep.essence options'.lineOffset) ∧
          ∀ k, (l'.call table k).essence options.lineOffset =
            (l.call table k).essence options'.lineOffset := by
  refine ⟨_, _, open?_eq_ok file stream options h, open?_eq_ok file stream options' h', ?_⟩
  intro table
  have hstart := alongside_ofText file options options' hretain stream.bytes
  have hsteps := inStep_alongside (σ := Text) options'.lineOffset options.lineOffset
  constructor
  · rw [essence_toEnd_ofStream, essence_toEnd_ofStream]
    exact hsteps.toEnd_eq hstart table
  · intro k
    rw [essence_call_ofStream, essence_call_ofStream]
    exact hsteps.call_eq hstart table k

/-- A tab and a newline escape in a character, on two lines. -/
def tabbedEscape : ByteStream :=
  ⟨[.chunk 97 [9, 43, 98, 10], .interruption, .chunk 39 [92, 110, 39]], .closed⟩

/-- Tabs are fine, but newline escapes in characters and all lines with a byte are not. -/
def unusualOptions : Options :=
  { bufferSize := 2, allowTabs := true, legacyNewlineEscape := true, strongSpaces := true,
    maxLineLength := 0, lineOffset := 7 }

theorem open?_essence_eq_tabbedEscape :
    0 < 1 ∧ 0 < unusualOptions.bufferSize ∧
      unusualOptions.retainComments = (Options.withWindow {} 1).retainComments ∧
      ∃ l l', open? {} tabbedEscape (Options.withWindow {} 1) = .ok l ∧
        open? {} tabbedEscape unusualOptions = .ok l' ∧
        ∀ table,
          (l'.toEnd table).map (LexerStep.essence 0) = (l.toEnd table).map (LexerStep.essence 7) ∧
            ∀ k, (l'.call table k).essence 0 = (l.call table k).essence 7 :=
  ⟨by decide, by decide, by decide, open?_essence_eq {} tabbedEscape (Options.withWindow {} 1)
    unusualOptions (by decide) (by decide) (by decide)⟩

end Lexer
end Lexeme
