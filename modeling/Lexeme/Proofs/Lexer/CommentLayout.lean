import Lexeme.Proofs.Lexer.DocumentationLines
import Lexeme.Proofs.Lexer.LineIndent
import Lexeme.Proofs.Lexer.NumberToken

/-!
# The layout behind comments

The line behind a comment is measured twice: by the blanks, if the comment is discarded, and by the
comment itself, if it is a documentation line. Both ways lead to the same tokens. The indentation of
the first token is the same unless a comment that is discarded starts the line in between: the
blanks then look further, and the documentation line takes the spaces in front of that comment for
the indentation.
-/

set_option autoImplicit false

namespace Lexeme

/-! ## Indentation behind leading blanks -/

namespace Blank

variable {σ : Type} [LineSource σ] (options : Options)

/-- Spaces counted before do not change the indentation that is found. -/
theorem indent_scan_spaces (spaces : Nat) (c : Cursor σ) :
    ∀ spaces', (scan options spaces' c).indent = (scan options spaces c).indent := by
  have hending : ∀ (c : Cursor σ) spaces spaces',
      (run options spaces' c).ending = (run options spaces c).ending := fun c spaces spaces' =>
    (run_eq options spaces' c).2.1.trans (run_eq options spaces c).2.1.symm
  induction spaces, c using scanCases (σ := σ) options with
  | token spaces c hend =>
    intro spaces'
    rw [scan_of_token hend, scan_of_token ((hending c spaces spaces').trans hend)]
  | last spaces c hend hlast =>
    intro spaces'
    rw [scan_of_isLast hend hlast, scan_of_isLast ((hending c spaces spaces').trans hend) hlast]
  | start spaces c hend hlast hstart =>
    intro spaces'
    rw [scan_of_lineEnd hend hlast, if_pos hstart,
      scan_of_lineEnd ((hending c spaces spaces').trans hend) hlast, if_pos hstart]
  | comment spaces c hend ih =>
    intro spaces'
    have hblock : block options spaces' c = block options spaces c := by
      rw [block, (run_eq options spaces' c).1, ← (run_eq options spaces c).1, block]
    rw [scan_of_block hend, scan_of_block ((hending c spaces spaces').trans hend), hblock]
    exact ih _
  | line spaces c hend hlast hstart ih =>
    intro spaces'
    rw [scan_of_lineEnd hend hlast, if_neg (by simp [hstart]),
      scan_of_lineEnd ((hending c spaces spaces').trans hend) hlast, if_neg (by simp [hstart])]
    rfl

/-- Leading spaces may be passed first. -/
theorem indent_scan_leadingSpaces (c : Cursor σ) :
    (scan options 0 (c.advance (leadingSpaces c.rest))).indent = (scan options 0 c).indent := by
  have hrun := alike_run_leadingSpaces options c
  cases hend : (run options 0 (c.advance (leadingSpaces c.rest))).ending with
  | token => rw [scan_of_token hend, scan_of_token (hrun.ending_eq.trans hend)]
  | block =>
    rw [scan_of_block hend, scan_of_block (hrun.ending_eq.trans hend), block_leadingSpaces]
    exact indent_scan_spaces options _ _ _
  | lineEnd =>
    cases hlast : c.isLast with
    | true =>
      rw [scan_of_isLast hend hlast, scan_of_isLast (hrun.ending_eq.trans hend) hlast]
    | false =>
      have hahead : ahead options (c.advance (leadingSpaces c.rest)) = ahead options c := by
        rw [ahead, Cursor.nextLine_advance hlast, ahead]
      rw [scan_of_lineEnd hend hlast, scan_of_lineEnd (hrun.ending_eq.trans hend) hlast, hahead]
      split
      · rfl
      · rfl

/-- A scan that starts inside a line has no indentation for a token on that line; for a token on a
later one it is found from wherever the indentation of the line ends. -/
theorem indent_scan_indentation (width : Nat) (c : Cursor σ) :
    (scan options 0 c).indent =
      if Indentation.startsToken options (Indentation.scan options width c).cursor.rest then none
      else (scan options 0 (Indentation.scan options width c).cursor).indent := by
  fun_induction Indentation.scan options width c with
  | case1 width c spaces start hopen block more ih =>
    have hopener := List.isPrefixOf_iff_prefix.1 hopen.1
    have hretain : options.retainComments = false := by simpa using hopen.2
    have hend : (run options 0 start).ending = .block := by rw [run_of_opener hopener hretain]
    rw [← indent_scan_leadingSpaces]
    change (scan options 0 start).indent = _
    rw [scan_of_block hend, block_of_opener hopener hretain]
    exact (indent_scan_spaces options 0 block.cursor _).trans ih
  | case2 width c spaces start hopen =>
    rw [← indent_scan_leadingSpaces]
    change (scan options 0 start).indent = _
    split
    · rename_i hstart
      have hend : (run options 0 start).ending = .token := by
        rw [run, BlankRun.scan_of_startsToken hstart]
      rw [scan_of_token hend]
    · rfl

end Blank

/-- Where the indentation of a token is the number of spaces in front of the line at a cursor, in
32 bits, `t` being the token that blanks from the line before lead to. -/
inductive Indentation.Settled {σ : Type} [LineSource σ] (options : Options) (c : Cursor σ)
    (t : Token) : Prop
  /-- No comment starts the line. -/
  | bare (h : (c.rest.drop (leadingSpaces c.rest)).head? ≠ some Byte.hash)
  /-- Blocks start the line, with a token behind them and no spaces in between. -/
  | block (hstart : startsToken options (scan options 0 c).cursor.rest = true)
      (h : (scan options 0 c).width = wrap32 (leadingSpaces c.rest))
  /-- Nothing but comments is on the line, and the token has an indentation of its own. -/
  | later (hstart : startsToken options (scan options 0 c).cursor.rest = false)
      (hne : t.kind ≠ .eof) (h : t.indent ≠ none)
  /-- Nothing but comments is left, and no spaces are in front of them. -/
  | eof (heof : t.kind = .eof) (h : wrap32 (leadingSpaces c.rest) = 0)

/-- Two calls give the token one indentation, and the lexer tells one afterwards. -/
structure Observation.SameIndent (o o' : Observation) : Prop where
  token_eq : o.token.indent = o'.token.indent
  line_eq : o.outlook.lineIndent = o'.outlook.lineIndent

namespace Lexer

variable {σ : Type} [LineSource σ]

/-! ## Lexers that differ in what they tell -/

/-- The lexer, telling another line indentation. -/
def withLineIndent (n : Nat) (l : Lexer σ) : Lexer σ := { l with lineIndent := n }

/-- What a lexer tells of the line indentation has no part in what it reads. -/
theorem inStep_withLineIndent :
    InStep (fun l l' : Lexer σ => ∃ n, l' = l.withLineIndent n) LexerStep.token
      LexerStep.token := by
  rintro l _ ⟨n, rfl⟩ table
  exact ⟨⟨_, rfl⟩, rfl, rfl, rfl⟩

theorem sameIndent_next_iff {l l' : Lexer σ} {table : IdentTable}
    (hkind : (l.next table).token.kind = (l'.next table).token.kind) :
    (l.next table).observation.SameIndent (l'.next table).observation ↔
      ((l'.next table).token.kind ≠ .eof → l.nextIndent = l'.nextIndent) ∧
        l.nextIndent.getD l.lineIndent = l'.nextIndent.getD l'.lineIndent := by
  have htoken : (l.next table).token.indent = (l'.next table).token.indent ↔
      ((l'.next table).token.kind ≠ .eof → l.nextIndent = l'.nextIndent) := by
    rw [indent_next, indent_next, hkind]
    split
    · rename_i heof
      exact iff_of_true rfl fun hne => absurd heof hne
    · rename_i hne
      exact ⟨fun h _ => h, fun h => h hne⟩
  exact ⟨fun h => ⟨htoken.1 h.token_eq, h.line_eq⟩, fun h => ⟨htoken.2 h.1, h.2⟩⟩

/-! ## Behind one comment -/

/-- The lexer that a documentation line leaves behind when the next line is at a cursor. -/
def behindDocumentation (options : Options) (next : Cursor σ) : Lexer σ where
  options := options
  cursor := next.advance (leadingSpaces next.rest)
  pendingIndent :=
    if Comment.isVisible (next.rest.drop (leadingSpaces next.rest)) then
      some (wrap32 (leadingSpaces next.rest))
    else none

theorem next_documentationLine {l : Lexer σ} {text : List UInt8}
    (hrest : l.cursor.rest = Byte.hash :: Byte.hash :: Byte.space :: text)
    (hlast : l.cursor.isLast = false) (hpending : l.pendingIndent = none)
    (hindent : l.lineIndent = 0)
    (hmark : Comment.isDocumentation
      (l.cursor.nextLine.rest.drop (leadingSpaces l.cursor.nextLine.rest)) = false)
    (table : IdentTable) :
    (l.next table).token.kind = .comment ∧ (l.next table).table = table ∧
      (l.next table).lexer = behindDocumentation l.options l.cursor.nextLine := by
  have hstart : Indentation.startsToken l.options l.cursor.rest = true := by rw [hrest]; rfl
  have hrun : Blank.run l.options 0 l.cursor = ⟨0, 0, .token, []⟩ :=
    BlankRun.scan_of_startsToken hstart 0 0
  have hblank : l.blank = ⟨l.cursor, 0, none, []⟩ := by
    rw [blank, Blank.scan_of_token (by rw [hrun]), hrun]
    rfl
  have hread := TokenRead.scan_of_hash l.options hrest table
  have hcomment : Comment.scan l.options.maxLineLength l.cursor =
      Comment.documentationLines l.options.maxLineLength
        (wrap32 (leadingSpaces (Byte.space :: text)))
        (l.cursor.advance (2 + leadingSpaces (Byte.space :: text))) := by
    rw [Comment.scan, hrest]
    rfl
  have hlines : (Comment.scan l.options.maxLineLength l.cursor).cursor =
        l.cursor.nextLine.advance (leadingSpaces l.cursor.nextLine.rest) ∧
      (Comment.scan l.options.maxLineLength l.cursor).pendingIndent =
        (behindDocumentation l.options l.cursor.nextLine).pendingIndent := by
    rw [hcomment, Comment.documentationLines, dif_neg (by simp [hlast])]
    dsimp only
    rw [Cursor.nextLine_advance hlast, Cursor.rest_advance, if_neg (by simp [hmark])]
    exact ⟨rfl, rfl⟩
  rw [next, hblank, hread]
  refine ⟨rfl, rfl, ?_⟩
  simp only [TokenRead.ofComment, hlines, hpending, hindent]
  rfl

theorem nextIndent_behindDocumentation (options : Options) (next : Cursor σ) :
    (behindDocumentation options next).nextIndent =
      ((if Indentation.startsToken options (Indentation.scan options 0 next).cursor.rest then none
        else (Blank.scan options 0 (Indentation.scan options 0 next).cursor).indent) <|>
        (behindDocumentation options next).pendingIndent) := by
  rw [← Blank.indent_scan_indentation, ← Blank.indent_scan_leadingSpaces]
  rfl

/-- At a comment a documentation line takes the spaces in front of it for the indentation. -/
theorem pendingIndent_of_hash {options : Options} {next : Cursor σ}
    (h : (next.rest.drop (leadingSpaces next.rest)).head? = some Byte.hash) :
    (behindDocumentation options next).pendingIndent =
      some (wrap32 (leadingSpaces next.rest)) := by
  obtain ⟨rest, hrest⟩ := List.head?_eq_some_iff.1 h
  rw [behindDocumentation, hrest]
  rfl

section Behind

variable {p : Lexer σ} (hend : (Blank.run p.options 0 p.cursor).ending = .lineEnd)
  (hlast : p.cursor.isLast = false)

include hend hlast

/-- Both ways lead to the same place. -/
theorem cursor_blank_behindDocumentation :
    (behindDocumentation p.options p.cursor.nextLine).blank.cursor = p.blank.cursor := by
  have hleads := (Blank.leads_scan p.options 0
    (behindDocumentation p.options p.cursor.nextLine).cursor).of_leadingSpaces
  exact (blank_eq_of_leads (.line hend hlast hleads)).2.symm

/-- After the first call only the line indentation may differ. -/
theorem next_behindDocumentation (table : IdentTable) :
    let d := behindDocumentation p.options p.cursor.nextLine
    (d.next table).token.withoutLayout = (p.next table).token.withoutLayout ∧
      (d.next table).table = (p.next table).table ∧
      (d.next table).lexer =
        (p.next table).lexer.withLineIndent (d.next table).lexer.lineIndent := by
  have hcursor := cursor_blank_behindDocumentation hend hlast
  have hoptions : (behindDocumentation p.options p.cursor.nextLine).options = p.options := rfl
  intro d
  simp only [d, next, hoptions, hcursor]
  exact ⟨rfl, trivial, rfl⟩

/-- Blanks that a comment line starts find the indentation of the line behind it. -/
theorem nextIndent_commentLine (hpending : p.pendingIndent = none) :
    p.nextIndent =
      if Indentation.startsToken p.options (Blank.ahead p.options p.cursor).cursor.rest then
        some (Blank.ahead p.options p.cursor).width
      else (Blank.scan p.options 0 (Blank.ahead p.options p.cursor).cursor).indent := by
  rw [nextIndent_of_pendingIndent hpending, blank, Blank.scan_of_lineEnd hend hlast]
  split
  · rfl
  · rfl

/-- Where no comment starts the line, both ways give one indentation. -/
theorem nextIndent_eq_of_bare (hpending : p.pendingIndent = none)
    (h : (p.cursor.nextLine.rest.drop (leadingSpaces p.cursor.nextLine.rest)).head? ≠
      some Byte.hash) :
    (behindDocumentation p.options p.cursor.nextLine).nextIndent = p.nextIndent := by
  have hscan := Indentation.scan_of_head?_ne h p.options 0
  rw [Nat.zero_add] at hscan
  rw [nextIndent_commentLine hend hlast hpending, nextIndent_behindDocumentation, Blank.ahead,
    hscan]
  dsimp only [behindDocumentation]
  rw [Cursor.rest_advance, Indentation.startsToken_of_head?_ne h]
  split
  · rfl
  · cases (Blank.scan p.options 0
      (p.cursor.nextLine.advance (leadingSpaces p.cursor.nextLine.rest))).indent with
    | none => rfl
    | some k => rfl

/-- With a token behind blocks on the line, the indentations differ by what is between them. -/
theorem sameIndent_iff_of_startsToken (hpending : p.pendingIndent = none) (table : IdentTable)
    (hhead : (p.cursor.nextLine.rest.drop (leadingSpaces p.cursor.nextLine.rest)).head? =
      some Byte.hash)
    (hstart : Indentation.startsToken p.options
      (Indentation.scan p.options 0 p.cursor.nextLine).cursor.rest = true) :
    (((p.next table).token.kind ≠ .eof →
        (behindDocumentation p.options p.cursor.nextLine).nextIndent = p.nextIndent) ∧
      (behindDocumentation p.options p.cursor.nextLine).nextIndent.getD 0 =
        p.nextIndent.getD 0) ↔
      Indentation.Settled p.options p.cursor.nextLine (p.next table).token := by
  have hd : (behindDocumentation p.options p.cursor.nextLine).nextIndent =
      some (wrap32 (leadingSpaces p.cursor.nextLine.rest)) := by
    rw [nextIndent_behindDocumentation, pendingIndent_of_hash hhead, if_pos hstart]
    rfl
  have hp : p.nextIndent = some (Indentation.scan p.options 0 p.cursor.nextLine).width := by
    rw [nextIndent_commentLine hend hlast hpending]
    exact if_pos hstart
  have hne : (p.next table).token.kind ≠ .eof := by
    intro heof
    rw [nextIndent_of_pendingIndent hpending, indent_blank_of_eof heof] at hp
    cases hp
  rw [hd, hp]
  constructor
  · rintro ⟨h, -⟩
    exact .block hstart (Option.some.inj (h hne)).symm
  · intro hsettled
    have hwidth : (Indentation.scan p.options 0 p.cursor.nextLine).width =
        wrap32 (leadingSpaces p.cursor.nextLine.rest) := by
      cases hsettled with
      | bare h => exact absurd hhead h
      | block _ h => exact h
      | later h =>
        rw [hstart] at h
        cases h
      | eof h => exact absurd h hne
    rw [hwidth]
    exact ⟨fun _ => rfl, rfl⟩

/-- With nothing but comments on the line, only a token that is indented on a later line makes up
for it. -/
theorem sameIndent_iff_of_comments (hpending : p.pendingIndent = none) (table : IdentTable)
    (hhead : (p.cursor.nextLine.rest.drop (leadingSpaces p.cursor.nextLine.rest)).head? =
      some Byte.hash)
    (hstart : Indentation.startsToken p.options
      (Indentation.scan p.options 0 p.cursor.nextLine).cursor.rest = false) :
    (((p.next table).token.kind ≠ .eof →
        (behindDocumentation p.options p.cursor.nextLine).nextIndent = p.nextIndent) ∧
      (behindDocumentation p.options p.cursor.nextLine).nextIndent.getD 0 =
        p.nextIndent.getD 0) ↔
      Indentation.Settled p.options p.cursor.nextLine (p.next table).token := by
  have hp : p.nextIndent = (Blank.scan p.options 0
      (Indentation.scan p.options 0 p.cursor.nextLine).cursor).indent := by
    rw [nextIndent_commentLine hend hlast hpending]
    exact if_neg (by rw [Blank.ahead, hstart]; exact Bool.false_ne_true)
  have hd : (behindDocumentation p.options p.cursor.nextLine).nextIndent =
      (p.nextIndent <|> some (wrap32 (leadingSpaces p.cursor.nextLine.rest))) := by
    rw [nextIndent_behindDocumentation, pendingIndent_of_hash hhead, hstart,
      if_neg Bool.false_ne_true, hp]
  rw [hd]
  have hindent := indent_next p table
  cases hnext : p.nextIndent with
  | some k =>
    have hne : (p.next table).token.kind ≠ .eof := by
      intro heof
      rw [nextIndent_of_pendingIndent hpending, indent_blank_of_eof heof] at hnext
      cases hnext
    rw [if_neg hne, hnext] at hindent
    have hsome : (p.next table).token.indent ≠ none := by
      rw [hindent]
      exact Option.some_ne_none k
    exact iff_of_true ⟨fun _ => rfl, rfl⟩ (.later hstart hne hsome)
  | none =>
    rw [hnext] at hindent
    constructor
    · rintro ⟨h, hspaces⟩
      by_cases heof : (p.next table).token.kind = .eof
      · exact .eof heof hspaces
      · cases h heof
    · intro hsettled
      cases hsettled with
      | bare h => exact absurd hhead h
      | block h =>
        rw [hstart] at h
        cases h
      | later _ hne h =>
        rw [if_neg hne] at hindent
        exact absurd hindent h
      | eof heof h => exact ⟨fun hne => absurd heof hne, h⟩

/-- What the first call tells of the indentation is the same exactly if it is settled by the spaces
in front of the line. -/
theorem sameIndent_behindDocumentation_iff (hpending : p.pendingIndent = none)
    (hindent : p.lineIndent = 0) (table : IdentTable) :
    ((behindDocumentation p.options p.cursor.nextLine).next table).observation.SameIndent
        (p.next table).observation ↔
      Indentation.Settled p.options p.cursor.nextLine (p.next table).token := by
  have hkind := congrArg Token.kind (next_behindDocumentation hend hlast table).1
  change ((behindDocumentation p.options p.cursor.nextLine).next table).token.kind =
    (p.next table).token.kind at hkind
  rw [sameIndent_next_iff hkind, hindent]
  change _ ∧ (behindDocumentation p.options p.cursor.nextLine).nextIndent.getD 0 = _ ↔ _
  by_cases hhead : (p.cursor.nextLine.rest.drop
      (leadingSpaces p.cursor.nextLine.rest)).head? = some Byte.hash
  · cases hstart : Indentation.startsToken p.options
        (Indentation.scan p.options 0 p.cursor.nextLine).cursor.rest with
    | true => exact sameIndent_iff_of_startsToken hend hlast hpending table hhead hstart
    | false => exact sameIndent_iff_of_comments hend hlast hpending table hhead hstart
  · have heq := nextIndent_eq_of_bare hend hlast hpending hhead
    exact iff_of_true ⟨fun _ => heq, by rw [heq]⟩ (.bare hhead)

end Behind

/-! ## Runs -/

/-- What the calls of a run show. -/
def observations (l : Lexer σ) (table : IdentTable) (k : Nat) : Observation :=
  (l.call table k).observation

end Lexer

/-- What two runs show behind a comment, the first one if it is a documentation line, the second one
if it is discarded, the line behind it starting at a cursor. -/
structure CommentLayout {σ : Type} [LineSource σ] (options : Options) (next : Cursor σ)
    (d p : Nat → Observation) : Prop where
  kind_eq : (d 0).token.kind = .comment
  /-- The first token is the same but for the blanks in front. -/
  first_eq : (d 1).token.withoutLayout = (p 0).token.withoutLayout
  later_eq (k : Nat) : (d (k + 2)).token = (p (k + 1)).token
  /-- The indentations agree throughout if and only if they are settled at the first token. -/
  same_iff : (∀ k, (d (k + 1)).SameIndent (p k)) ↔ Indentation.Settled options next (p 0).token

namespace Lexer

theorem commentLayout_of_nextLine {σ : Type} [LineSource σ] {d p : Lexer σ} {text : List UInt8}
    (hoptions : d.options = p.options) (hnext : d.cursor.nextLine = p.cursor.nextLine)
    (hrest : d.cursor.rest = Byte.hash :: Byte.hash :: Byte.space :: text)
    (hlast : d.cursor.isLast = false) (hd : d.pendingIndent = none) (hd' : d.lineIndent = 0)
    (hmark : Comment.isDocumentation
      (d.cursor.nextLine.rest.drop (leadingSpaces d.cursor.nextLine.rest)) = false)
    (hend : (Blank.run p.options 0 p.cursor).ending = .lineEnd) (hlast' : p.cursor.isLast = false)
    (hp : p.pendingIndent = none) (hp' : p.lineIndent = 0) (table : IdentTable) :
    CommentLayout p.options p.cursor.nextLine (d.observations table) (p.observations table) := by
  obtain ⟨hkind, htable, hlexer⟩ := next_documentationLine hrest hlast hd hd' hmark table
  rw [hoptions, hnext] at hlexer
  have hfirst : d.call table 1 =
      (behindDocumentation p.options p.cursor.nextLine).next table := by
    rw [call_succ, htable, hlexer]
    rfl
  obtain ⟨htoken, htable', hlexer'⟩ := next_behindDocumentation hend hlast' table
  have hlater : ∀ k, d.call table (k + 2) =
      ((p.next table).lexer.withLineIndent (d.call table 1).lexer.lineIndent).call
        (p.next table).table k := by
    intro k
    rw [call_succ, htable, hlexer, call_succ, htable', hlexer', hfirst]
  have hsame := sameIndent_behindDocumentation_iff hend hlast' hp hp' table
  rw [← hfirst] at hsame
  constructor
  · exact hkind
  · change (d.call table 1).token.withoutLayout = _
    rw [hfirst]
    exact htoken
  · intro k
    change (d.call table (k + 2)).token = (p.call table (k + 1)).token
    have hstep := @inStep_withLineIndent σ _
    rw [hlater, call_succ p]
    exact hstep.call_eq ⟨_, rfl⟩ (p.next table).table k
  · constructor
    · exact fun h => hsame.1 (h 0)
    · intro hsettled k
      have h := hsame.2 hsettled
      cases k with
      | zero => exact h
      | succ k =>
        have hindent : (d.call table 1).lexer.lineIndent = (p.next table).lexer.lineIndent :=
          h.line_eq
        have hcall : d.call table (k + 2) = p.call table (k + 1) := by
          rw [hlater, hindent, call_succ p]
          rfl
        rw [observations, observations, hcall]
        exact ⟨rfl, rfl⟩

end Lexer

/-- A line that starts with a `#` and one byte more, some text on it, and more lines. -/
def Text.commentLine (mark : UInt8) (text more : List UInt8) : List UInt8 :=
  Byte.hash :: mark :: Byte.space :: text ++ Byte.lf :: more

namespace Lexer

section CommentLine

variable (file : FileId) (options : Options) {mark : UInt8} (hmark : Line.isText mark = true)
  {text : List UInt8} (htext : ∀ b ∈ text, Line.isText b = true) (more : List UInt8)

include hmark htext

theorem cursor_commentLine :
    (ofText file options (Text.commentLine mark text more)).cursor.rest =
        Byte.hash :: mark :: Byte.space :: text ∧
      (ofText file options (Text.commentLine mark text more)).cursor.isLast = false ∧
      (ofText file options (Text.commentLine mark text more)).cursor.nextLine =
        ⟨file, ⟨text.length + 4, more⟩, wrap32 (2 + options.lineOffset), 0⟩ := by
  have hline : ∀ b ∈ Byte.hash :: mark :: Byte.space :: text, Line.isText b = true :=
    List.forall_mem_cons.2 ⟨rfl, List.forall_mem_cons.2 ⟨hmark, List.forall_mem_cons.2
      ⟨rfl, htext⟩⟩⟩
  have hfirst : Line.first (Text.commentLine mark text more) =
      ⟨Byte.hash :: mark :: Byte.space :: text, .lf⟩ := Line.first_append_cons hline rfl
  have hafter : Line.afterText (Text.commentLine mark text more) = Byte.lf :: more :=
    Line.afterText_append_cons hline rfl
  have hcursor : (ofText file options (Text.commentLine mark text more)).cursor =
      ⟨file, ⟨0, Text.commentLine mark text more⟩, wrap32 (1 + options.lineOffset), 0⟩ :=
    cursor_ofText file options (by rintro ⟨rest, hrest⟩; cases hrest)
  have hlast : (ofText file options (Text.commentLine mark text more)).cursor.isLast = false := by
    rw [hcursor]
    change ((Line.first (Text.commentLine mark text more)).ending == LineEnd.eof) = false
    rw [hfirst]
    rfl
  refine ⟨?_, hlast, ?_⟩
  · rw [hcursor]
    change (Line.first (Text.commentLine mark text more)).bytes.drop 0 = _
    rw [hfirst]
    rfl
  · have hterminator : Text.terminatorLength (Byte.lf :: more) = 1 := by
      rw [Text.terminatorLength_cons]
      exact if_neg fun h => absurd h.1 (by decide)
    have hsource : Text.nextLine ⟨0, Text.commentLine mark text more⟩ =
        ⟨text.length + 4, more⟩ := by
      rw [Text.nextLine, hfirst, hafter, hterminator, Nat.zero_add]
      exact congrArg (Text.mk (text.length + 4)) (List.drop_length_add_append 1)
    rw [Cursor.nextLine, hlast, if_neg Bool.false_ne_true, hcursor]
    change Cursor.mk file (Text.nextLine _) _ _ = _
    rw [hsource, wrap32_wrap32_add, Nat.add_right_comm]

end CommentLine

theorem commentLayout_ofText (file : FileId) {options : Options}
    (hretain : options.retainComments = false) {text more : List UInt8}
    (htext : ∀ b ∈ text, Line.isText b = true) (hmore : ¬Text.Marked more 0) (table : IdentTable) :
    CommentLayout options
      (⟨file, ⟨text.length + 4, more⟩, wrap32 (2 + options.lineOffset), 0⟩ : Cursor Text)
      ((ofText file options (Text.commentLine Byte.hash text more)).observations table)
      ((ofText file options (Text.commentLine Byte.space text more)).observations table) := by
  obtain ⟨hrest, hlast, hnext⟩ :=
    cursor_commentLine file options (show Line.isText Byte.hash = true from rfl) htext more
  obtain ⟨hrest', hlast', hnext'⟩ :=
    cursor_commentLine file options (show Line.isText Byte.space = true from rfl) htext more
  have hwithin : (⟨file, ⟨0, more⟩, 0, 0⟩ : Cursor Text).Within more :=
    ⟨rfl, Nat.zero_le _, Nat.zero_le _⟩
  have hunmarked : Comment.isDocumentation ((Line.first more).bytes.drop
      (leadingSpaces (Line.first more).bytes)) = false := by
    rw [Bool.eq_false_iff]
    intro hmark
    refine hmore (hwithin.marked_iff.2 ?_)
    rw [Cursor.rest_advance]
    exact hmark
  have hend : (Blank.run options 0
      (ofText file options (Text.commentLine Byte.space text more)).cursor).ending = .lineEnd := by
    have hhash : BlankRun.endingAtHash options.retainComments
        (Byte.space :: Byte.space :: text) = .lineEnd := by
      rw [hretain]
      rfl
    rw [Blank.run, hrest', BlankRun.scan, if_neg (by decide), if_neg (by decide),
      if_pos (by decide), hhash]
  have hlayout := commentLayout_of_nextLine
    (d := ofText file options (Text.commentLine Byte.hash text more))
    (p := ofText file options (Text.commentLine Byte.space text more)) rfl
    (hnext.trans hnext'.symm) hrest hlast rfl rfl (by rw [hnext]; exact hunmarked) hend hlast' rfl
    rfl table
  rw [hnext'] at hlayout
  exact hlayout

theorem observations_ofStream (file : FileId) (stream : ByteStream) (options : Options)
    (h : 0 < options.bufferSize) (table : IdentTable) :
    ((ofStream file stream options h).map SoundReader.toReader).observations table =
      (ofText file options stream.bytes).observations table :=
  funext fun k => observation_ofStream file stream options h table k

/-- A documentation line and a plain comment in its place, comments not being retained, with lines
behind them of which the first one has no documentation mark. Behind the comment the same tokens are
read. Their indentations and those that the lexer tells are the same too if the spaces in front of
the next line settle the indentation of the first token, and only then. -/
theorem open?_commentLayout (file : FileId) (s t : ByteStream) (options : Options)
    (h : 0 < options.bufferSize) (hretain : options.retainComments = false)
    {text more : List UInt8} (htext : ∀ b ∈ text, Line.isText b = true)
    (hmore : ¬Text.Marked more 0) (hs : s.bytes = Text.commentLine Byte.hash text more)
    (ht : t.bytes = Text.commentLine Byte.space text more) :
    ∃ d p, open? file s options = .ok d ∧ open? file t options = .ok p ∧ ∀ table,
      CommentLayout options
        (⟨file, ⟨text.length + 4, more⟩, wrap32 (2 + options.lineOffset), 0⟩ : Cursor Text)
        (d.observations table) (p.observations table) := by
  refine ⟨_, _, open?_eq_ok file s options h, open?_eq_ok file t options h, fun table => ?_⟩
  rw [observations_ofStream, observations_ofStream, hs, ht]
  exact commentLayout_ofText file hretain htext hmore table

/-- A blank line, and one that is indented behind a discarded block. -/
def blockedLines : List UInt8 := [13, 10, 32, 35, 91, 10, 93, 35, 32, 98, 10, 99]

theorem open?_commentLayout_blockedLines :
    0 < 1 ∧ ({ bufferSize := 1 } : Options).retainComments = false ∧
      (∀ b ∈ ([97, 32] : List UInt8), Line.isText b = true) ∧ ¬Text.Marked blockedLines 0 ∧
      ∃ d p, open? {} (.ofBytes (Text.commentLine Byte.hash [97, 32] blockedLines))
          { bufferSize := 1 } = .ok d ∧
        open? {} (.ofBytes (Text.commentLine Byte.space [97, 32] blockedLines))
          { bufferSize := 1 } = .ok p ∧
        ∀ table k, (d.observations table (k + 1)).SameIndent (p.observations table k) := by
  have htext : ∀ b ∈ ([97, 32] : List UInt8), Line.isText b = true :=
    List.all_eq_true.1 (by decide)
  have hmore : ¬Text.Marked blockedLines 0 := by decide
  obtain ⟨d, p, hd, hp, hlayout⟩ := open?_commentLayout {}
    (.ofBytes (Text.commentLine Byte.hash [97, 32] blockedLines))
    (.ofBytes (Text.commentLine Byte.space [97, 32] blockedLines)) { bufferSize := 1 } (by decide)
    rfl htext hmore (by decide) (by decide)
  refine ⟨by decide, rfl, htext, hmore, d, p, hd, hp, fun table => ?_⟩
  refine (hlayout table).same_iff.2 (.bare ?_)
  decide

/-- A line with nothing but a discarded comment, two spaces in. -/
def indentedComment : List UInt8 := [32, 32, 35, 32, 98, 10]

/-- Behind a documentation line, and there only, such a line sets the line indentation. -/
theorem open?_indentedComment :
    (∀ b ∈ ([97] : List UInt8), Line.isText b = true) ∧ ¬Text.Marked indentedComment 0 ∧
      ∃ d p,
        open? {} (.ofBytes (Text.commentLine Byte.hash [97] indentedComment)) {} = .ok d ∧
        open? {} (.ofBytes (Text.commentLine Byte.space [97] indentedComment)) {} = .ok p ∧
        (d.observations .fresh 1).outlook.lineIndent = 2 ∧
        (p.observations .fresh 0).outlook.lineIndent = 0 := by
  refine ⟨List.all_eq_true.1 (by decide), by decide, _, _, open?_eq_ok _ _ _ (by decide),
    open?_eq_ok _ _ _ (by decide), ?_, ?_⟩
  · rw [observations_ofStream]
    decide +kernel
  · rw [observations_ofStream]
    decide +kernel

end Lexer
end Lexeme
