import Lexeme.Proofs.Source.Followed
import Lexeme.Proofs.Literal.LineStop
import Lexeme.Proofs.Lexer.Naming
import Lexeme.Proofs.Lexer.WholeRun
import Lexeme.Proofs.Lexer.DiagnosticPlaces

/-!
# Lines are read on their own

Where there are neither comments nor strings in triple quotes, nothing goes over the end of a line:
whatever is left open on it is closed there. So a text with more lines behind it is read as the
text alone, and then as the lines behind it alone, further down.
-/

set_option autoImplicit false

namespace Lexeme

/-- Bytes in which every token ends on its line, and the last line can be ended by a line feed. -/
structure Text.Plain (input : List UInt8) : Prop where
  noHash : Byte.hash ∉ input
  noTriple : ¬[Byte.quote, Byte.quote, Byte.quote] <:+: input
  endsOpen : EndsOpen input

/-! ## Blanks -/

namespace Blank

def followedBy (more : List UInt8) (b : Blank Text) : Blank Text :=
  { b with cursor := b.cursor.followedBy more }

section Followed

variable {input : List UInt8} (hplain : Text.Plain input) {options : Options} {c : Cursor Text}
  (more : List UInt8)

theorem run_followedBy (spaces : Nat) :
    run options spaces (c.followedBy more) = run options spaces c := by
  rw [run, Cursor.rest_followedBy, run]

include hplain

theorem ahead_followedBy (options : Options) (h : c.Within input) (hlast : c.isLast = false) :
    (ahead options c).cursor.Within input ∧
      ahead options (c.followedBy more) =
        { ahead options c with cursor := (ahead options c).cursor.followedBy more } := by
  have hnext := (Cursor.reaches_nextLine h).within
  have hhash : Byte.hash ∉ c.nextLine.rest := fun hmem => hplain.noHash (hnext.mem_of_mem_rest hmem)
  have hhash' : Byte.hash ∉ (c.nextLine.followedBy more).rest := by
    rwa [Cursor.rest_followedBy]
  refine ⟨((Indentation.route_scan options 0 _).reaches hnext).within, ?_⟩
  rw [ahead, Cursor.nextLine_followedBy more hplain.endsOpen h hlast,
    Indentation.scan_of_not_mem hhash', ahead, Indentation.scan_of_not_mem hhash,
    Cursor.rest_followedBy]
  rfl

/-- In front of a token of the text, the blanks are the same with more lines behind: they do not
meet the last line, which has no token behind it. -/
theorem scan_followedBy (h : c.Within input) {spaces : Nat}
    (hrest : (scan options spaces c).cursor.rest ≠ []) :
    scan options spaces (c.followedBy more) = (scan options spaces c).followedBy more := by
  induction spaces, c using scanCases (σ := Text) options with
  | token spaces c hend =>
    rw [scan_of_token hend, scan_of_token (by rwa [run_followedBy]), run_followedBy]
    rfl
  | last spaces c hend hlast =>
    have hstop := stopsAt_run options spaces c
    rw [hend] at hstop
    rw [scan_of_isLast hend hlast] at hrest
    exact absurd hstop hrest
  | start spaces c hend hlast hstart =>
    obtain ⟨-, hahead⟩ := ahead_followedBy hplain more options h hlast
    rw [scan_of_lineEnd hend hlast, if_pos hstart,
      scan_of_lineEnd (by rwa [run_followedBy]) (c.isLast_followedBy more), run_followedBy, hahead,
      Cursor.lengthHint_followedBy]
    simp only [Cursor.rest_followedBy]
    rw [if_pos hstart]
    rfl
  | comment spaces c hend ih => exact absurd hend (ending_run_ne_block hplain.noHash h spaces)
  | line spaces c hend hlast hstart ih =>
    obtain ⟨hwithin, hahead⟩ := ahead_followedBy hplain more options h hlast
    rw [scan_of_lineEnd hend hlast, if_neg (by simp [hstart])] at hrest
    rw [scan_of_lineEnd hend hlast, if_neg (by simp [hstart]),
      scan_of_lineEnd (by rwa [run_followedBy]) (c.isLast_followedBy more), run_followedBy, hahead,
      Cursor.lengthHint_followedBy]
    simp only [Cursor.rest_followedBy]
    rw [if_neg (by simp [hstart]), ih hwithin hrest]
    rfl

/-- Behind the text, the blanks go on over the line feed. -/
theorem Leads.followedBy {d : Cursor Text} {ds : List Diagnostic} (hleads : Leads options c ds d)
    (h : c.Within input) (hrest : d.rest = []) {e : Cursor Text} {ds' : List Diagnostic}
    (hmore : Leads options (d.followedBy more).nextLine ds' e) :
    Leads options (c.followedBy more) (ds ++ d.lengthHint options.maxLineLength ++ ds') e := by
  induction hleads with
  | @token c hend =>
    have hstop := stopsAt_run options 0 c
    rw [hend] at hstop
    exact absurd hrest hstop
  | @last c hend hlast =>
    have hnext : ((c.advance (run options 0 c).length).followedBy more).nextLine =
        (c.followedBy more).nextLine :=
      Cursor.nextLine_advance (c.isLast_followedBy more) _
    have hhint := Cursor.lengthHint_advance (length_run_le options 0 c) options.maxLineLength
    rw [hnext] at hmore
    have hline := Leads.line (by rwa [run_followedBy]) (c.isLast_followedBy more) hmore
    rw [run_followedBy, Cursor.lengthHint_followedBy, ← hhint] at hline
    exact hline
  | @block c d ds hend _ ih => exact absurd hend (ending_run_ne_block hplain.noHash h 0)
  | @line c d ds hend hlast _ ih =>
    have hnext := Cursor.nextLine_followedBy more hplain.endsOpen h hlast
    have hrest' := ih (Cursor.reaches_nextLine h).within hrest hmore
    rw [← hnext] at hrest'
    have hline := Leads.line (by rwa [run_followedBy]) (c.isLast_followedBy more) hrest'
    rw [run_followedBy, Cursor.lengthHint_followedBy] at hline
    simp only [List.append_assoc] at hline ⊢
    exact hline

end Followed
end Blank

/-! ## Tokens -/

namespace Diagnostic

def bare (d : Diagnostic) : Diagnostic := { d with message := d.message.bare }

/-- The errors and warnings, without the arguments of their messages. -/
def complaints (ds : List Diagnostic) : List Diagnostic :=
  (ds.filter fun d => d.severity != .hint).map bare

theorem complaints_append (ds ds' : List Diagnostic) :
    complaints (ds ++ ds') = complaints ds ++ complaints ds' := by
  rw [complaints, List.filter_append, List.map_append]
  rfl

theorem complaints_of_bare_eq {ds ds' : List Diagnostic} (h : ds.map bare = ds'.map bare) :
    complaints ds = complaints ds' := by
  have hfilter : ∀ ds, complaints ds = (ds.map bare).filter fun d => d.severity != .hint := by
    intro ds
    rw [List.filter_map, complaints]
    congr 2
    funext d
    exact congrArg (· != Severity.hint) d.message.severity_bare.symm
  rw [hfilter, hfilter, h]

theorem complaints_below (n : Nat) (ds : List Diagnostic) :
    complaints (ds.map (below n)) = (complaints ds).map (below n) := by
  rw [complaints, complaints, List.filter_map, List.map_map, List.map_map]
  rfl

theorem complaints_lengthHint {σ : Type} [LineSource σ] (c : Cursor σ) (limit : Nat) :
    complaints (c.lengthHint limit) = [] := by
  rw [Cursor.lengthHint]
  split
  · rfl
  · rfl

end Diagnostic

/-- The token `n` lines further down, lines being counted in 32 bits. -/
def Token.below (n : Nat) (t : Token) : Token := { t with line := Position.lineBelow t.line n }

/-- Findings that are the same but for the arguments of messages give such diagnostics. -/
theorem Cursor.map_bare_locate {σ : Type} (c : Cursor σ) {fs fs' : List Finding}
    (h : bareFindings fs = bareFindings fs') :
    (fs.map c.locate).map Diagnostic.bare = (fs'.map c.locate).map Diagnostic.bare := by
  have hlocate : ∀ fs : List Finding,
      (fs.map c.locate).map Diagnostic.bare = (bareFindings fs).map c.locate := by
    intro fs
    rw [bareFindings, List.map_map, List.map_map]
    rfl
  rw [hlocate, hlocate, h]

namespace TokenRead

/-- The two reads differ in what stands behind the text, and in the arguments of messages. -/
structure Followed (more : List UInt8) (read read' : TokenRead Text) : Prop where
  token_eq : read'.token = read.token
  table_eq : read'.table = read.table
  cursor_eq : read'.cursor = read.cursor.followedBy more
  pendingIndent_eq : read'.pendingIndent = read.pendingIndent
  bare_eq : read'.diagnostics.map Diagnostic.bare = read.diagnostics.map Diagnostic.bare

theorem followed_ofPiece {p p' : Piece} (h : p'.bare = p.bare) (c : Cursor Text)
    (table : IdentTable) (more : List UInt8) :
    Followed more (ofPiece p c table) (ofPiece p' (c.followedBy more) table) := by
  obtain ⟨htoken, hlength, hfindings⟩ := Piece.of_bare_eq h table
  constructor
  · exact congrArg Prod.fst htoken
  · exact congrArg Prod.snd htoken
  · exact congrArg (c.followedBy more).advance hlength
  · rfl
  · exact c.map_bare_locate hfindings

/-- A token of the text is the same with more lines behind: the bytes of its line stay, and only
what ends the line may be another byte. -/
theorem followed_scan {input : List UInt8} (hplain : Text.Plain input) (options : Options)
    {c : Cursor Text} (h : c.Within input) (hrest : c.rest ≠ []) (table : IdentTable)
    (more : List UInt8) :
    Followed more (scan options c table) (scan options (c.followedBy more) table) := by
  have hctx : context options (c.followedBy more) =
      (context options c).withStop (c.followedBy more).ending.byte := rfl
  cases way c with
  | nil hnil => exact absurd hnil hrest
  | comment rest hhash =>
    have hmem := h.mem_of_mem_rest (hhash ▸ List.mem_cons_self)
    exact absurd hmem hplain.noHash
  | triple o ho ht =>
    rw [h.isTriple_eq_false hplain.noTriple] at ht
    cases ht
  | string o ho ht =>
    rw [scan_of_string options ho ht, scan_of_string options (o := o)
      (by rwa [Cursor.before?_followedBy, Cursor.rest_followedBy])
      (by rwa [Cursor.rest_followedBy]), Cursor.rest_followedBy, hctx]
    exact followed_ofPiece (Piece.bare_ofString _ _ _ _) c table more
  | bytes b rest hbytes hb ho =>
    rw [scan_of_bytes options hbytes hb ho, scan_of_bytes options
      (by rw [Cursor.rest_followedBy, hbytes]) hb
      (by rwa [Cursor.before?_followedBy, Cursor.rest_followedBy]), hctx]
    exact followed_ofPiece (Piece.bare_ofBytes _ _ _ _) c table more

end TokenRead

namespace Lexer

def followedBy (more : List UInt8) (l : Lexer Text) : Lexer Text :=
  { l with cursor := l.cursor.followedBy more }

section Followed

variable {input : List UInt8} {l : Lexer Text} {table : IdentTable}

theorem next_followedBy (hplain : Text.Plain input) (h : l.cursor.Within input)
    (hne : (l.next table).token.kind ≠ .eof) (more : List UInt8) :
    ((l.followedBy more).next table).token = (l.next table).token ∧
      ((l.followedBy more).next table).table = (l.next table).table ∧
      ((l.followedBy more).next table).lexer = (l.next table).lexer.followedBy more ∧
      ((l.followedBy more).next table).diagnostics.map Diagnostic.bare =
        (l.next table).diagnostics.map Diagnostic.bare := by
  have hrest : l.blank.cursor.rest ≠ [] := fun hnil => hne ((kind_next_eq_eof_iff l table).2 hnil)
  have hblank : (l.followedBy more).blank = l.blank.followedBy more :=
    Blank.scan_followedBy hplain more h hrest
  obtain ⟨htoken, htable, hcursor, hpending, hbare⟩ :=
    TokenRead.followed_scan hplain l.options (passes_blank h).within hrest table more
  have hoptions : (l.followedBy more).options = l.options := rfl
  simp only [next, hblank, hoptions]
  simp only [Blank.followedBy, htoken, htable, hcursor, hpending, List.map_append, hbare]
  exact ⟨rfl, trivial, rfl, trivial⟩

end Followed

/-! ## Further down -/

/-- The run goes on as another one started, `n` lines further down: with its tokens, up to the
layout of the first one and the numbers of identifiers. -/
def Resumes (n : Nat) (tokens later : List Token) : Prop :=
  (later.map Token.unnumbered).modifyHead Token.withoutLayout =
    ((tokens.map (Token.below n)).map Token.unnumbered).modifyHead Token.withoutLayout

section Carry

variable {σ τ : Type} [LineSource σ] [LineSource τ] (f : LineSource.Likeness σ τ) (n : Nat)

/-- The lexer at the same place of the other source, `n` lines further down. -/
def carry (lineIndent : Nat) (l : Lexer σ) : Lexer τ :=
  ⟨l.options, l.cursor.carry f n, l.pendingIndent, lineIndent⟩

variable (hf : ∀ s, (LineSource.line (f.toFun s)).ending = (LineSource.line s).ending)
include hf

theorem next_carry (lineIndent : Nat) (l : Lexer σ) (table : IdentTable) :
    ((l.carry f n lineIndent).next table).token = (l.next table).token.below n ∧
      (∃ k, ((l.carry f n lineIndent).next table).lexer = (l.next table).lexer.carry f n k) ∧
      ((l.carry f n lineIndent).next table).diagnostics =
        (l.next table).diagnostics.map (Diagnostic.below n) := by
  have hblank : (l.carry f n lineIndent).blank = l.blank.carry f n :=
    Blank.scan_carry f n l.options 0 l.cursor
  have hread := TokenRead.scan_carry f n l.options (hf l.blank.cursor.source) table
  have hoptions : (l.carry f n lineIndent).options = l.options := rfl
  simp only [next, hblank, hoptions]
  simp only [Blank.carry, hread, TokenRead.carry, List.map_append]
  exact ⟨rfl, ⟨_, rfl⟩, trivial⟩

theorem next_carry_of_sound {table table' : IdentTable} (h : table.Sound) (h' : table'.Sound)
    (lineIndent : Nat) (l : Lexer σ) :
    ((l.carry f n lineIndent).next table').token.unnumbered =
        ((l.next table).token.below n).unnumbered ∧
      (∃ k, ((l.carry f n lineIndent).next table').lexer = (l.next table).lexer.carry f n k) ∧
      ((l.carry f n lineIndent).next table').diagnostics =
        (l.next table).diagnostics.map (Diagnostic.below n) := by
  obtain ⟨htoken, ⟨k, hlexer⟩, hdiags⟩ := next_carry f n hf lineIndent l table'
  obtain ⟨hunnumbered, hlexer', hdiags'⟩ := l.next_of_sound h h'
  refine ⟨?_, ⟨k, by rw [hlexer, hlexer']⟩, by rw [hdiags, hdiags']⟩
  rw [htoken]
  exact congrArg (Token.below n) hunnumbered

/-- Further down, a run reads the same tokens and reports the same, up to the numbers of
identifiers. -/
theorem tokens_carry {l : Lexer σ} {table table' : IdentTable} (h : table.Sound)
    (h' : table'.Sound) (lineIndent : Nat) :
    ((l.carry f n lineIndent).tokens table').map Token.unnumbered =
        ((l.tokens table).map (Token.below n)).map Token.unnumbered ∧
      (l.carry f n lineIndent).diagnostics table' =
        (l.diagnostics table).map (Diagnostic.below n) := by
  induction l, table using runCases generalizing table' lineIndent with
  | eof l table heof =>
    obtain ⟨htoken, -, hdiags⟩ := next_carry_of_sound f n hf h h' lineIndent l
    have heof' : ((l.carry f n lineIndent).next table').token.kind = .eof :=
      (congrArg Token.kind htoken).trans heof
    rw [tokens_of_eof heof, tokens_of_eof heof', diagnostics_of_eof heof, diagnostics_of_eof heof',
      hdiags]
    simp only [List.map_cons, List.map_nil, htoken, and_self]
  | token l table hne ih =>
    obtain ⟨htoken, ⟨k, hlexer⟩, hdiags⟩ := next_carry_of_sound f n hf h h' lineIndent l
    have hne' : ((l.carry f n lineIndent).next table').token.kind ≠ .eof := by
      intro heof
      exact hne ((congrArg Token.kind htoken).symm.trans heof)
    obtain ⟨htokens, hrest⟩ :=
      ih (l.enters_next h).sound ((l.carry f n lineIndent).enters_next h').sound k
    rw [tokens_of_ne_eof hne, tokens_of_ne_eof hne', diagnostics_of_ne_eof hne,
      diagnostics_of_ne_eof hne', hlexer, hdiags, hrest, List.map_append]
    simp only [List.map_cons, htoken, htokens, and_self]

/-- Blanks that lead to where another run reads its first token make for the same step, up to
the layout. -/
theorem next_of_leads {l : Lexer τ} {b : Lexer σ} {ds : List Diagnostic}
    {table table' : IdentTable} (hoptions : l.options = b.options)
    (hleads : Blank.Leads l.options l.cursor (ds ++ b.blank.diagnostics.map (Diagnostic.below n))
      (b.blank.cursor.carry f n)) (h : table.Sound) (h' : table'.Sound) :
    (l.next table').token.unnumbered.withoutLayout =
        ((b.next table).token.below n).unnumbered.withoutLayout ∧
      (∃ k, (l.next table').lexer = (b.next table).lexer.carry f n k) ∧
      (l.next table').diagnostics =
        ds ++ (b.next table).diagnostics.map (Diagnostic.below n) := by
  obtain ⟨hdiags, hcursor⟩ := blank_eq_of_leads hleads
  have hread := TokenRead.scan_carry f n b.options (hf b.blank.cursor.source) table'
  obtain ⟨hunnumbered, hlexer, hreported⟩ := b.next_of_sound h h'
  refine ⟨?_, ?_, ?_⟩
  · have hsame : (l.next table').token.unnumbered.withoutLayout =
        ((b.next table').token.below n).unnumbered.withoutLayout := by
      rw [next, hcursor, hoptions, hread]
      rfl
    exact hsame.trans (congrArg (fun t => (Token.below n t).withoutLayout) hunnumbered)
  · rw [← hlexer, next, hcursor, hoptions, hread]
    exact ⟨_, rfl⟩
  · rw [← hreported, next, hcursor, hoptions, hread, hdiags, List.append_assoc, next,
      List.map_append]
    rfl

/-- From there on, the run is that of the other lexer further down. -/
theorem resumes_of_leads {l : Lexer τ} {b : Lexer σ} {ds : List Diagnostic}
    {table table' : IdentTable} (hoptions : l.options = b.options)
    (hleads : Blank.Leads l.options l.cursor (ds ++ b.blank.diagnostics.map (Diagnostic.below n))
      (b.blank.cursor.carry f n)) (h : table.Sound) (h' : table'.Sound) :
    Resumes n (b.tokens table) (l.tokens table') ∧
      l.diagnostics table' = ds ++ (b.diagnostics table).map (Diagnostic.below n) := by
  obtain ⟨htoken, ⟨k, hlexer⟩, hdiags⟩ := next_of_leads f n hf hoptions hleads h h'
  have hkind := congrArg Token.kind htoken
  by_cases heof : (b.next table).token.kind = .eof
  · have heof' : (l.next table').token.kind = .eof := hkind.trans heof
    rw [Resumes, tokens_of_eof heof, tokens_of_eof heof', diagnostics_of_eof heof,
      diagnostics_of_eof heof', hdiags]
    simp only [List.map_cons, List.map_nil, List.modifyHead_cons, htoken, and_self]
  · have hne' : (l.next table').token.kind ≠ .eof :=
      fun heof' => heof (hkind.symm.trans heof')
    obtain ⟨htokens, hrest⟩ := tokens_carry f n hf (l := (b.next table).lexer)
      (b.enters_next h).sound (l.enters_next h').sound k
    rw [Resumes, tokens_of_ne_eof heof, tokens_of_ne_eof hne', diagnostics_of_ne_eof heof,
      diagnostics_of_ne_eof hne', hdiags, hlexer, hrest, List.map_append, List.append_assoc]
    simp only [List.map_cons, List.modifyHead_cons, htoken, htokens, and_self]

end Carry

/-! ## Whole texts -/

/-- `whole` reads what `front` reads before the end of its input, and goes on as `back` starts,
`n` lines further down. Errors and warnings are compared without the arguments of messages. -/
structure RunsOn {σ : Type} [LineSource σ] (n : Nat) (front back whole : Lexer σ)
    (table : IdentTable) : Prop where
  tokens_eq : ∃ later,
    whole.tokens table = (front.tokens table).filter (fun t => t.kind != .eof) ++ later ∧
      Resumes n (back.tokens IdentTable.fresh) later
  complaints_eq : Diagnostic.complaints (whole.diagnostics table) =
    Diagnostic.complaints (front.diagnostics table) ++
      (Diagnostic.complaints (back.diagnostics IdentTable.fresh)).map (Diagnostic.below n)

/-- What a run reads and reports can be counted `n` lines further down. -/
structure CountsBelow {σ : Type} [LineSource σ] (n : Nat) (l : Lexer σ) (table : IdentTable) :
    Prop where
  token_eq : ∀ t ∈ l.tokens table, (t.below n).line = t.line + n
  diagnostic_eq : ∀ d ∈ l.diagnostics table, (d.below n).position.line = d.position.line + n

section Whole

variable {input : List UInt8} {l b : Lexer Text} {first : Nat} {table : IdentTable}

/-- A run tells no line behind the last one. -/
theorem line_run_le (h : l.cursor.Located input first) (table : IdentTable) :
    (∀ t ∈ l.tokens table, t.line ≤ first + Text.breaks input) ∧
      ∀ d ∈ l.diagnostics table, d.position.line ≤ first + Text.breaks input := by
  induction l, table using runCases with
  | eof l table heof =>
    obtain ⟨htoken, hdiags⟩ := line_next_le h table
    rw [tokens_of_eof heof, diagnostics_of_eof heof]
    exact ⟨List.forall_mem_singleton.2 htoken, hdiags⟩
  | token l table hne ih =>
    obtain ⟨htoken, hdiags⟩ := line_next_le h table
    obtain ⟨htokens, hrest⟩ := ih (((route_blank l).trans (route_token l table)).located h)
    rw [tokens_of_ne_eof hne, diagnostics_of_ne_eof hne]
    exact ⟨List.forall_mem_cons.2 ⟨htoken, htokens⟩, List.forall_mem_append.2 ⟨hdiags, hrest⟩⟩

/-- If the last line can be counted `n` lines further down, they all can. -/
theorem countsBelow_of_located {n : Nat} (h : l.cursor.Located input first)
    (hlines : first + Text.breaks input + n < pow2 32) : l.CountsBelow n table := by
  obtain ⟨htokens, hdiags⟩ := line_run_le h table
  constructor
  · intro t ht
    have hline := Nat.add_le_add_right (htokens t ht) n
    exact Position.lineBelow_of_lt (Nat.lt_of_le_of_lt hline hlines)
  · intro d hd
    have hline := Nat.add_le_add_right (hdiags d hd) n
    exact Position.lineBelow_of_lt (Nat.lt_of_le_of_lt hline hlines)

/-- At the end of the text, the blanks of the lines put behind it come next. -/
theorem leads_followedBy (hplain : Text.Plain input) (h : l.cursor.Located input first)
    (heof : (l.next table).token.kind = .eof) (more : List UInt8) (hoptions : b.options = l.options)
    (hb : b.cursor = ⟨l.cursor.file, ⟨0, more⟩, wrap32 first, 0⟩) :
    Blank.Leads l.options (l.followedBy more).cursor
      (l.blank.diagnostics ++ l.blank.cursor.lengthHint l.options.maxLineLength ++
        b.blank.diagnostics.map (Diagnostic.below (Text.breaks (input ++ [Byte.lf]))))
      (b.blank.cursor.carry (Text.moved (input.length + 1))
        (Text.breaks (input ++ [Byte.lf]))) := by
  have hrest := (kind_next_eq_eof_iff l table).1 heof
  have hlast := Blank.isLast_of_rest_eq_nil l.options 0 l.cursor hrest
  have hnext := Cursor.nextLine_followedBy_of_isLast more hplain.endsOpen
    ((route_blank l).located h) hlast
  have hcarry : (l.blank.cursor.followedBy more).nextLine =
      b.cursor.carry (Text.moved (input.length + 1)) (Text.breaks (input ++ [Byte.lf])) := by
    rw [hb, hnext, (route_blank l).file_eq, ← Position.lineBelow_wrap32]
    rfl
  have hback := Blank.leads_scan b.options 0
    (b.cursor.carry (Text.moved (input.length + 1)) (Text.breaks (input ++ [Byte.lf])))
  rw [Blank.scan_carry, ← hcarry, hoptions] at hback
  have hfront := Blank.leads_scan l.options 0 l.cursor
  have hblank : b.blank = Blank.scan l.options 0 b.cursor := by rw [blank, hoptions]
  rw [hblank]
  exact hfront.followedBy hplain more h.within hrest hback

/-- Put behind a text, lines are read as on their own. -/
theorem runsOn_followedBy (hplain : Text.Plain input) (h : l.cursor.Located input first)
    (htable : table.Sound) (more : List UInt8) (hoptions : b.options = l.options)
    (hb : b.cursor = ⟨l.cursor.file, ⟨0, more⟩, wrap32 first, 0⟩) :
    RunsOn (Text.breaks (input ++ [Byte.lf])) l b (l.followedBy more) table := by
  induction l, table using runCases with
  | eof l table heof =>
    have hleads := leads_followedBy hplain h heof more hoptions hb
    obtain ⟨hresumes, hdiags⟩ := resumes_of_leads _ _ (fun _ => rfl) (l := l.followedBy more)
      hoptions.symm hleads IdentTable.sound_fresh htable
    have hreported : (l.next table).diagnostics = l.blank.diagnostics := by
      rw [next, TokenRead.scan_of_nil l.options ((kind_next_eq_eof_iff l table).1 heof)]
      exact List.append_nil _
    refine ⟨⟨_, ?_, hresumes⟩, ?_⟩
    · rw [tokens_of_eof heof, List.filter_cons_of_neg (by simp [heof])]
      rfl
    · rw [hdiags, diagnostics_of_eof heof, hreported]
      simp only [Diagnostic.complaints_append, Diagnostic.complaints_lengthHint,
        Diagnostic.complaints_below, List.append_nil]
  | token l table hne ih =>
    obtain ⟨htoken, htable', hlexer, hbare⟩ := next_followedBy hplain h.within hne more
    have hne' : ((l.followedBy more).next table).token.kind ≠ .eof := by rwa [htoken]
    have hroute := (route_blank l).trans (route_token l table)
    obtain ⟨⟨later, htokens, hresumes⟩, hcomplaints⟩ :=
      ih (hroute.located h) (l.enters_next htable).sound hoptions (hroute.file_eq ▸ hb)
    refine ⟨⟨later, ?_, hresumes⟩, ?_⟩
    · rw [tokens_of_ne_eof hne, tokens_of_ne_eof hne', List.filter_cons_of_pos (by simp [hne]),
        htoken, htable', hlexer, htokens, List.cons_append]
    · rw [diagnostics_of_ne_eof hne, diagnostics_of_ne_eof hne', htable', hlexer,
        Diagnostic.complaints_append, Diagnostic.complaints_append, hcomplaints,
        Diagnostic.complaints_of_bare_eq hbare, List.append_assoc]

end Whole

theorem ofText_followed (file : FileId) (options : Options) (input more : List UInt8) :
    ofText file options (input ++ Byte.lf :: more) =
      (ofText file options input).followedBy more :=
  congrArg (ofSource file options) (Text.ofBytes_followed input more)

theorem runsOn_ofText (file : FileId) (options : Options) {front back : List UInt8}
    (hplain : Text.Plain front) (hmark : ¬Reader.byteOrderMark <+: back) :
    RunsOn (Text.breaks (front ++ [Byte.lf])) (ofText file options front)
      (ofText file options back) (ofText file options (front ++ Byte.lf :: back))
      IdentTable.fresh := by
  have hsource : Text.ofBytes back = ⟨0, back⟩ :=
    if_neg fun hprefix => hmark (List.isPrefixOf_iff_prefix.1 hprefix)
  have hback : (ofText file options back).cursor =
      ⟨file, ⟨0, back⟩, wrap32 (1 + options.lineOffset), 0⟩ :=
    congrArg (Cursor.mk file · _ 0) hsource
  rw [ofText_followed]
  exact runsOn_followedBy hplain (located_ofText file options front) IdentTable.sound_fresh back
    rfl hback

/-- Put a line feed and any bytes without a mark behind bytes without comments and triple quotes,
and a run reads both parts as on their own: the tokens of the first, whatever is malformed there,
and then those of the second, as many lines further down as the first part takes. Lines are counted
in 32 bits, so that behind the last number comes line 0; if it is not reached, the numbers of the
lines are higher by just as many. -/
theorem open?_runsOn (file : FileId) (options : Options) (h : 0 < options.bufferSize)
    (front back whole : ByteStream) (hwhole : whole.bytes = front.bytes ++ Byte.lf :: back.bytes)
    (hplain : Text.Plain front.bytes) (hmark : ¬Reader.byteOrderMark <+: back.bytes) :
    ∃ f b w, open? file front options = .ok f ∧ open? file back options = .ok b ∧
      open? file whole options = .ok w ∧
      RunsOn (Text.breaks (front.bytes ++ [Byte.lf])) f b w IdentTable.fresh ∧
      (1 + options.lineOffset + Text.breaks back.bytes + Text.breaks (front.bytes ++ [Byte.lf]) <
          pow2 32 →
        b.CountsBelow (Text.breaks (front.bytes ++ [Byte.lf])) IdentTable.fresh) := by
  refine ⟨_, _, _, open?_eq_ok file front options h, open?_eq_ok file back options h,
    open?_eq_ok file whole options h, ⟨?_, ?_⟩, fun hlines => ⟨?_, ?_⟩⟩
  · rw [tokens_ofStream, tokens_ofStream, tokens_ofStream, hwhole]
    exact (runsOn_ofText file options hplain hmark).tokens_eq
  · rw [diagnostics_ofStream, diagnostics_ofStream, diagnostics_ofStream, hwhole]
    exact (runsOn_ofText file options hplain hmark).complaints_eq
  · rw [tokens_ofStream]
    exact (countsBelow_of_located (located_ofText file options back.bytes) hlines).token_eq
  · rw [diagnostics_ofStream]
    exact (countsBelow_of_located (located_ofText file options back.bytes) hlines).diagnostic_eq


/-- A string that ends in the middle of an escape. -/
def danglingEscape : ByteStream := .ofBytes [97, 32, 34, 92, 117, 123]

/-- An identifier and a comment. -/
def commentedWord : ByteStream := .ofBytes [32, 97, 32, 35, 34]

/-- The two of them on two lines. -/
def danglingLines : ByteStream :=
  ⟨[.chunk 97 [32, 34, 92], .interruption, .chunk 117 [123, 10, 32], .chunk 97 [32, 35, 34]],
    .closed⟩

theorem open?_runsOn_danglingLines :
    0 < 1 ∧ danglingLines.bytes = danglingEscape.bytes ++ Byte.lf :: commentedWord.bytes ∧
      Text.Plain danglingEscape.bytes ∧ ¬Reader.byteOrderMark <+: commentedWord.bytes ∧
      ∃ f b w, open? {} danglingEscape (Options.withWindow {} 1) = .ok f ∧
        open? {} commentedWord (Options.withWindow {} 1) = .ok b ∧
        open? {} danglingLines (Options.withWindow {} 1) = .ok w ∧
        RunsOn 1 f b w IdentTable.fresh ∧ b.CountsBelow 1 IdentTable.fresh := by
  have hplain : Text.Plain danglingEscape.bytes := ⟨by decide, by decide, by decide⟩
  obtain ⟨f, b, w, hfront, hback, hwhole, hruns, hcounts⟩ :=
    open?_runsOn {} (Options.withWindow {} 1) (by decide) danglingEscape commentedWord
      danglingLines (by decide) hplain (by decide)
  exact ⟨by decide, by decide, hplain, by decide, f, b, w, hfront, hback, hwhole, hruns,
    hcounts (by decide)⟩

/-- Two identifiers, on a line each. -/
def twoWords : ByteStream := .ofBytes [97, 10, 98]

/-- With `b` alone on the last line that can be counted, the line of `b` behind a line with `a` has
the number 0, not one more. -/
theorem open?_runsOn_lastLine :
    ∃ b w, open? {} (.ofBytes [98]) { lineOffset := 4294967294 } = .ok b ∧
      open? {} twoWords { lineOffset := 4294967294 } = .ok w ∧
      (b.tokens .fresh).map (fun t => (t.kind, t.line)) =
        [(.symbol, 4294967295), (.eof, 4294967295)] ∧
      (w.tokens .fresh).map (fun t => (t.kind, t.line)) =
        [(.symbol, 4294967295), (.symbol, 0), (.eof, 0)] := by
  refine ⟨_, _, open?_eq_ok {} (.ofBytes [98]) { lineOffset := 4294967294 } (by decide),
    open?_eq_ok {} twoWords { lineOffset := 4294967294 } (by decide), ?_, ?_⟩
  · rw [tokens_ofStream]
    decide +kernel
  · rw [tokens_ofStream]
    decide +kernel

end Lexer
end Lexeme
