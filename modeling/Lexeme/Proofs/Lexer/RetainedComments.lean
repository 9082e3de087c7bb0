import Lexeme.Proofs.Lexer.WholeRun

/-!
# Retained comments only add tokens

With ordinary comments retained, a run meets the comments that it would pass over otherwise, one
token for each, and then the token that it would have met. `Blank.Skims` is this way over blanks
and comments, and it goes wherever blanks lead when comments are dropped, with the same
diagnostics. So leaving the ordinary comments out of a run gives the run without them, up to the
layout in front of the tokens.
-/

set_option autoImplicit false

namespace Lexeme

def Options.retaining (options : Options) (retain : Bool) : Options :=
  { options with retainComments := retain }

/-- What documentation comments start with. -/
def Comment.documentationMark : List UInt8 := [Byte.hash, Byte.hash]

/-- Whether a line goes on with a comment that is no documentation. -/
def Comment.isOrdinary (line : List UInt8) : Bool :=
  line.head? == some Byte.hash && !isDocumentation line

/-! ## One run of blanks -/

namespace BlankRun

/-- How a run that drops comments, the first one, compares with the run that retains them: the
same, unless an ordinary comment stops the latter. -/
inductive Retained (offset : Nat) (line : List UInt8) : BlankRun → BlankRun → Prop
  | token (k spaces : Nat) (findings : List Finding)
      (h : Comment.isOrdinary (line.drop k) = false) :
      Retained offset line ⟨offset + k, spaces, .token, findings⟩
        ⟨offset + k, spaces, .token, findings⟩
  | lineEnd (n spaces : Nat) (findings : List Finding) :
      Retained offset line ⟨n, spaces, .lineEnd, findings⟩ ⟨n, spaces, .lineEnd, findings⟩
  | block (k spaces : Nat) (findings : List Finding)
      (h : BlockForm.ordinary.opener <+: line.drop k) :
      Retained offset line ⟨offset + k, spaces, .block, findings⟩
        ⟨offset + k, spaces, .token, findings⟩
  | comment (n k spaces : Nat) (findings : List Finding)
      (h : Comment.isOrdinary (line.drop k) = true)
      (hb : ¬BlockForm.ordinary.opener <+: line.drop k) :
      Retained offset line ⟨n, spaces, .lineEnd, findings⟩ ⟨offset + k, spaces, .token, findings⟩

theorem Retained.cons {offset : Nat} {line : List UInt8} {r r' : BlankRun}
    (h : Retained (offset + 1) line r r') (b : UInt8) : Retained offset (b :: line) r r' := by
  have hoffset : ∀ k, offset + 1 + k = offset + (k + 1) := fun k => by omega
  cases h with
  | token k spaces findings h =>
    rw [hoffset]
    exact .token (k + 1) spaces findings h
  | lineEnd n spaces findings => exact .lineEnd n spaces findings
  | block k spaces findings h =>
    rw [hoffset]
    exact .block (k + 1) spaces findings h
  | comment n k spaces findings h hb =>
    rw [hoffset]
    exact .comment n (k + 1) spaces findings h hb

theorem Retained.found {offset : Nat} {line : List UInt8} {r r' : BlankRun}
    (h : Retained offset line r r') (f : Finding) :
    Retained offset line { r with findings := f :: r.findings }
      { r' with findings := f :: r'.findings } := by
  cases h with
  | token k spaces findings h => exact .token k spaces (f :: findings) h
  | lineEnd n spaces findings => exact .lineEnd n spaces (f :: findings)
  | block k spaces findings h => exact .block k spaces (f :: findings) h
  | comment n k spaces findings h hb => exact .comment n k spaces (f :: findings) h hb

theorem retained_hash (offset spaces : Nat) (rest : List UInt8) :
    Retained offset (Byte.hash :: rest)
      (match endingAtHash false rest with
        | .lineEnd => ⟨offset + 1 + rest.length, spaces, .lineEnd, []⟩
        | ending => ⟨offset, spaces, ending, []⟩)
      ⟨offset, spaces, .token, []⟩ := by
  cases rest with
  | nil => exact .comment _ 0 spaces [] rfl (by decide)
  | cons b rest =>
    by_cases hh : b = Byte.hash
    · subst hh
      exact .token 0 spaces [] rfl
    · have hordinary : Comment.isOrdinary (Byte.hash :: b :: rest) = true := by
        simp [Comment.isOrdinary, Comment.isDocumentation, hh]
      by_cases hb : b = Byte.bracketLeft
      · subst hb
        exact .block 0 spaces [] ⟨rest, rfl⟩
      · have hend : endingAtHash false (b :: rest) = .lineEnd := by
          simp [endingAtHash, hh, hb]
        rw [hend]
        refine .comment _ 0 spaces [] hordinary ?_
        rintro ⟨tail, htail⟩
        simp only [BlockForm.opener, List.cons_append, List.nil_append, List.drop_zero] at htail
        injection htail with _ htail
        injection htail with hbracket _
        exact hb hbracket.symm

theorem retained_scan (options : Options) (offset spaces : Nat) (line : List UInt8) :
    Retained offset line (scan (options.retaining false) offset spaces line)
      (scan (options.retaining true) offset spaces line) := by
  induction line generalizing offset spaces with
  | nil => exact .lineEnd offset spaces []
  | cons b rest ih =>
    rw [scan, scan]
    split
    · exact (ih (offset + 1) _).cons b
    · split
      · have htab := (ih (offset + 1) spaces).cons b
        change Retained offset (b :: rest) (if options.allowTabs then _ else _)
          (if options.allowTabs then _ else _)
        split
        · exact htab
        · exact htab.found ⟨offset, .tabsNotAllowed⟩
      · split
        · rename_i hb
          obtain rfl := beq_iff_eq.1 hb
          have htoken : endingAtHash true rest = .token := by
            cases rest with
            | nil => rfl
            | cons c rest => rw [endingAtHash, Bool.or_true, if_pos rfl]
          change Retained offset (Byte.hash :: rest) _ (match endingAtHash true rest with
            | .lineEnd => _
            | ending => _)
          rw [htoken]
          exact retained_hash offset spaces rest
        · rename_i hb
          refine .token 0 spaces [] ?_
          simp only [List.drop_zero, Comment.isOrdinary, List.head?_cons]
          simpa using fun h => absurd h (by simpa using hb)

end BlankRun

/-! ## The way over comments -/

section Skims

variable {σ : Type} [LineSource σ]

theorem Comment.not_documentation_opener {line : List UInt8} (h : isDocumentation line = false) :
    BlockForm.documentation.opener.isPrefixOf line = false := by
  rw [Bool.eq_false_iff]
  intro ho
  obtain ⟨rest, rfl⟩ := List.isPrefixOf_iff_prefix.1 ho
  cases h

theorem Comment.scan_of_ordinary (limit : Nat) {c : Cursor σ} (h : isOrdinary c.rest = true)
    (hb : ¬BlockForm.ordinary.opener <+: c.rest) :
    scan limit c = ⟨c.rest, 0, c.lineEnd, none, []⟩ := by
  rw [isOrdinary, Bool.and_eq_true, Bool.not_eq_true'] at h
  have hopener : ¬BlockForm.ordinary.opener.isPrefixOf c.rest = true :=
    fun ho => hb (List.isPrefixOf_iff_prefix.1 ho)
  rw [scan, if_neg (by simp [not_documentation_opener h.2]), if_neg (by simp [h.2]),
    if_neg hopener]

theorem Comment.scan_of_opener (limit : Nat) {c : Cursor σ}
    (h : BlockForm.ordinary.opener <+: c.rest) :
    isOrdinary c.rest = true ∧
      scan limit c = ofBlockVerbatim .ordinary (.ordinary limit (c.advance 2)) := by
  have hdoc : isDocumentation c.rest = false := by
    obtain ⟨rest, hrest⟩ := h
    rw [← hrest]
    rfl
  refine ⟨?_, ?_⟩
  · obtain ⟨rest, hrest⟩ := h
    rw [← hrest]
    rfl
  · rw [scan, if_neg (by simp [not_documentation_opener hdoc]), if_neg (by simp [hdoc]),
      if_pos (List.isPrefixOf_iff_prefix.2 h)]

namespace Blank

/-- Blanks and the ordinary comments between them lead to a place, with diagnostics on the way. -/
inductive Skims (options : Options) : Cursor σ → List Diagnostic → Cursor σ → Prop
  | blank {c d : Cursor σ} {ds : List Diagnostic} (h : Leads options c ds d) : Skims options c ds d
  | comment {c d e : Cursor σ} {ds ds' : List Diagnostic} (h : Leads options c ds d)
      (hd : Comment.isOrdinary d.rest = true)
      (hrest : Skims options (Comment.scan options.maxLineLength d).cursor ds' e) :
      Skims options c (ds ++ (Comment.scan options.maxLineLength d).diagnostics ++ ds') e

variable {options : Options}

/-- Blanks up to the end of a line may come first. -/
theorem Skims.line {c d : Cursor σ} {ds : List Diagnostic}
    (h : (run options 0 c).ending = .lineEnd) (hlast : c.isLast = false)
    (hrest : Skims options c.nextLine ds d) :
    Skims options c ((run options 0 c).findings.map c.locate ++
      c.lengthHint options.maxLineLength ++ ds) d := by
  cases hrest with
  | blank hleads => exact .blank (.line h hlast hleads)
  | comment hleads hd hrest =>
    have hskims := Skims.comment (.line h hlast hleads) hd hrest
    simp only [List.append_assoc] at hskims ⊢
    exact hskims

theorem run_lineEnd (options : Options) {c : Cursor σ} (h : c.rest = []) :
    run options 0 c = ⟨0, 0, .lineEnd, []⟩ := by
  rw [run, h, BlankRun.scan]

section Runs

variable {c : Cursor σ}

theorem run_retaining_of_token (h : (run (options.retaining false) 0 c).ending = .token) :
    run (options.retaining true) 0 c = run (options.retaining false) 0 c ∧
      Comment.isOrdinary (c.advance (run (options.retaining false) 0 c).length).rest = false := by
  have hretained := BlankRun.retained_scan options 0 0 c.rest
  rw [Cursor.rest_advance]
  simp only [run] at h ⊢
  generalize BlankRun.scan (options.retaining false) 0 0 c.rest = off at *
  generalize BlankRun.scan (options.retaining true) 0 0 c.rest = on at *
  cases hretained with
  | token k spaces findings hk =>
    rw [Nat.zero_add]
    exact ⟨rfl, hk⟩
  | lineEnd => cases h
  | block => cases h
  | comment => cases h

theorem run_retaining_of_block (h : (run (options.retaining false) 0 c).ending = .block) :
    run (options.retaining true) 0 c =
        { run (options.retaining false) 0 c with ending := .token } ∧
      BlockForm.ordinary.opener <+:
        (c.advance (run (options.retaining false) 0 c).length).rest := by
  have hretained := BlankRun.retained_scan options 0 0 c.rest
  rw [Cursor.rest_advance]
  simp only [run] at h ⊢
  generalize BlankRun.scan (options.retaining false) 0 0 c.rest = off at *
  generalize BlankRun.scan (options.retaining true) 0 0 c.rest = on at *
  cases hretained with
  | token => cases h
  | lineEnd => cases h
  | block k spaces findings hk =>
    rw [Nat.zero_add]
    exact ⟨rfl, hk⟩
  | comment => cases h

/-- A run to the end of the line may owe it to a comment, and that one is met when retained. -/
theorem run_retaining_of_lineEnd (h : (run (options.retaining false) 0 c).ending = .lineEnd) :
    run (options.retaining true) 0 c = run (options.retaining false) 0 c ∨
      ∃ k, run (options.retaining true) 0 c =
          { run (options.retaining false) 0 c with length := k, ending := .token } ∧
        Comment.isOrdinary (c.advance k).rest = true ∧
        ¬BlockForm.ordinary.opener <+: (c.advance k).rest := by
  have hretained := BlankRun.retained_scan options 0 0 c.rest
  simp only [run, Cursor.rest_advance] at h ⊢
  generalize BlankRun.scan (options.retaining false) 0 0 c.rest = off at *
  generalize BlankRun.scan (options.retaining true) 0 0 c.rest = on at *
  cases hretained with
  | token => cases h
  | lineEnd => exact .inl rfl
  | block => cases h
  | comment n k spaces findings hk hb =>
    refine .inr ⟨k, ?_, hk, hb⟩
    rw [Nat.zero_add]

end Runs

/-- Where comments are dropped, blanks never lead to an ordinary one. -/
theorem Leads.isOrdinary_eq_false {c d : Cursor σ} {ds : List Diagnostic}
    (h : Leads (options.retaining false) c ds d) : Comment.isOrdinary d.rest = false := by
  induction h with
  | token h => exact (run_retaining_of_token h).2
  | @last c h hlast =>
    have hstop := stopsAt_run (options.retaining false) 0 c
    rw [h] at hstop
    rw [show (c.advance _).rest = [] from hstop]
    rfl
  | block _ _ ih => exact ih
  | line _ _ _ ih => exact ih

/-- A comment up to the end of its line is skimmed if the line's end is left to go on from. -/
theorem Skims.of_comment {c d : Cursor σ} {ds : List Diagnostic} {k : Nat}
    {r : BlankRun} (hrun : run options 0 c = { r with length := k, ending := .token })
    (hk : Comment.isOrdinary (c.advance k).rest = true)
    (hb : ¬BlockForm.ordinary.opener <+: (c.advance k).rest)
    (hrest : Skims options c.lineEnd ds d) :
    Skims options c (r.findings.map c.locate ++ ds) d := by
  have hle : k ≤ c.rest.length := by
    have hlen := length_run_le options 0 c
    rwa [hrun] at hlen
  have hmet : Leads options c (r.findings.map c.locate) (c.advance k) := by
    have hleads := Leads.token (c := c) (by rw [hrun])
    rwa [hrun] at hleads
  have hscan := Comment.scan_of_ordinary options.maxLineLength hk hb
  rw [Cursor.lineEnd_advance hle] at hscan
  have hskims := Skims.comment hmet hk (by rw [hscan]; exact hrest)
  rw [hscan, List.append_nil] at hskims
  exact hskims

theorem skims_of_leads {c d : Cursor σ} {ds : List Diagnostic}
    (h : Leads (options.retaining false) c ds d) : Skims (options.retaining true) c ds d := by
  induction h with
  | @token c h =>
    have hrun := (run_retaining_of_token h).1
    rw [← hrun] at h ⊢
    exact .blank (.token h)
  | @last c h hlast =>
    rcases run_retaining_of_lineEnd h with hrun | ⟨k, hrun, hk, hb⟩
    · rw [← hrun] at h ⊢
      exact .blank (.last h hlast)
    · have hend := run_lineEnd (options.retaining true) c.rest_lineEnd
      have hleads := Leads.last (c := c.lineEnd) (by rw [hend]) hlast
      rw [hend] at hleads
      have hskims := Skims.of_comment hrun hk hb (.blank hleads)
      rw [List.map_nil, List.append_nil] at hskims
      rw [advance_run_of_lineEnd h]
      exact hskims
  | @block c d ds h hrest ih =>
    obtain ⟨hrun, hopen⟩ := run_retaining_of_block h
    obtain ⟨hordinary, hscan⟩ := Comment.scan_of_opener options.maxLineLength hopen
    have hmet : Leads (options.retaining true) c
        ((run (options.retaining false) 0 c).findings.map c.locate)
        (c.advance (run (options.retaining false) 0 c).length) := by
      have htoken : (run (options.retaining true) 0 c).ending = .token := by rw [hrun]
      have hleads := Leads.token htoken
      rwa [hrun] at hleads
    have hcursor : (Comment.scan (options.retaining true).maxLineLength
        (c.advance (run (options.retaining false) 0 c).length)).cursor =
          (block (options.retaining false) 0 c).cursor := congrArg Comment.cursor hscan
    have hdiags : (Comment.scan (options.retaining true).maxLineLength
        (c.advance (run (options.retaining false) 0 c).length)).diagnostics =
          (block (options.retaining false) 0 c).diagnostics := congrArg Comment.diagnostics hscan
    have hskims := Skims.comment hmet hordinary (hcursor.symm ▸ ih)
    rwa [hdiags] at hskims
  | @line c d ds h hlast hrest ih =>
    rcases run_retaining_of_lineEnd h with hrun | ⟨k, hrun, hk, hb⟩
    · rw [← hrun] at h ⊢
      exact ih.line h hlast
    · have hend := run_lineEnd (options.retaining true) c.rest_lineEnd
      have hnext : c.lineEnd.nextLine = c.nextLine := Cursor.nextLine_advance hlast _
      have hhint := Cursor.lengthHint_advance (Nat.le_refl c.rest.length) options.maxLineLength
      have hline := Skims.line (c := c.lineEnd) (by rw [hend]) hlast (hnext.symm ▸ ih)
      rw [hend] at hline
      have hskims := Skims.of_comment hrun hk hb hline
      rw [List.map_nil, List.nil_append, ← List.append_assoc] at hskims
      change Skims _ c (_ ++ (c.advance c.rest.length).lengthHint options.maxLineLength ++ ds) d
        at hskims
      rwa [hhint] at hskims

end Blank
end Skims

/-! ## Whole runs -/

/-- In the input a documentation comment reads as on the cursor's line: no terminator starts with
a mark. -/
theorem Cursor.Within.isPrefixOf_drop {input : List UInt8} {c : Cursor Text}
    (h : c.Within input) :
    Comment.documentationMark.isPrefixOf (input.drop c.offset) =
      Comment.isDocumentation c.rest := by
  have hbreak : ∀ b tail, Line.afterText (input.drop c.source.offset) = b :: tail →
      (Byte.hash == b) = false := by
    intro b tail hafter
    have hb := Line.isBreak_of_afterText_eq_cons hafter
    rw [beq_eq_false_iff_ne]
    rintro rfl
    exact absurd hb (by decide)
  rw [h.drop_offset, Comment.documentationMark]
  generalize Line.afterText (input.drop c.source.offset) = after at hbreak ⊢
  rcases c.rest with _ | ⟨b, _ | ⟨b', rest⟩⟩
  · cases after with
    | nil => rfl
    | cons b tail => simp [List.isPrefixOf, hbreak b tail rfl, Comment.isDocumentation]
  · cases after with
    | nil => simp [List.isPrefixOf, Comment.isDocumentation]
    | cons b' tail => simp [List.isPrefixOf, hbreak b' tail rfl, Comment.isDocumentation]
  · by_cases hb : b = Byte.hash
    · by_cases hb' : b' = Byte.hash
      · subst hb hb'
        rfl
      · simp [List.isPrefixOf, Comment.isDocumentation, hb', Ne.symm hb']
    · simp [List.isPrefixOf, Comment.isDocumentation, hb, Ne.symm hb]

namespace Lexer

/-- Whether a token that starts at an offset is a comment, and none that the input marks as
documentation. -/
def isOrdinaryComment (input : List UInt8) (p : Nat × Token) : Bool :=
  p.2.kind == .comment && !Comment.documentationMark.isPrefixOf (input.drop p.1)

/-- The tokens of a whole run without the ordinary comments. -/
def keptTokens {σ : Type} [LineSource σ] (input : List UInt8) (l : Lexer σ)
    (table : IdentTable) : List Token :=
  ((l.placedTokens table).filter fun p => !isOrdinaryComment input p).map Prod.snd

section Text

variable {input : List UInt8} {l : Lexer Text} {table : IdentTable}

theorem isOrdinaryComment_next (h : l.cursor.Within input) (table : IdentTable) :
    isOrdinaryComment input (l.tokenOffset, (l.next table).token) =
      Comment.isOrdinary l.blank.cursor.rest := by
  have hkind := TokenRead.kind_scan_eq_comment_iff l.options l.blank.cursor table
  have hdoc := (passes_blank h).within.isPrefixOf_drop
  rw [isOrdinaryComment, Comment.isOrdinary, tokenOffset, hdoc]
  congr 1
  rw [Bool.eq_iff_iff, beq_iff_eq, beq_iff_eq]
  exact hkind

theorem keptTokens_of_eof (h : l.cursor.Within input)
    (heof : (l.next table).token.kind = .eof) :
    l.keptTokens input table = [(l.next table).token] := by
  have hrest := (kind_next_eq_eof_iff l table).1 heof
  have hkept : isOrdinaryComment input (l.tokenOffset, (l.next table).token) = false := by
    rw [isOrdinaryComment_next h, hrest]
    rfl
  rw [keptTokens, placedTokens_of_eof heof, List.filter_cons_of_pos (by rw [hkept]; rfl)]
  rfl

/-- Ordinary comments in front leave the kept tokens as they are. -/
theorem keptTokens_of_placedTokens {l' : Lexer Text} {comments : List (Nat × Token)}
    (h : l.placedTokens table = comments ++ l'.placedTokens table)
    (hcomments : ∀ p ∈ comments, isOrdinaryComment input p = true) :
    l.keptTokens input table = l'.keptTokens input table := by
  have hdropped : comments.filter (fun p => !isOrdinaryComment input p) = [] :=
    List.filter_eq_nil_iff.2 fun p hp => by simp [hcomments p hp]
  rw [keptTokens, h, List.filter_append, hdropped]
  rfl

theorem keptTokens_of_not_ordinary (h : l.cursor.Within input)
    (hne : (l.next table).token.kind ≠ .eof)
    (hordinary : Comment.isOrdinary l.blank.cursor.rest = false) :
    l.keptTokens input table =
      (l.next table).token :: (l.next table).lexer.keptTokens input (l.next table).table := by
  have hkept := isOrdinaryComment_next h table
  rw [hordinary] at hkept
  rw [keptTokens, placedTokens_of_ne_eof hne, List.filter_cons_of_pos (by rw [hkept]; rfl)]
  rfl

/-- What one ordinary comment adds to a run: a token that is not kept, and its diagnostics. -/
theorem next_of_ordinary (hordinary : Comment.isOrdinary l.blank.cursor.rest = true)
    (table : IdentTable) :
    (l.next table).token.kind ≠ .eof ∧ (l.next table).table = table ∧
      (l.next table).lexer.cursor =
        (Comment.scan l.options.maxLineLength l.blank.cursor).cursor ∧
      (l.next table).diagnostics = l.blank.diagnostics ++
        (Comment.scan l.options.maxLineLength l.blank.cursor).diagnostics := by
  rw [Comment.isOrdinary, Bool.and_eq_true, beq_iff_eq] at hordinary
  obtain ⟨rest, hrest⟩ := List.head?_eq_some_iff.1 hordinary.1
  have hread := TokenRead.scan_of_hash l.options hrest table
  rw [next, hread]
  exact ⟨Kind.noConfusion, rfl, rfl, rfl⟩

/-- A run that has met nothing but ordinary comments and goes on as another lexer does. -/
structure Skimmed (input : List UInt8) (table : IdentTable) (l l' : Lexer Text)
    (ds : List Diagnostic) (comments : List (Nat × Token)) : Prop where
  options_eq : l'.options = l.options
  within : l'.cursor.Within input
  diagnostics_eq : l.diagnostics table = ds ++ l'.diagnostics table
  placedTokens_eq : l.placedTokens table = comments ++ l'.placedTokens table
  isOrdinary : ∀ p ∈ comments, isOrdinaryComment input p = true
  eq_of_nil : comments = [] → l' = l

/-- Along skimmed comments a run reports what is found there. -/
theorem skims_run {options : Options} {c d : Cursor Text} {ds : List Diagnostic}
    (h : Blank.Skims options c ds d) {l : Lexer Text} (hoptions : l.options = options)
    (hcursor : l.cursor = c) (hl : l.cursor.Within input) (table : IdentTable) :
    ∃ (l' : Lexer Text) (ds₀ ds₁ : List Diagnostic) (comments : List (Nat × Token)),
      Skimmed input table l l' ds₀ comments ∧ ds = ds₀ ++ ds₁ ∧
      Blank.Leads options l'.cursor ds₁ d := by
  induction h generalizing l with
  | @blank c d ds h =>
    exact ⟨l, [], ds, [], ⟨rfl, hl, rfl, rfl, List.forall_mem_nil _, fun _ => rfl⟩, rfl,
      hcursor ▸ h⟩
  | @comment c d e ds ds' h hd hrest ih =>
    subst hoptions hcursor
    obtain ⟨rfl, rfl⟩ := blank_eq_of_leads h
    obtain ⟨hne, htable, hnext, hdiags⟩ := next_of_ordinary hd table
    have hwithin := (advances_next hl hne).within
    have hordinary := (isOrdinaryComment_next hl table).trans hd
    obtain ⟨l', ds₀, ds₁, comments, hskimmed, rfl, hleads⟩ :=
      ih (l := (l.next table).lexer) rfl hnext hwithin
    refine ⟨l', (l.next table).diagnostics ++ ds₀, ds₁,
      (l.tokenOffset, (l.next table).token) :: comments,
      ⟨hskimmed.options_eq, hskimmed.within, ?_, ?_, ?_, ?_⟩, ?_, hleads⟩
    · rw [diagnostics_of_ne_eof hne, htable, hskimmed.diagnostics_eq, List.append_assoc]
    · rw [placedTokens_of_ne_eof hne, htable, hskimmed.placedTokens_eq]
      rfl
    · exact List.forall_mem_cons.2 ⟨hordinary, hskimmed.isOrdinary⟩
    · exact fun hnil => absurd hnil (List.cons_ne_nil _ _)
    · rw [hdiags]
      simp only [List.append_assoc]

/-- A step depends on the place of its token, up to the layout; whether comments are retained
does not matter any more. -/
theorem next_of_blank_cursor_eq {options : Options} {on off : Lexer Text}
    (hon : on.options = options.retaining true) (hoff : off.options = options.retaining false)
    (hcursor : on.blank.cursor = off.blank.cursor) (table : IdentTable) :
    (on.next table).token.withoutLayout = (off.next table).token.withoutLayout ∧
      (on.next table).table = (off.next table).table ∧
      (on.next table).lexer.cursor = (off.next table).lexer.cursor ∧
      (on.next table).lexer.pendingIndent = (off.next table).lexer.pendingIndent ∧
      ∃ ds, (on.next table).diagnostics = on.blank.diagnostics ++ ds ∧
        (off.next table).diagnostics = off.blank.diagnostics ++ ds := by
  have hread : TokenRead.scan on.options off.blank.cursor table =
      TokenRead.scan off.options off.blank.cursor table := by
    rw [hon, hoff]
    rfl
  simp only [next, hcursor, hread]
  exact ⟨rfl, trivial, trivial, trivial, _, rfl, rfl⟩

/-- Where comments are dropped, no ordinary one is met. -/
theorem isOrdinary_blank {options : Options} {off : Lexer Text}
    (hoff : off.options = options.retaining false) :
    Comment.isOrdinary off.blank.cursor.rest = false := by
  rw [blank, hoff]
  exact (Blank.leads_scan (options.retaining false) 0 off.cursor).isOrdinary_eq_false

/-- A run that retains comments skims them and meets the token that the run without them meets. -/
theorem exists_meeting {options : Options} {on off : Lexer Text}
    (hon : on.options = options.retaining true) (hoff : off.options = options.retaining false)
    (hcursor : on.cursor = off.cursor) (hwithin : off.cursor.Within input)
    (table : IdentTable) :
    ∃ (l : Lexer Text) (ds : List Diagnostic) (comments : List (Nat × Token)),
      Skimmed input table on l ds comments ∧ l.blank.cursor = off.blank.cursor ∧
      off.blank.diagnostics = ds ++ l.blank.diagnostics := by
  have hleads := Blank.leads_scan off.options 0 off.cursor
  rw [hoff] at hleads
  obtain ⟨l, ds₀, ds₁, comments, hskimmed, hsplit, hmeets⟩ :=
    skims_run (Blank.skims_of_leads hleads) hon hcursor (hcursor ▸ hwithin) table
  rw [← hon, ← hskimmed.options_eq] at hmeets
  obtain ⟨rfl, hplace⟩ := blank_eq_of_leads hmeets
  rw [← hoff] at hsplit hplace
  exact ⟨l, ds₀, comments, hskimmed, hplace, hsplit⟩

theorem kept_of_retaining {options : Options} {on off : Lexer Text}
    (hon : on.options = options.retaining true) (hoff : off.options = options.retaining false)
    (hcursor : on.cursor = off.cursor) (hwithin : off.cursor.Within input)
    (table : IdentTable) :
    (on.keptTokens input table).map Token.withoutLayout =
        (off.tokens table).map Token.withoutLayout ∧
      on.diagnostics table = off.diagnostics table := by
  induction off, table using runCases generalizing on with
  | eof off table heof =>
    obtain ⟨l, ds, comments, hskimmed, hplace, hsplit⟩ :=
      exists_meeting hon hoff hcursor hwithin table
    have hl := hskimmed.options_eq.trans hon
    have hkept := keptTokens_of_placedTokens hskimmed.placedTokens_eq hskimmed.isOrdinary
    obtain ⟨htoken, -, -, -, read, hread, hread'⟩ := next_of_blank_cursor_eq hl hoff hplace table
    have hleof : (l.next table).token.kind = .eof := by
      rw [kind_next_eq_eof_iff, hplace, ← kind_next_eq_eof_iff]
      exact heof
    constructor
    · rw [hkept, keptTokens_of_eof hskimmed.within hleof, tokens_of_eof heof, List.map_singleton,
        List.map_singleton, htoken]
    · rw [hskimmed.diagnostics_eq, diagnostics_of_eof hleof, diagnostics_of_eof heof, hread, hread',
        hsplit, List.append_assoc]
  | token off table hne ih =>
    obtain ⟨l, ds, comments, hskimmed, hplace, hsplit⟩ :=
      exists_meeting hon hoff hcursor hwithin table
    have hl := hskimmed.options_eq.trans hon
    have hkept := keptTokens_of_placedTokens hskimmed.placedTokens_eq hskimmed.isOrdinary
    obtain ⟨htoken, htable, hnext, -, read, hread, hread'⟩ :=
      next_of_blank_cursor_eq hl hoff hplace table
    have hlne : (l.next table).token.kind ≠ .eof := by
      rw [ne_eq, kind_next_eq_eof_iff, hplace, ← kind_next_eq_eof_iff]
      exact hne
    have hnot : Comment.isOrdinary l.blank.cursor.rest = false := by
      rw [hplace]
      exact isOrdinary_blank hoff
    have hoptions : (l.next table).lexer.options = options.retaining true := hl
    obtain ⟨hkept', hdiags'⟩ := ih hoptions hoff hnext (advances_next hwithin hne).within
    constructor
    · rw [hkept, keptTokens_of_not_ordinary hskimmed.within hlne hnot, tokens_of_ne_eof hne,
        List.map_cons, List.map_cons, htoken, htable, hkept']
    · rw [hskimmed.diagnostics_eq, diagnostics_of_ne_eof hlne, diagnostics_of_ne_eof hne, hread,
        hread', hsplit, htable, hdiags']
      simp only [List.append_assoc]

end Text

/-- On any stream and whatever the other options, retaining comments adds to a run the comments
that are no documentation, and changes nothing else but the layout in front of tokens: the kept
tokens are those of the run that drops comments, and the diagnostics are the same. -/
theorem open?_retaining (file : FileId) (stream : ByteStream) (options : Options)
    (h : 0 < options.bufferSize) :
    ∃ on off, open? file stream (options.retaining true) = .ok on ∧
      open? file stream (options.retaining false) = .ok off ∧
      ∀ table,
        (on.keptTokens stream.bytes table).map Token.withoutLayout =
            (off.tokens table).map Token.withoutLayout ∧
          on.diagnostics table = off.diagnostics table := by
  have hon : 0 < (options.retaining true).bufferSize := h
  have hoff : 0 < (options.retaining false).bufferSize := h
  refine ⟨_, _, open?_eq_ok file stream _ hon, open?_eq_ok file stream _ hoff, fun table => ?_⟩
  have hwithin := within_ofText file (options.retaining false) stream.bytes
  have hcursor : (ofText file (options.retaining true) stream.bytes).cursor =
      (ofText file (options.retaining false) stream.bytes).cursor := rfl
  have htext := kept_of_retaining rfl rfl hcursor hwithin table
  rw [tokens_ofStream, diagnostics_ofStream, diagnostics_ofStream, keptTokens,
    placedTokens_ofStream]
  exact htext

/-- Documentation, ordinary comments and an unclosed block, in front of tokens and behind them. -/
def mixedComments : ByteStream := .ofBytes (Utf8.encode "a # b\n  ## c\n #[ d ]# e\t#[ f")

theorem open?_retaining_mixedComments :
    0 < 1 ∧ ∃ on off,
      open? {} mixedComments ((Options.withWindow {} 1).retaining true) = .ok on ∧
      open? {} mixedComments ((Options.withWindow {} 1).retaining false) = .ok off ∧
      ∀ table,
        (on.keptTokens mixedComments.bytes table).map Token.withoutLayout =
            (off.tokens table).map Token.withoutLayout ∧
          on.diagnostics table = off.diagnostics table :=
  ⟨by decide, open?_retaining {} mixedComments (Options.withWindow {} 1) (by decide)⟩

end Lexer
end Lexeme
