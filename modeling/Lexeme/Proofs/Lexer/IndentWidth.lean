import Mathlib.Data.List.Forall2
import Lexeme.Lexer.IndentWidth
import Lexeme.Proofs.Lexer.LineIndent
import Lexeme.Proofs.Lexer.RetainedComments

/-!
# Indentation widths with retained comments

The width of a source is the first indentation among the tokens directly behind those that may open
a block. A comment that is retained is such a token: it has an indentation of its own, and it
separates the token behind it from the one that opens the block. Opener by opener, the run that
retains comments and the one that drops them meet the same token, unless an ordinary comment comes
first. So the widths agree up to the comments that stand directly behind openers.
-/

set_option autoImplicit false

namespace Lexeme

/-! ## Blanks that no ordinary comment ends -/

namespace Indentation

variable {σ : Type} [LineSource σ]

theorem startsToken_of_isOrdinary {options : Options} {line : List UInt8}
    (h : Comment.isOrdinary line = true) : startsToken (options.retaining true) line = true := by
  rw [Comment.isOrdinary, Bool.and_eq_true, beq_iff_eq] at h
  obtain ⟨rest, rfl⟩ := List.head?_eq_some_iff.1 h.1
  rw [startsToken, Options.retaining, Bool.or_true, Bool.and_true]
  rfl

theorem startsToken_retaining (options : Options) {line : List UInt8}
    (h : Comment.isOrdinary line = false) :
    startsToken (options.retaining false) line = startsToken (options.retaining true) line := by
  have hstops : (line.head? != some Byte.hash || Comment.isDocumentation line) = true := by
    rw [Comment.isOrdinary, Bool.and_eq_false_iff, Bool.not_eq_false'] at h
    rw [Bool.or_eq_true, bne, Bool.not_eq_true']
    exact h
  rw [startsToken, startsToken, hstops, Bool.true_or, Bool.true_or]

/-- The indentation of a line is its spaces in front where comments are retained, and where none
follows them that is dropped otherwise. -/
theorem scan_retaining (options : Options) (width : Nat) {c : Cursor σ}
    (h : Comment.isOrdinary (scan (options.retaining true) width c).cursor.rest = false) :
    scan (options.retaining false) width c = scan (options.retaining true) width c := by
  have hon : scan (options.retaining true) width c =
      ⟨wrap32 (width + leadingSpaces c.rest), c.advance (leadingSpaces c.rest), []⟩ := by
    rw [scan, dif_neg (by simp [Options.retaining])]
  rw [hon] at h ⊢
  rw [scan, dif_neg]
  rintro ⟨hopen, -⟩
  have hordinary := (Comment.scan_of_opener 0 (List.isPrefixOf_iff_prefix.1 hopen)).1
  rw [h] at hordinary
  cases hordinary

end Indentation

namespace Blank

variable {σ : Type} [LineSource σ] {options : Options} {spaces : Nat} {c : Cursor σ}

theorem run_retaining_ne_block (options : Options) (spaces : Nat) (c : Cursor σ) :
    (run (options.retaining true) spaces c).ending ≠ .block := by
  have hretained := BlankRun.retained_scan options 0 spaces c.rest
  rw [run]
  generalize BlankRun.scan (options.retaining true) 0 spaces c.rest = on at *
  generalize BlankRun.scan (options.retaining false) 0 spaces c.rest = off at *
  cases hretained with
  | token => exact BlankEnd.noConfusion
  | lineEnd => exact BlankEnd.noConfusion
  | block => exact BlankEnd.noConfusion
  | comment => exact BlankEnd.noConfusion

/-- A run that no ordinary comment ends is the same when comments are dropped. -/
theorem run_retaining_eq
    (h : (run (options.retaining true) spaces c).ending = .token →
      Comment.isOrdinary (c.advance (run (options.retaining true) spaces c).length).rest = false) :
    run (options.retaining false) spaces c = run (options.retaining true) spaces c := by
  have hretained := BlankRun.retained_scan options 0 spaces c.rest
  simp only [run, Cursor.rest_advance] at h ⊢
  generalize BlankRun.scan (options.retaining true) 0 spaces c.rest = on at *
  generalize BlankRun.scan (options.retaining false) 0 spaces c.rest = off at *
  cases hretained with
  | token => rfl
  | lineEnd => rfl
  | block k spaces findings hopen =>
    have hnot := h rfl
    rw [Nat.zero_add] at hnot
    obtain ⟨rest, hrest⟩ := hopen
    rw [← hrest] at hnot
    cases hnot
  | comment n k spaces findings hk hb =>
    have hnot := h rfl
    rw [Nat.zero_add, hk] at hnot
    cases hnot

/-- A run to the end of the line has met no comment if it would have retained one. -/
theorem run_dropping_of_lineEnd
    (hend : (run (options.retaining true) spaces c).ending = .lineEnd) :
    run (options.retaining false) spaces c = run (options.retaining true) spaces c := by
  apply run_retaining_eq
  intro htoken
  rw [hend] at htoken
  cases htoken

/-- Blanks up to anything but an ordinary comment are the same when comments are dropped, with
their layout. -/
theorem scan_retaining (spaces : Nat) (c : Cursor σ)
    (h : Comment.isOrdinary (scan (options.retaining true) spaces c).cursor.rest = false) :
    scan (options.retaining false) spaces c = scan (options.retaining true) spaces c := by
  induction spaces, c using scanCases (σ := σ) (options.retaining true) with
  | token spaces c hend =>
    rw [scan_of_token hend] at h ⊢
    have hrun := run_retaining_eq fun _ => h
    rw [scan_of_token (by rw [hrun, hend]), hrun]
  | last spaces c hend hlast =>
    have hrun := run_dropping_of_lineEnd hend
    rw [scan_of_isLast hend hlast, scan_of_isLast (by rw [hrun, hend]) hlast, hrun]
  | start spaces c hend hlast hstart =>
    have hrun := run_dropping_of_lineEnd hend
    rw [scan_of_lineEnd hend hlast, if_pos hstart] at h ⊢
    have hahead : ahead (options.retaining false) c = ahead (options.retaining true) c :=
      Indentation.scan_retaining options 0 h
    have hstart' := (Indentation.startsToken_retaining options h).trans hstart
    rw [scan_of_lineEnd (by rw [hrun, hend]) hlast, hahead, if_pos hstart', hrun]
    rfl
  | comment spaces c hend ih => exact absurd hend (run_retaining_ne_block options spaces c)
  | line spaces c hend hlast hstart ih =>
    have hrun := run_dropping_of_lineEnd hend
    have hnot : Comment.isOrdinary (ahead (options.retaining true) c).cursor.rest = false := by
      rw [Bool.eq_false_iff]
      intro hordinary
      rw [Indentation.startsToken_of_isOrdinary hordinary] at hstart
      cases hstart
    have hahead : ahead (options.retaining false) c = ahead (options.retaining true) c :=
      Indentation.scan_retaining options 0 hnot
    have hstart' := (Indentation.startsToken_retaining options hnot).trans hstart
    rw [scan_of_lineEnd hend hlast, if_neg (by simp [hstart])] at h ⊢
    rw [scan_of_lineEnd (by rw [hrun, hend]) hlast, hahead, if_neg (by simp [hstart']), hrun, ih h]
    rfl

end Blank

/-! ## Tokens behind openers -/

namespace IndentWidth

/-- The tokens that directly follow one that may open a block. -/
def behindOpeners (tokens : List (Nat × Token)) : List (Nat × Token) :=
  ((tokens.zip tokens.tail).filter fun pair => pair.1.2.kind.mayOpenBlock).map Prod.snd

/-- The first indentation of some tokens, 0 if there is none. -/
def shown (tokens : List (Nat × Token)) : Nat :=
  ((tokens.map fun p => p.2.indent.getD 0).find? (0 < ·)).getD 0

section Tokens

variable {p q : Nat × Token} {ps : List (Nat × Token)}

theorem behindOpeners_cons_cons : behindOpeners (p :: q :: ps) =
    (if p.2.kind.mayOpenBlock then [q] else []) ++ behindOpeners (q :: ps) := by
  rw [behindOpeners, List.tail_cons, List.zip_cons_cons, List.filter_cons]
  split
  · rfl
  · rfl

theorem behindOpeners_of_not_opens (h : p.2.kind.mayOpenBlock = false) :
    behindOpeners (p :: ps) = behindOpeners ps := by
  cases ps with
  | nil => rfl
  | cons q ps => rw [behindOpeners_cons_cons, h, if_neg Bool.false_ne_true, List.nil_append]

theorem behindOpeners_of_comments {input : List UInt8} {comments : List (Nat × Token)}
    (h : ∀ p ∈ comments, Lexer.isOrdinaryComment input p = true) :
    behindOpeners (comments ++ ps) = behindOpeners ps := by
  induction comments with
  | nil => rfl
  | cons p comments ih =>
    obtain ⟨hp, hcomments⟩ := List.forall_mem_cons.1 h
    rw [Lexer.isOrdinaryComment, Bool.and_eq_true, beq_iff_eq] at hp
    have hnot : p.2.kind.mayOpenBlock = false := by rw [hp.1]; rfl
    rw [List.cons_append, behindOpeners_of_not_opens hnot, ih hcomments]

theorem shown_of_indented (h : 0 < p.2.indent.getD 0) : shown (p :: ps) = p.2.indent.getD 0 := by
  rw [shown, List.map_cons, List.find?_cons_of_pos (by simpa using h)]
  rfl

theorem shown_of_not_indented (h : p.2.indent.getD 0 = 0) : shown (p :: ps) = shown ps := by
  rw [shown, List.map_cons, List.find?_cons_of_neg (by simp [h])]
  rfl

end Tokens

/-- What a search starts behind: it opens no block. -/
def beginning : Nat × Token := (0, { kind := .eof })

/-- The search finds the first indentation among the tokens directly behind openers. -/
theorem width_search {σ : Type} [LineSource σ] {l : Lexer σ} {count : Nat}
    (h : l.cursor.unread < count) (p : Nat × Token) (table : IdentTable) :
    (search count p.2.kind l table).width =
      shown (behindOpeners (p :: l.placedTokens table)) := by
  induction l, table using Lexer.runCases generalizing count p with
  | eof l table heof =>
    obtain ⟨n, rfl⟩ := Nat.exists_eq_succ_of_ne_zero (Nat.ne_zero_of_lt h)
    have hindent : (l.next table).token.indent.getD 0 = 0 := by
      rw [Lexer.indent_next, if_pos heof]
      rfl
    rw [search, if_pos heof, Lexer.placedTokens_of_eof heof, behindOpeners_cons_cons]
    split
    · rw [List.singleton_append, shown_of_not_indented hindent]
      rfl
    · rfl
  | token l table hne ih =>
    obtain ⟨n, rfl⟩ := Nat.exists_eq_succ_of_ne_zero (Nat.ne_zero_of_lt h)
    have hlt := Lexer.unread_next_lt hne
    have hmore := ih (Nat.lt_of_lt_of_le hlt (Nat.le_of_lt_succ h))
      (l.tokenOffset, (l.next table).token)
    rw [search, if_neg hne, Lexer.placedTokens_of_ne_eof hne, behindOpeners_cons_cons]
    by_cases hopens : p.2.kind.mayOpenBlock = true
    · rw [if_pos hopens, List.singleton_append]
      by_cases hindent : 0 < (l.next table).token.indent.getD 0
      · rw [if_pos ⟨hindent, hopens⟩, shown_of_indented hindent]
      · rw [if_neg fun hboth => hindent hboth.1,
          shown_of_not_indented (Nat.eq_zero_of_not_pos hindent)]
        exact hmore
    · rw [if_neg hopens, if_neg fun hboth => hopens hboth.2, List.nil_append]
      exact hmore

theorem width_ofLexer {σ : Type} [LineSource σ] (l : Lexer σ) (table : IdentTable) :
    (ofLexer l table).width = shown (behindOpeners (l.placedTokens table)) := by
  have hsearch := width_search (Nat.lt_succ_self l.cursor.unread) beginning table
  rwa [behindOpeners_of_not_opens rfl] at hsearch

/-- Tokens behind openers, opener by opener: the same ones, unless the first is an ordinary
comment. -/
def Alike (input : List UInt8) : List (Nat × Token) → List (Nat × Token) → Prop :=
  List.Forall₂ fun p q => Lexer.isOrdinaryComment input p = true ∨ p = q

/-- Where the first indentations differ there is an opener with an ordinary comment directly behind
it, and with another indentation than that of the token on the other side. -/
theorem Alike.exists_comment {input : List UInt8} {ps qs : List (Nat × Token)}
    (h : Alike input ps qs) (hne : shown ps ≠ shown qs) :
    ∃ k p q, ps[k]? = some p ∧ qs[k]? = some q ∧ Lexer.isOrdinaryComment input p = true ∧
      p.2.indent.getD 0 ≠ q.2.indent.getD 0 ∧ shown (ps.take k) = 0 ∧ shown (qs.take k) = 0 := by
  induction h with
  | nil => exact absurd rfl hne
  | @cons p q ps qs hpq _ ih =>
    by_cases hindent : p.2.indent.getD 0 = q.2.indent.getD 0
    · rcases Nat.eq_zero_or_pos (p.2.indent.getD 0) with hzero | hpos
      · have hzero' := hindent.symm.trans hzero
        rw [shown_of_not_indented hzero, shown_of_not_indented hzero'] at hne
        obtain ⟨k, p', q', hp, hq, hordinary, hdiffer, hps, hqs⟩ := ih hne
        refine ⟨k + 1, p', q', hp, hq, hordinary, hdiffer, ?_, ?_⟩
        · rw [List.take_succ_cons, shown_of_not_indented hzero, hps]
        · rw [List.take_succ_cons, shown_of_not_indented hzero', hqs]
      · rw [shown_of_indented hpos, shown_of_indented (hindent ▸ hpos), hindent] at hne
        exact absurd rfl hne
    · refine ⟨0, p, q, rfl, rfl, hpq.resolve_right ?_, hindent, rfl, rfl⟩
      rintro rfl
      exact hindent rfl

end IndentWidth

/-! ## Runs with and without comments -/

namespace Lexer

open IndentWidth

variable {input : List UInt8} {options : Options} {on off : Lexer Text}

theorem placedTokens_eq_cons {σ : Type} [LineSource σ] (l : Lexer σ) (table : IdentTable) :
    ∃ rest, l.placedTokens table = (l.tokenOffset, (l.next table).token) :: rest := by
  by_cases h : (l.next table).token.kind = .eof
  · exact ⟨_, placedTokens_of_eof h⟩
  · exact ⟨_, placedTokens_of_ne_eof h⟩

/-- Where no ordinary comment comes first, both runs read one token, layout and all. -/
theorem next_of_not_ordinary (hon : on.options = options.retaining true)
    (hoff : off.options = options.retaining false) (hcursor : on.cursor = off.cursor)
    (hpending : on.pendingIndent = off.pendingIndent)
    (h : Comment.isOrdinary on.blank.cursor.rest = false) (table : IdentTable) :
    on.tokenOffset = off.tokenOffset ∧ (on.next table).token = (off.next table).token := by
  have hblank : on.blank = off.blank := by
    rw [blank, hon] at h
    rw [blank, blank, hon, hoff, ← hcursor]
    exact (Blank.scan_retaining 0 on.cursor h).symm
  have hread : TokenRead.scan on.options off.blank.cursor table =
      TokenRead.scan off.options off.blank.cursor table := by
    rw [hon, hoff]
    rfl
  refine ⟨by rw [tokenOffset, tokenOffset, hblank], ?_⟩
  simp only [next, hblank, hread, hpending]

/-- Behind a token, the run that retains comments meets an ordinary comment or the token that the
other run meets, and then it goes on from that token. -/
theorem exists_behind (hon : on.options = options.retaining true)
    (hoff : off.options = options.retaining false) (hcursor : on.cursor = off.cursor)
    (hpending : on.pendingIndent = off.pendingIndent) (hwithin : off.cursor.Within input)
    (table : IdentTable) :
    ∃ (l : Lexer Text) (p : Nat × Token), l.options = options.retaining true ∧
      l.blank.cursor = off.blank.cursor ∧
      (isOrdinaryComment input p = true ∨ p = (off.tokenOffset, (off.next table).token)) ∧
      ∀ q, behindOpeners (q :: on.placedTokens table) =
        (if q.2.kind.mayOpenBlock then [p] else []) ++ behindOpeners (l.placedTokens table) := by
  obtain ⟨l, ds, comments, hskimmed, hplace, -⟩ := exists_meeting hon hoff hcursor hwithin table
  have hl := hskimmed.options_eq.trans hon
  have hplaced := hskimmed.placedTokens_eq
  cases comments with
  | nil =>
    obtain rfl := hskimmed.eq_of_nil rfl
    have hnot : Comment.isOrdinary l.blank.cursor.rest = false := by
      rw [hplace]
      exact isOrdinary_blank hoff
    obtain ⟨hoffset, htoken⟩ := next_of_not_ordinary hon hoff hcursor hpending hnot table
    obtain ⟨rest, hrest⟩ := placedTokens_eq_cons l table
    refine ⟨l, _, hl, hplace, .inr rfl, fun q => ?_⟩
    rw [hrest, behindOpeners_cons_cons, hoffset, htoken]
  | cons p comments =>
    refine ⟨l, p, hl, hplace, .inl (hskimmed.isOrdinary p List.mem_cons_self), fun q => ?_⟩
    rw [hplaced, List.cons_append, behindOpeners_cons_cons, ← List.cons_append,
      behindOpeners_of_comments hskimmed.isOrdinary]

theorem alike_behindOpeners (hon : on.options = options.retaining true)
    (hoff : off.options = options.retaining false) (hcursor : on.cursor = off.cursor)
    (hpending : on.pendingIndent = off.pendingIndent) (hwithin : off.cursor.Within input)
    (table : IdentTable) {p q : Nat × Token} (hkind : p.2.kind = q.2.kind) :
    Alike input (behindOpeners (p :: on.placedTokens table))
      (behindOpeners (q :: off.placedTokens table)) := by
  induction off, table using runCases generalizing on p q with
  | eof off table heof =>
    obtain ⟨l, x, hl, hplace, hx, hbehind⟩ :=
      exists_behind hon hoff hcursor hpending hwithin table
    have hleof : (l.next table).token.kind = .eof := by
      rw [kind_next_eq_eof_iff, hplace, ← kind_next_eq_eof_iff]
      exact heof
    rw [hbehind, placedTokens_of_eof hleof, placedTokens_of_eof heof, behindOpeners_cons_cons,
      hkind]
    refine List.rel_append ?_ .nil
    split
    · exact .cons hx .nil
    · exact .nil
  | token off table hne ih =>
    obtain ⟨l, x, hl, hplace, hx, hbehind⟩ :=
      exists_behind hon hoff hcursor hpending hwithin table
    obtain ⟨htoken, htable, hnext, hnextPending, -⟩ := next_of_blank_cursor_eq hl hoff hplace table
    have hnextKind : (l.next table).token.kind = (off.next table).token.kind :=
      (Token.mk.inj htoken).1
    have hoptions : (l.next table).lexer.options = options.retaining true := hl
    have hlne : (l.next table).token.kind ≠ .eof := hnextKind ▸ hne
    rw [hbehind, placedTokens_of_ne_eof hlne, placedTokens_of_ne_eof hne, behindOpeners_cons_cons,
      hkind, htable]
    refine List.rel_append ?_ ?_
    · split
      · exact .cons hx .nil
      · exact .nil
    · exact ih hoptions hoff hnext hnextPending (advances_next hwithin hne).within hnextKind

/-- On any stream and whatever the other options, the width of the source is the first indentation
among the tokens directly behind openers of blocks, whether comments are retained or not. Opener by
opener these are the same tokens, unless an ordinary comment comes first and is retained. So the
widths differ only if an ordinary comment stands directly behind an opener, in front of which no
width is shown, and if the comment's indentation is not that of the token behind it. -/
theorem open?_indentWidth (file : FileId) (stream : ByteStream) (options : Options)
    (h : 0 < options.bufferSize) :
    ∃ on off, open? file stream (options.retaining true) = .ok on ∧
      open? file stream (options.retaining false) = .ok off ∧
      ∀ table,
        let ps := behindOpeners (on.placedTokens table)
        let qs := behindOpeners (off.placedTokens table)
        (ofLexer on table).width = shown ps ∧ (ofLexer off table).width = shown qs ∧
          Alike stream.bytes ps qs ∧
          ((ofLexer on table).width ≠ (ofLexer off table).width →
            ∃ k p q, ps[k]? = some p ∧ qs[k]? = some q ∧ isOrdinaryComment stream.bytes p = true ∧
              p.2.indent.getD 0 ≠ q.2.indent.getD 0 ∧
              shown (ps.take k) = 0 ∧ shown (qs.take k) = 0) := by
  have hon : 0 < (options.retaining true).bufferSize := h
  have hoff : 0 < (options.retaining false).bufferSize := h
  refine ⟨_, _, open?_eq_ok file stream _ hon, open?_eq_ok file stream _ hoff, fun table => ?_⟩
  have hwithin := within_ofText file (options.retaining false) stream.bytes
  have hcursor : (ofText file (options.retaining true) stream.bytes).cursor =
      (ofText file (options.retaining false) stream.bytes).cursor := rfl
  have halike := alike_behindOpeners rfl rfl hcursor rfl hwithin table
    (p := beginning) (q := beginning) rfl
  rw [behindOpeners_of_not_opens rfl, behindOpeners_of_not_opens rfl] at halike
  dsimp only
  rw [width_ofLexer, width_ofLexer, placedTokens_ofStream, placedTokens_ofStream]
  exact ⟨rfl, rfl, halike, halike.exists_comment⟩

/-- Ordinary comments elsewhere than behind an opener, and a documentation comment behind one. -/
def commentedOpeners : ByteStream :=
  .ofBytes (Utf8.encode "#[ a ]# b # c\nlet ## d\n  e\nvar\n    f # g")

theorem open?_indentWidth_commentedOpeners :
    0 < 1 ∧ ∃ on off,
      open? {} commentedOpeners ((Options.withWindow {} 1).retaining true) = .ok on ∧
      open? {} commentedOpeners ((Options.withWindow {} 1).retaining false) = .ok off ∧
      (ofLexer on .fresh).width = (ofLexer off .fresh).width ∧ (ofLexer off .fresh).width = 4 := by
  obtain ⟨on, off, hon, hoff, hwidths⟩ :=
    open?_indentWidth {} commentedOpeners (Options.withWindow {} 1) (by decide)
  obtain rfl := Except.ok.inj ((open?_eq_ok {} commentedOpeners _ (by decide)).symm.trans hon)
  obtain rfl := Except.ok.inj ((open?_eq_ok {} commentedOpeners _ (by decide)).symm.trans hoff)
  obtain ⟨-, hshown, -, hdiffer⟩ := hwidths .fresh
  refine ⟨by decide, _, _, hon, hoff, ?_, ?_⟩
  · by_contra hne
    obtain ⟨k, p, q, hp, -, hordinary, -⟩ := hdiffer hne
    rw [placedTokens_ofStream] at hp
    have hnone : ∀ p ∈ behindOpeners ((ofText {} ((Options.withWindow {} 1).retaining true)
        commentedOpeners.bytes).placedTokens .fresh),
        isOrdinaryComment commentedOpeners.bytes p = false := by decide +kernel
    rw [hnone p (List.mem_of_getElem? hp)] at hordinary
    cases hordinary
  · rw [hshown, placedTokens_ofStream]
    decide +kernel

/-- A block that starts with a comment of its own indentation. -/
def commentedBlock : ByteStream := .ofBytes (Utf8.encode "let\n  # a\n    b")

/-- The comment shows the width if it is retained, and the token behind it otherwise. -/
theorem open?_commentedBlock_width :
    ∃ on off, open? {} commentedBlock (Options.retaining {} true) = .ok on ∧
      open? {} commentedBlock (Options.retaining {} false) = .ok off ∧
      (ofLexer on .fresh).width = 2 ∧ (ofLexer off .fresh).width = 4 := by
  refine ⟨_, _, open?_eq_ok {} commentedBlock _ (by decide),
    open?_eq_ok {} commentedBlock _ (by decide), ?_, ?_⟩
  · rw [width_ofLexer, placedTokens_ofStream]
    decide +kernel
  · rw [width_ofLexer, placedTokens_ofStream]
    decide +kernel

end Lexer
end Lexeme
