import Lexeme.Proofs.Layout.BlockEnds
import Lexeme.Proofs.Lexer.CommentLines
import Lexeme.Proofs.Lexer.RetainedComments
import Lexeme.Proofs.Literal.PieceFindings

/-!
# Block comments end at their closers

Wherever a lexer on a stream starts a block comment, the bytes behind the opener tell where it ends,
and the end of the input is reported, once, if it is not closed. The blocks that are open inside are
counted in 32 bits, so that 2³² of them count as none. `Lexer.blocks` lists the block
comments that one call starts: those in front of the token, and the token itself if it is one. An
ordinary one that is a token has as its literal what the input has there, with a line feed for every
terminator.
-/

set_option autoImplicit false

namespace Lexeme

/-! ## Routes on sources that read alike -/

namespace Cursor

section Map

variable {σ τ : Type} [LineSource σ] [LineSource τ] (f : LineSource.Hom σ τ) {c : Cursor σ}

theorem Route.map {d : Cursor σ} (h : Route c d) : Route (c.map f) (d.map f) := by
  induction h with
  | refl => exact .refl _
  | @advance d _ n hn ih =>
    have hrest : (d.map f).rest = d.rest := rest_carry f.likeness 0 d
    exact ih.advance (hrest ▸ hn)
  | @nextLine d _ ih =>
    have hnext : (d.map f).nextLine = d.nextLine.map f := nextLine_carry f.likeness 0 d
    exact hnext ▸ ih.nextLine

/-- A route on the one source is a route on the other. -/
theorem Route.exists_map {d : Cursor τ} (h : Route (c.map f) d) :
    ∃ e, Route c e ∧ d = e.map f := by
  induction h with
  | refl => exact ⟨c, .refl c, rfl⟩
  | @advance d _ n hn ih =>
    obtain ⟨e, hroute, rfl⟩ := ih
    have hrest : (e.map f).rest = e.rest := rest_carry f.likeness 0 e
    rw [hrest] at hn
    exact ⟨e.advance n, hroute.advance hn, rfl⟩
  | nextLine _ ih =>
    obtain ⟨e, hroute, rfl⟩ := ih
    exact ⟨e.nextLine, hroute.nextLine, nextLine_carry f.likeness 0 e⟩

end Map

section Located

variable {input : List UInt8} {first : Nat} {c : Cursor Text}

/-- The position that the bytes tell of a cursor, the column going up to the last one there is. -/
theorem Located.position_eq_min (h : c.Located input first) :
    c.position = ⟨c.file, wrap32 (first + Text.breaksBefore input c.offset),
      min (c.offset - Text.lineStart input c.offset) Position.maxColumn⟩ := by
  obtain ⟨hbreaks, hstart⟩ := h.location_eq
  have hoff : c.offset = c.source.offset + c.column := rfl
  have hcolumn : c.column + 0 = c.offset - c.source.offset := by omega
  rw [position, positionAt, hbreaks, hstart, ← h.line_eq, hcolumn]

end Located
end Cursor

/-- The position behind the last byte of an input, the first line having the number `first`. -/
def Text.endPosition (file : FileId) (first : Nat) (input : List UInt8) : Position :=
  ⟨file, wrap32 (first + breaks input),
    min (input.length - lineStart input input.length) Position.maxColumn⟩

/-! ## One block -/

namespace BlockComment

section Opened

variable {σ τ : Type} [LineSource σ] [LineSource τ]

/-- The block comment whose opener stands at a cursor. -/
def opened (form : BlockForm) (limit : Nat) (c : Cursor σ) : BlockComment σ :=
  match form with
  | .ordinary => ordinary limit (c.advance 2)
  | .documentation => documentation limit (c.advance 3)

/-- A block comment whose contents start at an offset ends as the bytes of the input tell, and it is
reported at `place` if it is not closed. -/
structure EndsIn (input : List UInt8) (form : BlockForm) (s : Nat) (place : Position)
    (b : BlockComment σ) : Prop where
  ends : Text.BlockExtent form input s b.closed b.cursor.offset
  about_eq : Diagnostic.about .unterminatedComment b.diagnostics =
    if b.closed then [] else [⟨place, .unterminatedComment⟩]

theorem opened_carry (f : LineSource.Likeness σ τ) (n : Nat) (form : BlockForm) (limit : Nat)
    (c : Cursor σ) : opened form limit (c.carry f n) = (opened form limit c).carry f n := by
  cases form with
  | ordinary => exact ordinary_carry f n limit (c.advance 2)
  | documentation => exact documentation_carry f n limit (c.advance 3)

theorem endsIn_carry_iff (f : LineSource.Hom σ τ) {input : List UInt8} {form : BlockForm} {s : Nat}
    {place : Position} {b : BlockComment σ} :
    (b.carry f.likeness 0).EndsIn input form s place ↔ b.EndsIn input form s place := by
  have hoffset : (b.carry f.likeness 0).cursor.offset = b.cursor.offset :=
    Cursor.offset_map f b.cursor
  have hdiagnostics : (b.carry f.likeness 0).diagnostics = b.diagnostics :=
    Diagnostic.map_below_zero b.diagnostics
  constructor
  · rintro ⟨hends, habout⟩
    rw [hoffset] at hends
    rw [hdiagnostics] at habout
    exact ⟨hends, habout⟩
  · rintro ⟨hends, habout⟩
    refine ⟨?_, ?_⟩
    · rw [hoffset]
      exact hends
    · rw [hdiagnostics]
      exact habout

theorem about_opened (form : BlockForm) (limit : Nat) (c : Cursor σ) :
    Diagnostic.about .unterminatedComment (opened form limit c).diagnostics =
      if (opened form limit c).closed then []
      else [(opened form limit c).cursor.report .unterminatedComment] := by
  cases form with
  | ordinary => exact about_scan _ _ _ _ _
  | documentation => exact about_documentation _ _

theorem route_opened {form : BlockForm} {c : Cursor σ} (limit : Nat)
    (hopener : form.opener <+: c.rest) : Cursor.Route c (opened form limit c).cursor := by
  have hopen := Cursor.route_advance hopener.length_le
  cases form with
  | ordinary => exact hopen.trans (route_scan _ _ _ _ _)
  | documentation => exact hopen.trans (route_documentation _ _)

end Opened

section Text

variable {input : List UInt8} {first : Nat} {form : BlockForm} {c : Cursor Text}

theorem ends_opened (limit : Nat) (h : c.Within input) (hopener : form.opener <+: c.rest) :
    Text.BlockExtent form input (c.offset + form.opener.length) (opened form limit c).closed
      (opened form limit c).cursor.offset := by
  have hopen := h.advance hopener.length_le
  rw [← Cursor.offset_advance]
  cases form with
  | ordinary => exact (ends_scan .ordinary limit 0 0 hopen 0 rfl).extent
  | documentation => exact (ends_documentation limit hopen).extent

theorem endsIn_opened (limit : Nat) (h : c.Located input first)
    (hopener : form.opener <+: c.rest) :
    (opened form limit c).EndsIn input form (c.offset + form.opener.length)
      (Text.endPosition c.file first input) where
  ends := ends_opened limit h.within hopener
  about_eq := by
    have hends := ends_opened limit h.within hopener
    have hroute := route_opened limit hopener
    rw [about_opened]
    cases hclosed : (opened form limit c).closed with
    | true => rfl
    | false =>
      rw [hclosed] at hends
      rw [Cursor.report, (hroute.located h).position_eq_min, hends.counted.eq_length,
        hroute.file_eq]
      rfl

end Text
end BlockComment

/-! ## The blocks of a call -/

/-- The form of the block comment that a line goes on with, if there is one. -/
def Comment.blockForm? (line : List UInt8) : Option BlockForm :=
  if BlockForm.documentation.opener.isPrefixOf line then some .documentation
  else if BlockForm.ordinary.opener.isPrefixOf line then some .ordinary
  else none

section Calls

variable {σ : Type} [LineSource σ]

namespace Blank

/-- Where the block comments stand that are passed over in front of a token. -/
def openers (options : Options) (c : Cursor σ) : List (Cursor σ) :=
  match _hend : (run options 0 c).ending with
  | .token => []
  | .block => c.advance (run options 0 c).length :: openers options (block options 0 c).cursor
  | .lineEnd => if _hlast : c.isLast then [] else openers options c.nextLine
termination_by c.unread
decreasing_by
  · have hlt := BlankRun.length_scan_lt options 0 0 c.rest _hend
    refine Nat.lt_of_le_of_lt (BlockComment.unread_ordinary_le _ _) ?_
    refine Nat.lt_of_lt_of_le (Cursor.unread_advance_lt (by decide) ?_)
      (Cursor.unread_advance_le c _)
    intro hn
    rw [Cursor.rest_advance, List.drop_eq_nil_iff, run] at hn
    omega
  · exact Cursor.unread_nextLine_lt (by simpa using _hlast)

variable {options : Options} {c : Cursor σ}

theorem openers_of_token (h : (run options 0 c).ending = .token) : openers options c = [] := by
  rw [openers]
  split <;> rename_i he <;> rw [h] at he <;> cases he

theorem openers_of_block (h : (run options 0 c).ending = .block) :
    openers options c =
      c.advance (run options 0 c).length :: openers options (block options 0 c).cursor := by
  rw [openers]
  split <;> rename_i he <;> rw [h] at he <;> cases he

theorem openers_of_lineEnd (h : (run options 0 c).ending = .lineEnd) :
    openers options c = if c.isLast then [] else openers options c.nextLine := by
  rw [openers]
  split <;> rename_i he <;> rw [h] at he <;> cases he
  rfl

theorem opener_of_run (h : (run options 0 c).ending = .block) :
    BlockForm.ordinary.opener <+: (c.advance (run options 0 c).length).rest := by
  have hstop := stopsAt_run options 0 c
  rw [h] at hstop
  exact hstop

theorem route_of_mem_openers {s : Cursor σ} (h : s ∈ openers options c) :
    Cursor.Route c s ∧ BlockForm.ordinary.opener <+: s.rest := by
  fun_induction openers options c with
  | case1 c hend => exact absurd h List.not_mem_nil
  | case2 c hend ih =>
    have hrun := Cursor.route_advance (length_run_le options 0 c)
    have hopener := opener_of_run hend
    rcases List.mem_cons.1 h with rfl | hmem
    · exact ⟨hrun, hopener⟩
    · obtain ⟨hroute, hs⟩ := ih hmem
      have hblock := BlockComment.route_opened options.maxLineLength hopener
      exact ⟨(hrun.trans hblock).trans hroute, hs⟩
  | case3 c hend hlast => exact absurd h List.not_mem_nil
  | case4 c hend hlast ih =>
    obtain ⟨hroute, hs⟩ := ih h
    exact ⟨c.route_nextLine.trans hroute, hs⟩

/-- What blanks complain about unclosed comments comes from the blocks among them. -/
theorem Leads.about_eq {d : Cursor σ} {ds : List Diagnostic} (h : Leads options c ds d) :
    Diagnostic.about .unterminatedComment ds = (openers options c).flatMap fun s =>
      Diagnostic.about .unterminatedComment
        (BlockComment.opened .ordinary options.maxLineLength s).diagnostics := by
  have hfound : ∀ c : Cursor σ, Diagnostic.about .unterminatedComment
      ((run options 0 c).findings.map c.locate) = [] := by
    intro c
    refine Diagnostic.about_eq_nil (List.forall_mem_map.2 fun f hf => ?_)
    change f.message ≠ _
    rw [BlankRun.message_scan options 0 0 c.rest f hf]
    exact Message.noConfusion
  induction h with
  | @token c hend =>
    rw [hfound, openers_of_token hend, List.flatMap_nil]
  | @last c hend hlast =>
    rw [hfound, openers_of_lineEnd hend, if_pos hlast, List.flatMap_nil]
  | @block c d ds hend hrest ih =>
    rw [Diagnostic.about_append, Diagnostic.about_append, hfound, ih, openers_of_block hend,
      List.flatMap_cons]
    rfl
  | @line c d ds hend hlast hrest ih =>
    rw [Diagnostic.about_append, Diagnostic.about_append, hfound, c.about_lengthHint, ih,
      openers_of_lineEnd hend, if_neg (Bool.eq_false_iff.1 hlast)]
    rfl

end Blank

namespace Comment

variable {limit : Nat} {c : Cursor σ}

theorem blockForm?_eq_some_iff {line : List UInt8} {form : BlockForm} :
    blockForm? line = some form ↔ form.opener <+: line := by
  have hboth : BlockForm.documentation.opener <+: line →
      ¬BlockForm.ordinary.opener <+: line := by
    rintro ⟨more, rfl⟩ hordinary
    obtain ⟨rest, hrest⟩ := hordinary
    cases hrest
  rw [blockForm?]
  by_cases hdoc : BlockForm.documentation.opener <+: line
  · rw [if_pos (List.isPrefixOf_iff_prefix.2 hdoc)]
    cases form with
    | ordinary => exact iff_of_false nofun (hboth hdoc)
    | documentation => exact iff_of_true rfl hdoc
  · rw [if_neg (mt List.isPrefixOf_iff_prefix.1 hdoc)]
    by_cases hordinary : BlockForm.ordinary.opener <+: line
    · rw [if_pos (List.isPrefixOf_iff_prefix.2 hordinary)]
      cases form with
      | ordinary => exact iff_of_true rfl hordinary
      | documentation => exact iff_of_false nofun hdoc
    · rw [if_neg (mt List.isPrefixOf_iff_prefix.1 hordinary)]
      cases form with
      | ordinary => exact iff_of_false nofun hordinary
      | documentation => exact iff_of_false nofun hdoc

theorem scan_of_documentation (hopener : BlockForm.documentation.opener <+: c.rest) :
    scan limit c = ofBlock (BlockComment.opened .documentation limit c) := by
  rw [scan, if_pos (List.isPrefixOf_iff_prefix.2 hopener)]
  rfl

theorem cursor_scan_of_opener (limit : Nat) {form : BlockForm} (hopener : form.opener <+: c.rest) :
    (scan limit c).cursor = (BlockComment.opened form limit c).cursor := by
  cases form with
  | ordinary =>
    rw [(scan_of_opener limit hopener).2]
    rfl
  | documentation =>
    rw [scan_of_documentation hopener]
    rfl

theorem about_documentationLines (limit strip : Nat) (c : Cursor σ) :
    Diagnostic.about .unterminatedComment (documentationLines limit strip c).diagnostics = [] := by
  fun_induction documentationLines limit strip c with
  | case1 c hlast => rfl
  | case2 c hlast indent next hdoc more ih =>
    rw [Diagnostic.about_append, c.about_lengthHint]
    exact ih
  | case3 c hlast indent next hdoc => exact c.about_lengthHint limit

/-- A comment complains of no end if it is a block that complains. -/
theorem about_scan (limit : Nat) (c : Cursor σ) :
    Diagnostic.about .unterminatedComment (scan limit c).diagnostics =
      (blockForm? c.rest).toList.flatMap fun form => Diagnostic.about .unterminatedComment
        (BlockComment.opened form limit c).diagnostics := by
  unfold scan blockForm?
  split
  · exact (List.flatMap_singleton _ _).symm
  · split
    · rename_i hdoc
      have hordinary : ¬BlockForm.ordinary.opener.isPrefixOf c.rest = true := by
        intro hopener
        obtain ⟨more, hmore⟩ := List.isPrefixOf_iff_prefix.1 hopener
        rw [← hmore] at hdoc
        cases hdoc
      rw [if_neg hordinary]
      exact about_documentationLines limit _ _
    · split
      · exact (List.flatMap_singleton _ _).symm
      · rfl

end Comment

theorem TokenRead.about_scan_comment (options : Options) (c : Cursor σ) (table : IdentTable) :
    Diagnostic.about .unterminatedComment (scan options c table).diagnostics =
      (Comment.blockForm? c.rest).toList.flatMap fun form =>
        Diagnostic.about .unterminatedComment
          (BlockComment.opened form options.maxLineLength c).diagnostics := by
  have hnone : ∀ {b rest}, c.rest = b :: rest → b ≠ Byte.hash →
      Comment.blockForm? c.rest = none := by
    intro b rest hrest hb
    rw [Option.eq_none_iff_forall_ne_some]
    intro form hform
    have hhead := BlockForm.head?_of_opener (Comment.blockForm?_eq_some_iff.1 hform)
    rw [hrest] at hhead
    exact hb (Option.some.inj hhead)
  cases way c with
  | nil hrest =>
    rw [scan_of_nil options hrest, hrest]
    rfl
  | comment rest hrest =>
    rw [scan_of_hash options hrest]
    exact Comment.about_scan options.maxLineLength c
  | triple o ho ht =>
    obtain ⟨b, rest, hrest, hb⟩ := exists_cons_of_ofLine? ho
    rw [scan_of_triple options ho ht, hnone hrest hb]
    refine Diagnostic.about_eq_nil (List.forall_mem_append.2 ⟨fun d hd => ?_, fun d hd => ?_⟩)
    · rw [TripleString.message_scan _ _ d hd]
      exact Message.noConfusion
    · split at hd
      · cases hd
      · obtain rfl := List.mem_singleton.1 hd
        exact Message.noConfusion
  | string o ho ht =>
    obtain ⟨b, rest, hrest, hb⟩ := exists_cons_of_ofLine? ho
    rw [scan_of_string options ho ht, hnone hrest hb]
    exact Diagnostic.about_eq_nil_of_class (p := Message.isPiece) rfl
      (List.forall_mem_map.2 (Piece.aboutPiece_ofString _ o c.rest))
  | bytes b rest hrest hb ho =>
    rw [scan_of_bytes options hrest hb ho, hnone hrest hb]
    exact Diagnostic.about_eq_nil_of_class (p := Message.isPiece) rfl
      (List.forall_mem_map.2 (Piece.aboutPiece_ofBytes _ b rest))

namespace Lexer

/-- The block comments that a call meets, each by its form and the place of its opener: those in
front of the token, and the token if it is one. -/
def blocks (l : Lexer σ) : List (BlockForm × Cursor σ) :=
  (Blank.openers l.options l.cursor).map (BlockForm.ordinary, ·) ++
    (Comment.blockForm? l.blank.cursor.rest).toList.map (·, l.blank.cursor)

variable {l : Lexer σ}

theorem route_of_mem_blocks {b : BlockForm × Cursor σ} (h : b ∈ l.blocks) :
    Cursor.Route l.cursor b.2 ∧ b.1.opener <+: b.2.rest := by
  rcases List.mem_append.1 h with hmem | hmem
  · obtain ⟨s, hs, rfl⟩ := List.mem_map.1 hmem
    exact Blank.route_of_mem_openers hs
  · obtain ⟨form, hform, rfl⟩ := List.mem_map.1 hmem
    exact ⟨route_blank l, Comment.blockForm?_eq_some_iff.1 (Option.mem_toList.1 hform)⟩

/-- What a call complains about unclosed comments is what its blocks complain. -/
theorem about_next (l : Lexer σ) (table : IdentTable) :
    Diagnostic.about .unterminatedComment (l.next table).diagnostics = l.blocks.flatMap fun b =>
      Diagnostic.about .unterminatedComment
        (BlockComment.opened b.1 l.options.maxLineLength b.2).diagnostics := by
  have hblank := (Blank.leads_scan l.options 0 l.cursor).about_eq
  have htoken := TokenRead.about_scan_comment l.options l.blank.cursor table
  rw [blocks, List.flatMap_append, List.flatMap_map, List.flatMap_map, next,
    Diagnostic.about_append]
  exact congr (congrArg _ hblank) htoken

end Lexer
end Calls

/-! ## Blocks that are tokens -/

/-- The bytes between two offsets. -/
def Text.slice (input : List UInt8) (p q : Nat) : List UInt8 := (input.drop p).take (q - p)

section Text

variable {input : List UInt8} {c : Cursor Text}

/-- The text of an ordinary block is what the input has there. -/
theorem Comment.text_scan_of_opener (limit : Nat) (h : c.Within input)
    (hopener : BlockForm.ordinary.opener <+: c.rest) :
    (scan limit c).text = Text.unify (Text.slice input c.offset (scan limit c).cursor.offset) := by
  have hopen : (c.advance 2).Within input := h.advance hopener.length_le
  obtain ⟨n, hoffset, htext⟩ := BlockComment.unify_scan .ordinary limit 0 hopen
  rw [Cursor.offset_advance, Nat.add_assoc] at hoffset
  obtain ⟨more, hmore⟩ := hopener
  have htake : (input.drop c.offset).take (2 + n) =
      BlockForm.ordinary.opener ++ (input.drop (c.advance 2).offset).take n := by
    have hdrop := h.rest_append
    rw [← hmore, List.append_assoc] at hdrop
    have hlength : 2 = BlockForm.ordinary.opener.length := rfl
    rw [Cursor.offset_advance, ← List.drop_drop, ← hdrop, hlength, List.take_length_add_append,
      List.drop_left]
  rw [(scan_of_opener limit ⟨more, hmore⟩).2]
  change BlockForm.ordinary.opener ++ _ ++ _ = Text.unify ((input.drop c.offset).take
    ((BlockComment.scan .ordinary limit 0 0 (c.advance 2)).cursor.offset - c.offset))
  rw [hoffset, Nat.add_sub_cancel_left, htake,
    Text.unify_append BlockForm.ordinary.isText_opener, htext, List.append_assoc]
  rfl

namespace Lexer

variable {form : BlockForm} {l : Lexer Text}

/-- A call whose token starts with an opener reads the block. -/
theorem next_of_opener (hl : l.cursor.Within input) (table : IdentTable)
    (hopener : form.opener <+: input.drop l.tokenOffset) :
    (l.next table).token.kind = .comment ∧
      (∃ closed, Text.BlockExtent form input (l.tokenOffset + form.opener.length) closed
        (l.next table).lexer.cursor.offset) ∧
      (form = .ordinary →
        (l.next table).token.literal =
          Text.unify (Text.slice input l.tokenOffset (l.next table).lexer.cursor.offset) ∧
        (l.next table).token.int =
          Text.breaks (Text.slice input l.tokenOffset (l.next table).lexer.cursor.offset)) := by
  have hwithin := (passes_blank hl).within
  have hline : form.opener <+: l.blank.cursor.rest := by
    rw [hwithin.rest_eq]
    exact (Line.prefix_first_iff form.isText_opener).2 hopener
  obtain ⟨rest, hrest⟩ := List.head?_eq_some_iff.1 (BlockForm.head?_of_opener hline)
  have hread := TokenRead.scan_of_hash l.options hrest table
  have hends := BlockComment.ends_opened l.options.maxLineLength hwithin hline
  rw [next, hread]
  rw [← Comment.cursor_scan_of_opener _ hline] at hends
  refine ⟨rfl, ⟨_, hends⟩, ?_⟩
  · rintro rfl
    have htext := Comment.text_scan_of_opener l.options.maxLineLength hwithin hline
    have hcount := (Comment.unified_scan l.options.maxLineLength hwithin).count_eq
    rw [htext, Text.count_lf_unify] at hcount
    exact ⟨htext, congrArg Nat.cast hcount.symm⟩

end Lexer
end Text

namespace Lexer

/-- A call of a run on an input reads a block comment: it ends as the bytes tell, and an ordinary
one has what the input has there as its literal, and the number of its terminators. -/
structure ReadsBlock {σ : Type} [LineSource σ] (l : Lexer σ) (input : List UInt8)
    (tables : Nat → IdentTable) (k : Nat) (form : BlockForm) : Prop where
  kind_eq : (l.turn tables k).token.kind = .comment
  ends : ∃ closed, Text.BlockExtent form input
    ((l.reached tables k).tokenOffset + form.opener.length) closed
    (l.reached tables (k + 1)).cursor.offset
  ordinary : form = .ordinary →
    (l.turn tables k).token.literal = Text.unify (Text.slice input
      (l.reached tables k).tokenOffset (l.reached tables (k + 1)).cursor.offset) ∧
    (l.turn tables k).token.int = Text.breaks (Text.slice input
      (l.reached tables k).tokenOffset (l.reached tables (k + 1)).cursor.offset)

/-- A block comment at any place that a lexer on a stream may get to. -/
theorem endsIn_of_route {file : FileId} {stream : ByteStream} {options : Options}
    (h : 0 < options.bufferSize) {form : BlockForm} (limit : Nat) {c : Cursor Reader}
    (hroute : Cursor.Route ((ofStream file stream options h).map SoundReader.toReader).cursor c)
    (hopener : form.opener <+: c.rest) :
    (BlockComment.opened form limit c).EndsIn stream.bytes form (c.offset + form.opener.length)
      (Text.endPosition file (1 + options.lineOffset) stream.bytes) := by
  obtain ⟨d, hd, rfl⟩ := Cursor.Route.exists_map SoundReader.toReader hroute
  have htext := hd.map SoundReader.toText
  have hstart : (ofStream file stream options h).cursor.map SoundReader.toText =
      (ofText file options stream.bytes).cursor :=
    congrArg Lexer.cursor (map_toText_ofStream file stream options h)
  rw [hstart] at htext
  have hlocated := htext.located (located_ofText file options stream.bytes)
  have hline : form.opener <+: (d.map SoundReader.toText).rest := by
    have hreader : (d.map SoundReader.toReader).rest = d.rest :=
      Cursor.rest_carry SoundReader.toReader.likeness 0 d
    have htext : (d.map SoundReader.toText).rest = d.rest :=
      Cursor.rest_carry SoundReader.toText.likeness 0 d
    rwa [htext, ← hreader]
  have hends := BlockComment.endsIn_opened limit hlocated hline
  rw [Cursor.map_eq_carry, BlockComment.opened_carry, BlockComment.endsIn_carry_iff,
    ← Cursor.map_eq_carry, Cursor.offset_map, htext.file_eq] at hends
  rw [Cursor.map_eq_carry, BlockComment.opened_carry, BlockComment.endsIn_carry_iff,
    ← Cursor.map_eq_carry, Cursor.offset_map]
  exact hends

/-- Wherever a lexer on a stream may get to, a block comment ends behind the first closer at depth
0, or at the end of the input, which is reported once then; depths are counted in 32 bits, and
exactly if there are fewer openers. The blocks that a call meets are at such places, and they are
all that it complains about. A token that starts with an opener is a block, and an ordinary one is
as the input has it, with a line feed for every terminator. -/
theorem open?_blockComments (file : FileId) (stream : ByteStream) (options : Options)
    (h : 0 < options.bufferSize) :
    ∃ l, open? file stream options = .ok l ∧
      (∀ form c, Cursor.Route l.cursor c → form.opener <+: c.rest →
        (BlockComment.opened form options.maxLineLength c).EndsIn stream.bytes form
          (c.offset + form.opener.length)
          (Text.endPosition file (1 + options.lineOffset) stream.bytes)) ∧
      ∀ tables k,
        (∀ b ∈ (l.reached tables k).blocks,
          Cursor.Route l.cursor b.2 ∧ b.1.opener <+: b.2.rest) ∧
        Diagnostic.about .unterminatedComment (l.turn tables k).diagnostics =
          (l.reached tables k).blocks.flatMap (fun b =>
            Diagnostic.about .unterminatedComment
              (BlockComment.opened b.1 options.maxLineLength b.2).diagnostics) ∧
        ∀ form : BlockForm, form.opener <+: stream.bytes.drop (l.reached tables k).tokenOffset →
          l.ReadsBlock stream.bytes tables k form := by
  refine ⟨_, open?_eq_ok file stream options h, fun form c hroute hopener => ?_,
    fun tables k => ⟨fun b hb => ?_, ?_, fun form hopener => ?_⟩⟩
  · exact endsIn_of_route h options.maxLineLength hroute hopener
  · obtain ⟨hroute, hopener⟩ := route_of_mem_blocks hb
    exact ⟨(route_reached _ tables k).trans hroute, hopener⟩
  · have habout := about_next (((ofStream file stream options h).map
      SoundReader.toReader).reached tables k) (tables k)
    rw [options_reached] at habout
    exact habout
  · rw [tokenOffset_reached_ofStream] at hopener
    have hwithin := within_reached (within_ofText file options stream.bytes) tables k
    obtain ⟨hkind, hends, hordinary⟩ := next_of_opener hwithin (tables k) hopener
    constructor
    · rw [token_turn_ofStream]
      exact hkind
    · rw [tokenOffset_reached_ofStream, offset_reached_ofStream]
      exact hends
    · rw [token_turn_ofStream, tokenOffset_reached_ofStream, offset_reached_ofStream]
      exact hordinary

/-- A block with another one inside, over a terminator that windows split, and right behind it one
that is not closed. -/
def nestedBlocks : ByteStream :=
  ⟨[.chunk 35 [91, 97, 35, 91, 13], .interruption, .chunk 10 [93, 35, 93], .chunk 35 [35, 91]],
    .closed⟩

theorem open?_blockComments_nestedBlocks :
    0 < 1 ∧ ∃ l, open? {} nestedBlocks { bufferSize := 1, retainComments := true } = .ok l ∧
      BlockForm.ordinary.opener <+: nestedBlocks.bytes.drop
        (l.reached (fun _ => .fresh) 0).tokenOffset ∧
      (l.turn (fun _ => .fresh) 0).token.literal = [35, 91, 97, 35, 91, 10, 93, 35, 93, 35] ∧
      (l.turn (fun _ => .fresh) 0).token.int = 1 ∧
      BlockForm.ordinary.opener <+: nestedBlocks.bytes.drop
        (l.reached (fun _ => .fresh) 1).tokenOffset ∧
      l.ReadsBlock nestedBlocks.bytes (fun _ => .fresh) 1 .ordinary ∧
      Diagnostic.about .unterminatedComment (l.turn (fun _ => .fresh) 1).diagnostics =
        [⟨Text.endPosition {} 1 nestedBlocks.bytes, .unterminatedComment⟩] := by
  obtain ⟨l, hopen, -, hcalls⟩ := open?_blockComments {} nestedBlocks
    { bufferSize := 1, retainComments := true } (by decide)
  obtain rfl := Except.ok.inj ((open?_eq_ok _ _ _ (by decide)).symm.trans hopen)
  have htext : let l := ofText {} { bufferSize := 1, retainComments := true } nestedBlocks.bytes
      (l.reached (fun _ => .fresh) 0).tokenOffset = 0 ∧
        (l.reached (fun _ => .fresh) 1).cursor.offset = 11 ∧
        (l.reached (fun _ => .fresh) 1).tokenOffset = 11 ∧
        Diagnostic.about .unterminatedComment (l.turn (fun _ => .fresh) 1).diagnostics =
          [⟨Text.endPosition {} 1 nestedBlocks.bytes, .unterminatedComment⟩] := by
    decide +kernel
  obtain ⟨hfirst, hbehind, hsecond, habout⟩ := htext
  rw [← tokenOffset_reached_ofStream _ _ _ (by decide)] at hfirst hsecond
  rw [← offset_reached_ofStream _ _ _ (by decide)] at hbehind
  rw [← diagnostics_turn_ofStream _ _ _ (by decide)] at habout
  have hopener : BlockForm.ordinary.opener <+: nestedBlocks.bytes.drop 0 := by decide
  have hopener' : BlockForm.ordinary.opener <+: nestedBlocks.bytes.drop 11 := by decide
  rw [← hfirst] at hopener
  rw [← hsecond] at hopener'
  obtain ⟨hliteral, hint⟩ := ((hcalls (fun _ => .fresh) 0).2.2 .ordinary hopener).ordinary rfl
  rw [hfirst, hbehind] at hliteral hint
  exact ⟨by decide, _, hopen, hopener, hliteral, hint, hopener',
    (hcalls (fun _ => .fresh) 1).2.2 .ordinary hopener', habout⟩

end Lexer

/-! ## More blocks than can be counted -/

namespace BlockForm

/-- Openers of blocks, one behind the other. -/
def openers (n : Nat) : List UInt8 := (List.replicate n ordinary.opener).flatten

theorem openers_succ (n : Nat) : openers (n + 1) = ordinary.opener ++ openers n := rfl

theorem ne_of_mem_openers {n : Nat} {b : UInt8} (h : b ∈ openers n) : b ≠ Byte.bracketRight := by
  obtain ⟨bytes, hbytes, hb⟩ := List.mem_flatten.1 h
  rw [List.eq_of_mem_replicate hbytes] at hb
  have hall : ordinary.opener.all (· != Byte.bracketRight) = true := by decide
  exact bne_iff_ne.1 (List.all_eq_true.1 hall b hb)

theorem depth_openers (n : Nat) (t : List UInt8) :
    ordinary.depth (openers n ++ t) (openers n).length = n := by
  induction n with
  | zero => rfl
  | succ n ih =>
    rw [openers_succ, List.append_assoc, List.length_append, depth_add, depth_opener,
      List.drop_left, ih, Int.add_comm]
    rfl

/-- The closer behind `n` openers closes the comment in front if `n` counts as 0. -/
theorem closesAt_openers_iff (modulus n i : Nat) :
    ordinary.ClosesAt modulus (openers n ++ ordinary.closer) 0 i ↔
      i = (openers n).length ∧ modulus ∣ n := by
  constructor
  · intro h
    have hle := h.add_length_le
    have hbehind : ¬i < (openers n).length :=
      fun hi => not_closer_of_run (fun _ => ne_of_mem_openers) _ hi h.1
    rw [List.length_append] at hle
    obtain rfl : i = (openers n).length := by omega
    have hdvd := h.2
    rw [depth_openers, Int.zero_add] at hdvd
    exact ⟨rfl, Int.natCast_dvd_natCast.1 hdvd⟩
  · rintro ⟨rfl, hdvd⟩
    rw [ClosesAt, List.drop_left, depth_openers, Int.zero_add]
    exact ⟨List.prefix_rfl, Int.natCast_dvd_natCast.2 hdvd⟩

end BlockForm

/-- A comment with openers of blocks inside and one closer. -/
def Text.unclosed (n : Nat) : List UInt8 :=
  BlockForm.ordinary.opener ++ (BlockForm.openers n ++ BlockForm.ordinary.closer)

namespace Text

theorem blockEnds_unclosed_of_dvd {modulus n : Nat} (h : modulus ∣ n) :
    BlockEnds .ordinary modulus (unclosed n) 0 2 true (unclosed n).length := by
  have hdrop : (unclosed n).drop 2 = BlockForm.openers n ++ BlockForm.ordinary.closer := rfl
  have hcloses : BlockForm.ordinary.ClosesAt modulus ((unclosed n).drop 2) 0
      (BlockForm.openers n).length :=
    hdrop ▸ (BlockForm.closesAt_openers_iff modulus n _).2 ⟨rfl, h⟩
  have hends := BlockEnds.closed hcloses fun i hi hbefore => by
    rw [hdrop] at hbefore
    exact Nat.ne_of_lt hi ((BlockForm.closesAt_openers_iff modulus n i).1 hbefore).1
  have hlength : (unclosed n).length =
      2 + (BlockForm.openers n).length + BlockForm.ordinary.closer.length := by
    rw [unclosed, List.length_append, List.length_append, ← Nat.add_assoc]
    rfl
  rw [← hlength] at hends
  exact hends

theorem blockEnds_unclosed_of_not_dvd {modulus n : Nat} (h : ¬modulus ∣ n) :
    BlockEnds .ordinary modulus (unclosed n) 0 2 false (unclosed n).length :=
  .unterminated fun i hcloses => h ((BlockForm.closesAt_openers_iff modulus n i).1 hcloses).2

end Text

namespace Lexer

/-- The comment in front is read as a token, and complained about by the count in 32 bits. -/
theorem next_unclosed (options : Options) (hretain : options.retainComments = true) {n : Nat}
    (hn : pow2 32 ∣ n) (table : IdentTable) :
    (ofText {} options (Text.unclosed n)).tokenOffset = 0 ∧
      ((ofText {} options (Text.unclosed n)).next table).token.kind = .comment ∧
      Diagnostic.about .unterminatedComment
        ((ofText {} options (Text.unclosed n)).next table).diagnostics = [] := by
  have hlocated := located_ofText {} options (Text.unclosed n)
  have hoffset : (ofText {} options (Text.unclosed n)).cursor.offset = 0 := by
    have hsource : Text.ofBytes (Text.unclosed n) = ⟨0, Text.unclosed n⟩ :=
      if_neg Bool.false_ne_true
    exact congrArg Text.offset hsource
  have hopener :
      BlockForm.ordinary.opener <+: (ofText {} options (Text.unclosed n)).cursor.rest := by
    rw [hlocated.within.rest_eq, hoffset]
    exact (Line.prefix_first_iff BlockForm.ordinary.isText_opener).2 (List.prefix_append _ _)
  obtain ⟨more, hmore⟩ := hopener
  have hstart : Indentation.startsToken options
      (ofText {} options (Text.unclosed n)).cursor.rest = true := by
    rw [← hmore, Indentation.startsToken, hretain, Bool.or_true]
    rfl
  have hrun : Blank.run options 0 (ofText {} options (Text.unclosed n)).cursor =
      ⟨0, 0, .token, []⟩ := BlankRun.scan_of_startsToken hstart 0 0
  have hblank : (ofText {} options (Text.unclosed n)).blank.cursor =
      (ofText {} options (Text.unclosed n)).cursor :=
    (blank_eq_of_leads (.here hstart)).2
  have hends := BlockComment.endsIn_opened options.maxLineLength hlocated ⟨more, hmore⟩
  have hcounted := hends.ends.counted
  rw [hoffset] at hcounted
  obtain ⟨hclosed, -⟩ := hcounted.unique (Text.blockEnds_unclosed_of_dvd hn)
  have habout := hends.about_eq
  rw [hclosed] at habout
  have hblocks : (ofText {} options (Text.unclosed n)).blocks =
      [(.ordinary, (ofText {} options (Text.unclosed n)).cursor)] := by
    have hopeners : Blank.openers options (ofText {} options (Text.unclosed n)).cursor = [] :=
      Blank.openers_of_token (by rw [hrun])
    have hform := Comment.blockForm?_eq_some_iff.2 (⟨more, hmore⟩ : BlockForm.ordinary.opener <+: _)
    rw [blocks, hblank, hform]
    change (Blank.openers options _).map _ ++ _ = _
    rw [hopeners]
    rfl
  refine ⟨?_, ?_, ?_⟩
  · rw [tokenOffset, hblank, hoffset]
  · refine (TokenRead.kind_scan_eq_comment_iff _ _ table).2 ?_
    rw [hblank, ← hmore]
    rfl
  · rw [about_next, hblocks, List.flatMap_singleton]
    exact habout

/-- A comment without an end, on two lines. -/
def openLines : ByteStream := .ofBytes [35, 91, 10]

/-- With 2³² blocks open inside, the next closer ends the comment, and no end is missed. Behind the
last line that can be counted, a missing end is reported on line 0. -/
theorem open?_blockComments_uncounted :
    (Text.BlockEnds .ordinary 0 (Text.unclosed (pow2 32)) 0 2 false
        (Text.unclosed (pow2 32)).length ∧
      ∃ l, open? {} (.ofBytes (Text.unclosed (pow2 32))) { retainComments := true } = .ok l ∧
        (l.turn (fun _ => .fresh) 0).token.kind = .comment ∧
        (l.reached (fun _ => .fresh) 0).tokenOffset = 0 ∧
        Diagnostic.about .unterminatedComment (l.turn (fun _ => .fresh) 0).diagnostics = []) ∧
    ∃ l, open? {} openLines { lineOffset := 4294967294 } = .ok l ∧
      Diagnostic.about .unterminatedComment (l.turn (fun _ => .fresh) 0).diagnostics =
        [⟨⟨{}, 0, 0⟩, .unterminatedComment⟩] := by
  obtain ⟨hoffset, hkind, habout⟩ :=
    next_unclosed { retainComments := true } rfl (Nat.dvd_refl (pow2 32)) .fresh
  rw [← ByteStream.bytes_ofBytes (Text.unclosed (pow2 32))] at hoffset hkind habout
  refine ⟨⟨Text.blockEnds_unclosed_of_not_dvd fun hdvd => ?_, _,
    open?_eq_ok {} _ { retainComments := true } (by decide), ?_, ?_, ?_⟩,
    _, open?_eq_ok {} openLines { lineOffset := 4294967294 } (by decide), ?_⟩
  · exact absurd (Nat.zero_dvd.1 hdvd) (by decide)
  · rw [token_turn_ofStream]
    exact hkind
  · rw [tokenOffset_reached_ofStream]
    exact hoffset
  · rw [diagnostics_turn_ofStream]
    exact habout
  · rw [diagnostics_turn_ofStream]
    decide +kernel

end Lexer
end Lexeme
