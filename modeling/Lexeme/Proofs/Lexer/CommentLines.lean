import Lexeme.Proofs.Layout.BlockEnds
import Lexeme.Proofs.Lexer.Positions

/-!
# The lines of comments

The four ways to scan a comment put its text together and count its terminators side by side. A
line on its own has no terminator, and each step to a further line puts one line feed into the text
and one into the count. So a comment's text never has a carriage return, and its token tells how
many line feeds there are.
-/

set_option autoImplicit false

namespace Lexeme

/-! ## Texts and their counts -/

/-- A text whose terminators are line feeds, and how many of them it has. -/
structure Text.Unified (text : List UInt8) (breaks : Nat) : Prop where
  cr_notMem : Byte.cr ∉ text
  count_eq : text.count Byte.lf = breaks

namespace Text.Unified

variable {text more : List UInt8} {m n : Nat}

theorem of_isText (h : ∀ b ∈ text, Line.isText b = true) : Unified text 0 where
  cr_notMem hmem := by
    have hcr := h Byte.cr hmem
    cases hcr
  count_eq := by
    apply List.count_eq_zero_of_not_mem
    intro hmem
    have hlf := h Byte.lf hmem
    cases hlf

theorem append (h : Unified text m) (hmore : Unified more n) : Unified (text ++ more) (m + n) where
  cr_notMem hmem := (List.mem_append.1 hmem).elim h.cr_notMem hmore.cr_notMem
  count_eq := by rw [List.count_append, h.count_eq, hmore.count_eq]

/-- One more line in front is one more line feed. -/
theorem line (h : ∀ b ∈ text, Line.isText b = true) (hmore : Unified more n) :
    Unified (text ++ Byte.lf :: more) (n + 1) := by
  have hfeed : Unified [Byte.lf] 1 := ⟨by decide, by decide⟩
  have hboth := (of_isText h).append (hfeed.append hmore)
  rw [Nat.zero_add, Nat.add_comm] at hboth
  exact hboth

end Text.Unified

/-! ## Scans -/

section Within

variable {input : List UInt8} {c : Cursor Text}

namespace BlockComment

theorem unified_scan (form : BlockForm) (limit strip : Nat) (depth : UInt32) (h : c.Within input) :
    Text.Unified (scan form limit strip depth c).text
      (scan form limit strip depth c).breaks := by
  have htext : ∀ {c : Cursor Text} {depth : UInt32}, c.Within input →
      ∀ b ∈ (BlockLine.scan form depth c.rest).text, Line.isText b = true :=
    fun h _ hb => h.isText_of_mem_rest (BlockLine.text_scan_subset _ _ _ hb)
  fun_induction scan form limit strip depth c with
  | case1 depth c l hd => exact .of_isText (htext h)
  | case2 depth c l depth' hd hlast => exact .of_isText (htext h)
  | case3 depth c l depth' hd hlast more ih =>
    have hnext := (c.route_nextLine.trans (route_dropSpaces strip _)).reaches h
    exact .line (htext h) (ih hnext.within)

theorem unified_documentation (limit : Nat) (h : c.Within input) :
    Text.Unified (documentation limit c).text (documentation limit c).breaks := by
  unfold documentation
  dsimp only
  split
  · have hnext := (c.route_nextLine.trans c.nextLine.route_leadingSpaces).reaches h
    exact unified_scan _ _ _ _ hnext.within
  · exact unified_scan _ _ _ _ (h.advance (leadingSpaces_le _))

end BlockComment

namespace Comment

theorem unified_documentationLines (limit strip : Nat) (h : c.Within input) :
    Text.Unified (documentationLines limit strip c).text
      (documentationLines limit strip c).breaks := by
  fun_induction documentationLines limit strip c with
  | case1 c hlast => exact .of_isText fun _ => h.isText_of_mem_rest
  | case2 c hlast indent next hdoc more ih =>
    have hindent := (c.route_nextLine.trans c.nextLine.route_leadingSpaces).reaches h
    have hmark := hindent.within.advance (two_le_of_isDocumentation hdoc)
    have hline := (BlockComment.route_dropSpaces strip _).reaches hmark
    exact .line (fun _ => h.isText_of_mem_rest) (ih hline.within)
  | case3 c hlast indent next hdoc => exact .of_isText fun _ => h.isText_of_mem_rest

/-- Delimiters are text of a line, so a block as written has the terminators of its contents. -/
theorem unified_ofBlockVerbatim (form : BlockForm) {block : BlockComment Text}
    (h : Text.Unified block.text block.breaks) :
    Text.Unified (ofBlockVerbatim form block).text (ofBlockVerbatim form block).breaks := by
  have hopener : Text.Unified form.opener 0 := .of_isText form.isText_opener
  have hcloser : Text.Unified (if block.closed then form.closer else []) 0 := by
    apply Text.Unified.of_isText
    split
    · exact form.isText_closer
    · exact List.forall_mem_nil _
  have hwhole := (hopener.append h).append hcloser
  rw [Nat.zero_add, Nat.add_zero] at hwhole
  exact hwhole

theorem unified_scan (limit : Nat) (h : c.Within input) :
    Text.Unified (scan limit c).text (scan limit c).breaks := by
  unfold scan
  split
  · rename_i hopener
    have hopen := h.advance (List.isPrefixOf_iff_prefix.1 hopener).length_le
    exact BlockComment.unified_documentation limit hopen
  · split
    · rename_i hdoc
      have hmark := two_le_of_isDocumentation hdoc
      have hspaces := leadingSpaces_le (c.rest.drop 2)
      rw [List.length_drop] at hspaces
      exact unified_documentationLines limit _ (h.advance (by omega))
    · split
      · rename_i hopener
        have hopen := h.advance (List.isPrefixOf_iff_prefix.1 hopener).length_le
        exact unified_ofBlockVerbatim _ (BlockComment.unified_scan _ limit 0 0 hopen)
      · exact .of_isText fun _ => h.isText_of_mem_rest

end Comment

theorem TokenRead.unified_scan (options : Options) (table : IdentTable) (h : c.Within input)
    (hkind : (scan options c table).token.kind = .comment) :
    ∃ breaks : Nat, (scan options c table).token.int = breaks ∧
      Text.Unified (scan options c table).token.literal breaks := by
  have hhash := (kind_scan_eq_comment_iff options c table).1 hkind
  obtain ⟨rest, hrest⟩ := List.head?_eq_some_iff.1 hhash
  rw [scan_of_hash options hrest]
  exact ⟨_, rfl, Comment.unified_scan options.maxLineLength h⟩

end Within

/-! ## Runs -/

namespace Lexer

/-- On every stream and under all options, the literal of a comment has no carriage return, and the
token's number is the number of its line feeds, whatever the comment's form and whether or not it
is closed. -/
theorem open?_commentLines (file : FileId) (stream : ByteStream) (options : Options)
    (h : 0 < options.bufferSize) :
    ∃ l, open? file stream options = .ok l ∧
      ∀ tables k, (l.turn tables k).token.kind = .comment →
        Byte.cr ∉ (l.turn tables k).token.literal ∧
          (l.turn tables k).token.int = ((l.turn tables k).token.literal.count Byte.lf : Nat) := by
  refine ⟨_, open?_eq_ok file stream options h, ?_⟩
  intro tables k hkind
  rw [token_turn_ofStream] at hkind ⊢
  have hwithin := within_reached (within_ofText file options stream.bytes) tables k
  obtain ⟨breaks, hint, hcr, hcount⟩ :=
    TokenRead.unified_scan _ (tables k) (passes_blank hwithin).within hkind
  exact ⟨hcr, hint.trans (congrArg Nat.cast hcount.symm)⟩

/-- A documentation block over a terminator that windows split, and behind it an ordinary block
that is not closed. -/
def splitComments : ByteStream :=
  ⟨[.chunk 35 [35, 91, 32, 97, 13], .interruption, .chunk 10 [32, 32, 98, 93, 35, 35, 13],
    .chunk 35 [91, 99, 13, 13]], .failed [10]⟩

theorem open?_commentLines_splitComments :
    0 < 1 ∧ ∃ l, open? {} splitComments { bufferSize := 1, retainComments := true } = .ok l ∧
      (l.turn (fun _ => .fresh) 0).token.kind = .comment ∧
      (l.turn (fun _ => .fresh) 0).token.literal = [97, 10, 98] ∧
      (l.turn (fun _ => .fresh) 0).token.int = 1 ∧
      (l.turn (fun _ => .fresh) 1).token.kind = .comment ∧
      Byte.cr ∉ (l.turn (fun _ => .fresh) 1).token.literal ∧
      (l.turn (fun _ => .fresh) 1).token.int =
        ((l.turn (fun _ => .fresh) 1).token.literal.count Byte.lf : Nat) := by
  obtain ⟨l, hopen, hcalls⟩ := open?_commentLines {} splitComments
    { bufferSize := 1, retainComments := true } (by decide)
  obtain rfl := Except.ok.inj ((open?_eq_ok _ _ _ (by decide)).symm.trans hopen)
  have htext : let l := ofText {} { bufferSize := 1, retainComments := true } splitComments.bytes
      (l.turn (fun _ => .fresh) 0).token.kind = .comment ∧
        (l.turn (fun _ => .fresh) 0).token.literal = [97, 10, 98] ∧
        (l.turn (fun _ => .fresh) 1).token.kind = .comment := by
    decide +kernel
  obtain ⟨hblock, hliteral, hopened⟩ := htext
  rw [← token_turn_ofStream _ _ _ (by decide)] at hblock hliteral hopened
  obtain ⟨-, hint⟩ := hcalls (fun _ => .fresh) 0 hblock
  obtain ⟨hcr, hcount⟩ := hcalls (fun _ => .fresh) 1 hopened
  rw [hliteral] at hint
  exact ⟨by decide, _, hopen, hblock, hliteral, hint, hopened, hcr, hcount⟩

end Lexer
end Lexeme
