import Lexeme.Proofs.Layout.BlockEnds
import Lexeme.Proofs.Lexer.PlainString
import Lexeme.Proofs.Lexer.RetainedComments

/-!
# Documentation lines merge

A documentation line takes along every line behind it that goes on with two `#`, up to the first
line that does not, whatever stands behind the two. So the opener of a documentation block is a mark
like others there: its line is merged, and the lines of the block that have no mark are left to be
read as tokens.
-/

set_option autoImplicit false

namespace Lexeme

/-! ## Marks -/

theorem Comment.isText_documentationMark :
    ∀ b ∈ documentationMark, Line.isText b = true :=
  List.all_eq_true.1 (by decide)

theorem Comment.isDocumentation_iff {line : List UInt8} :
    isDocumentation line = true ↔ documentationMark <+: line := by
  constructor
  · intro h
    unfold isDocumentation at h
    split at h
    · exact ⟨_, rfl⟩
    · cases h
  · rintro ⟨more, rfl⟩
    rfl

/-- Spaces in front of some bytes are spaces in front of their first line. -/
theorem Line.leadingSpaces_first (bytes : List UInt8) :
    leadingSpaces (first bytes).bytes = leadingSpaces bytes := by
  induction bytes with
  | nil => rfl
  | cons b bytes ih =>
    by_cases hb : b = Byte.space
    · subst hb
      have hline : (first (Byte.space :: bytes)).bytes = Byte.space :: (first bytes).bytes := rfl
      rw [hline, leadingSpaces_cons_space, leadingSpaces_cons_space, ih]
    · rw [leadingSpaces_cons_of_ne hb]
      cases hline : (first (b :: bytes)).bytes with
      | nil => rfl
      | cons c rest =>
        have hprefix : (first (b :: bytes)).bytes <+: b :: bytes := List.takeWhile_prefix _
        rw [hline] at hprefix
        obtain ⟨rfl, -⟩ := List.cons_prefix_cons.1 hprefix
        exact leadingSpaces_cons_of_ne hb rest

namespace Text

/-- The line that starts at an offset goes on with a documentation mark behind its spaces. -/
def Marked (input : List UInt8) (p : Nat) : Prop :=
  Comment.documentationMark <+: input.drop (p + leadingSpaces (input.drop p))

instance (input : List UInt8) (p : Nat) : Decidable (Marked input p) :=
  inferInstanceAs (Decidable (_ <+: _))

/-- Where documentation lines end, the first of them lying at an offset: behind the spaces of the
first line further down that has no mark, or where the input does. -/
inductive DocumentationEnds (input : List UInt8) (o : Nat) : Nat → Prop
  | unmarked {q : Nat} (hlt : o < q) (hle : q ≤ input.length) (hstart : lineStart input q = q)
      (h : ¬Marked input q) (hfirst : ∀ p < q, o < p → lineStart input p = p → Marked input p) :
      DocumentationEnds input o (q + leadingSpaces (input.drop q))
  | last (h : ∀ p ≤ input.length, o < p → lineStart input p = p → Marked input p) :
      DocumentationEnds input o input.length

/-- Marked lines may be passed first. -/
theorem DocumentationEnds.of_le {input : List UInt8} {o o' stop : Nat} (hle : o ≤ o')
    (h : DocumentationEnds input o' stop)
    (hmarked : ∀ p, o < p → p ≤ o' → lineStart input p = p → Marked input p) :
    DocumentationEnds input o stop := by
  cases h with
  | @unmarked q hlt hq hstart hnot hfirst =>
    refine .unmarked (Nat.lt_of_le_of_lt hle hlt) hq hstart hnot fun p hp ho hline => ?_
    by_cases hfront : p ≤ o'
    · exact hmarked p ho hfront hline
    · exact hfirst p hp (Nat.not_le.1 hfront) hline
  | last hall =>
    refine .last fun p hp ho hline => ?_
    by_cases hfront : p ≤ o'
    · exact hmarked p ho hfront hline
    · exact hall p hp (Nat.not_le.1 hfront) hline

theorem leadingSpaces_le_of_lf (line : List UInt8) :
    leadingSpaces (line ++ [Byte.lf]) ≤ line.length := by
  induction line with
  | nil => exact Nat.le_refl 0
  | cons b line ih =>
    by_cases hb : b = Byte.space
    · subst hb
      rw [List.cons_append, leadingSpaces_cons_space]
      exact Nat.succ_le_succ ih
    · rw [List.cons_append, leadingSpaces_cons_of_ne hb]
      exact Nat.zero_le _

/-- In front of a last terminator, documentation lines take the whole input if every line further
down is marked. -/
theorem DocumentationEnds.eq_length_iff {input front : List UInt8} {o stop : Nat}
    (hfeed : input = front ++ [Byte.lf]) (h : DocumentationEnds input o stop) :
    stop = input.length ↔
      ∀ p < input.length, o < p → lineStart input p = p → Marked input p := by
  subst hfeed
  cases h with
  | @unmarked q hlt hle hstart hnot hfirst =>
    rcases Nat.eq_or_lt_of_le hle with heq | hinside
    · have hnil : (front ++ [Byte.lf]).drop q = [] := List.drop_eq_nil_of_le (Nat.le_of_eq heq.symm)
      rw [hnil]
      refine iff_of_true heq fun p hp ho hline => hfirst p (by omega) ho hline
    · refine iff_of_false ?_ fun hall => hnot (hall q hinside hlt hstart)
      rw [List.length_append, List.length_singleton] at hinside ⊢
      have hspaces := leadingSpaces_le_of_lf (front.drop q)
      rw [← List.drop_append_of_le_length (Nat.le_of_lt_succ hinside), List.length_drop] at hspaces
      omega
  | last hall => exact iff_of_true rfl fun p hp => hall p (Nat.le_of_lt hp)

end Text

/-! ## Scans -/

section Located

variable {input : List UInt8} {first : Nat} {c : Cursor Text}

namespace Cursor

/-- No line starts on a cursor's line but the line itself. -/
theorem Located.lt_of_lineStart (h : c.Located input first) {p : Nat}
    (hp : Text.lineStart input p = p) (hlt : c.source.offset < p) : c.offset < p := by
  by_contra hle
  have hoff : c.offset = c.source.offset + c.column := rfl
  have hcolumn := h.within.column_le
  have hsame := Text.location_eq (s := c.source.offset) (o := p) (by omega)
    fun i hlo hhi => h.within.endsBreak_eq_false hlo (by omega)
  rw [hp, h.start_eq] at hsame
  omega

/-- The step to the next line leads to where a line starts. -/
theorem Located.lineStart_nextLine (h : c.Located input first) (hlast : c.isLast = false) :
    c.offset < c.nextLine.offset ∧ Text.lineStart input c.nextLine.offset = c.nextLine.offset := by
  obtain ⟨b, rest, -, -, hoffset⟩ := h.within.exists_terminator hlast
  have hpos := Text.terminatorLength_pos (List.cons_ne_nil b rest)
  refine ⟨by omega, ?_⟩
  rw [offset_nextLine hlast]
  exact h.nextLine.start_eq

theorem Within.leadingSpaces_eq (h : c.Within input) :
    leadingSpaces c.rest = leadingSpaces (input.drop c.offset) := by
  rw [h.rest_eq, Line.leadingSpaces_first]

theorem Within.marked_iff (h : c.Within input) :
    Text.Marked input c.offset ↔
      Comment.isDocumentation (c.advance (leadingSpaces c.rest)).rest = true := by
  rw [Text.Marked, ← h.leadingSpaces_eq, Comment.isDocumentation_iff, Cursor.rest_advance,
    h.prefix_iff Comment.isText_documentationMark (leadingSpaces_le _), List.drop_drop]

end Cursor

namespace Comment

theorem ends_documentationLines (limit strip : Nat) (h : c.Located input first) :
    Text.DocumentationEnds input c.offset (documentationLines limit strip c).cursor.offset := by
  fun_induction documentationLines limit strip c with
  | case1 c hlast =>
    have hoffset : c.lineEnd.offset = input.length :=
      (h.within.advance (Nat.le_refl _)).offset_eq hlast c.rest_lineEnd
    rw [hoffset]
    refine .last fun p hp hlt hline => ?_
    rw [h.isLast_eq_false hlt hp hline] at hlast
    cases hlast
  | case2 c hlast indent next hdoc more ih =>
    have hlast := Bool.eq_false_iff.2 hlast
    have hindent := h.nextLine.advance (leadingSpaces_le c.nextLine.rest)
    have hmark := hindent.advance (two_le_of_isDocumentation hdoc)
    have hline : (BlockComment.dropSpaces strip (next.advance 2)).Located input first :=
      (BlockComment.route_dropSpaces strip _).located hmark
    have hbehind : c.nextLine.offset ≤ (BlockComment.dropSpaces strip (next.advance 2)).offset := by
      rw [BlockComment.dropSpaces, Cursor.offset_advance, Cursor.offset_advance,
        Cursor.offset_advance]
      omega
    have hle := (h.lineStart_nextLine hlast).1
    refine (ih hline).of_le (by omega) fun p hlt hp hstart => ?_
    have hnext := h.offset_nextLine_le hlast hlt hstart
    rcases Nat.eq_or_lt_of_le hnext with heq | hlater
    · rw [← heq]
      exact h.nextLine.within.marked_iff.2 hdoc
    · have hsource : c.nextLine.source.offset ≤ c.nextLine.offset := Nat.le_add_right _ _
      have hbeyond := hline.lt_of_lineStart hstart (Nat.lt_of_le_of_lt hsource hlater)
      omega
  | case3 c hlast indent next hdoc =>
    have hlast := Bool.eq_false_iff.2 hlast
    obtain ⟨hlt, hstart⟩ := h.lineStart_nextLine hlast
    have hwithin := h.nextLine.within
    have hindent : indent = leadingSpaces (input.drop c.nextLine.offset) :=
      hwithin.leadingSpaces_eq
    have hoffset : next.offset = c.nextLine.offset + indent := c.nextLine.offset_advance indent
    change Text.DocumentationEnds input c.offset next.offset
    rw [hoffset, hindent]
    refine .unmarked hlt (Nat.le_trans (Nat.le_add_right _ _) hwithin.offset_le) hstart
      (mt hwithin.marked_iff.1 hdoc) fun p hp ho hline => ?_
    have hnext := h.offset_nextLine_le hlast ho hline
    omega

/-- A comment that starts with a documentation mark, but not with an opener, is made of lines. -/
theorem ends_scan_of_mark (limit : Nat) (h : c.Located input first)
    (hmark : documentationMark <+: c.rest) (hopener : ¬BlockForm.documentation.opener <+: c.rest) :
    Text.DocumentationEnds input c.offset (scan limit c).cursor.offset := by
  have hspaces := leadingSpaces_le (c.rest.drop 2)
  have htwo : 2 ≤ c.rest.length := hmark.length_le
  rw [List.length_drop] at hspaces
  have hline := h.advance (n := 2 + leadingSpaces (c.rest.drop 2)) (by omega)
  have hends := ends_documentationLines limit (wrap32 (leadingSpaces (c.rest.drop 2))) hline
  rw [scan, if_neg (mt List.isPrefixOf_iff_prefix.1 hopener), if_pos (isDocumentation_iff.2 hmark)]
  refine hends.of_le ?_ fun p hlt hp hstart => ?_
  · rw [Cursor.offset_advance]
    exact Nat.le_add_right _ _
  · have hsource : c.source.offset ≤ c.offset := Nat.le_add_right _ _
    have hbeyond := hline.lt_of_lineStart hstart (Nat.lt_of_le_of_lt hsource hlt)
    omega

end Comment
end Located

/-! ## Runs -/

namespace Lexer

section Text

variable {input : List UInt8} {first : Nat} {l : Lexer Text}

/-- A call whose token is a documentation line takes the lines behind it that have a mark. -/
theorem next_documentationLines (hl : l.cursor.Located input first) (table : IdentTable)
    (hmark : Comment.documentationMark <+: input.drop l.tokenOffset)
    (hopener : ¬BlockForm.documentation.opener <+: input.drop l.tokenOffset) :
    (l.next table).token.kind = .comment ∧
      Text.DocumentationEnds input l.tokenOffset (l.next table).lexer.cursor.offset := by
  have hlocated := (route_blank l).located hl
  have hline : Comment.documentationMark <+: l.blank.cursor.rest := by
    rw [hlocated.within.rest_eq]
    exact (Line.prefix_first_iff Comment.isText_documentationMark).2 hmark
  have hblock : ¬BlockForm.documentation.opener <+: l.blank.cursor.rest := by
    rw [hlocated.within.rest_eq, Line.prefix_first_iff BlockForm.documentation.isText_opener]
    exact hopener
  obtain ⟨more, hrest⟩ := hline
  have hread := TokenRead.scan_of_hash l.options hrest.symm table
  rw [next, hread]
  exact ⟨rfl, Comment.ends_scan_of_mark _ hlocated ⟨more, hrest⟩ hblock⟩

end Text
end Lexer

/-! ## A block behind a line -/

namespace Text

/-- A documentation line, and a documentation block on the next one. -/
def blockBehindLine (text contents : List UInt8) : List UInt8 :=
  Comment.documentationMark ++ Byte.space :: text ++ Byte.lf ::
    (BlockForm.documentation.opener ++ Byte.space :: contents ++
      Byte.space :: BlockForm.documentation.closer ++ [Byte.lf])

/-- No line ends inside a line's text. -/
theorem endsBreak_of_drop {input bytes more : List UInt8} {p i : Nat}
    (hdrop : input.drop p = bytes ++ more) (hbytes : ∀ c ∈ bytes, Line.isText c = true)
    (hlo : p ≤ i) (hhi : i < p + bytes.length) : endsBreak input i = false := by
  obtain ⟨j, rfl⟩ := Nat.exists_eq_add_of_le hlo
  have hj : j < bytes.length := Nat.lt_of_add_lt_add_left hhi
  have hbyte : input[p + j]? = some bytes[j] := by
    rw [← List.getElem?_drop, hdrop, List.getElem?_append_left hj, List.getElem?_eq_getElem hj]
  exact endsBreak_eq_false hbyte (hbytes _ (List.getElem_mem hj))

/-- Of two lines the second one is the only line that starts inside. -/
theorem eq_of_lineStart {upper lower input : List UInt8}
    (hinput : input = upper ++ Byte.lf :: (lower ++ [Byte.lf]))
    (hupper : ∀ c ∈ upper, Line.isText c = true) (hlower : ∀ c ∈ lower, Line.isText c = true)
    (hzero : lineStart input 0 = 0) {p : Nat} (hpos : 0 < p) (hlt : p < input.length)
    (hp : lineStart input p = p) : p = upper.length + 1 := by
  have hlen : input.length = upper.length + 1 + lower.length + 1 := by
    rw [hinput]
    simp only [List.length_append, List.length_cons, List.length_nil]
    omega
  have hdrop : input.drop (upper.length + 1) = lower ++ [Byte.lf] := by
    rw [hinput, List.drop_length_add_append]
    rfl
  have hbreak : endsBreak input upper.length = true := by
    have hfeed : input[upper.length]? = some Byte.lf := by
      rw [hinput, List.getElem?_append_right (Nat.le_refl _), Nat.sub_self]
      rfl
    rw [endsBreak, hfeed]
    rfl
  have hnext := (location_succ hbreak).2
  rcases Nat.lt_trichotomy p (upper.length + 1) with hbefore | heq | hbehind
  · have hsame := (location_eq (Nat.zero_le p) fun i hlo hhi =>
      endsBreak_of_drop (List.drop_zero.trans hinput) hupper hlo (by omega)).2
    omega
  · exact heq
  · have hsame := (location_eq (Nat.le_of_lt hbehind) fun i hlo hhi =>
      endsBreak_of_drop hdrop hlower hlo (by omega)).2
    omega

variable (text contents : List UInt8)

theorem blockBehindLine_eq :
    blockBehindLine text contents =
      (Comment.documentationMark ++ Byte.space :: text ++ Byte.lf ::
        (BlockForm.documentation.opener ++ Byte.space :: contents ++
          Byte.space :: BlockForm.documentation.closer)) ++ [Byte.lf] := by
  simp only [blockBehindLine, List.append_assoc, List.cons_append]

theorem lineStart_blockBehindLine : lineStart (blockBehindLine text contents) 0 = 0 := rfl

/-- On a line of its own the block is marked, and so is all of it. -/
theorem marked_blockBehindLine (htext : ∀ c ∈ text, Line.isText c = true)
    (hcontents : ∀ c ∈ contents, Line.isText c = true) :
    ∀ p < (blockBehindLine text contents).length, 0 < p →
      lineStart (blockBehindLine text contents) p = p →
      Marked (blockBehindLine text contents) p := by
  intro p hlt hpos hp
  have hline : ∀ c ∈ Comment.documentationMark ++ Byte.space :: text, Line.isText c = true := by
    exact List.forall_mem_append.2 ⟨Comment.isText_documentationMark,
      List.forall_mem_cons.2 ⟨by decide, htext⟩⟩
  have hline' : ∀ c ∈ BlockForm.documentation.opener ++ Byte.space :: contents ++
      Byte.space :: BlockForm.documentation.closer, Line.isText c = true := by
    exact List.forall_mem_append.2 ⟨List.forall_mem_append.2
      ⟨BlockForm.documentation.isText_opener, List.forall_mem_cons.2 ⟨by decide, hcontents⟩⟩,
      List.forall_mem_cons.2 ⟨by decide, BlockForm.documentation.isText_closer⟩⟩
  have heq := eq_of_lineStart rfl hline hline' rfl hpos hlt hp
  have hdrop : (blockBehindLine text contents).drop p =
      BlockForm.documentation.opener ++ Byte.space :: contents ++
        Byte.space :: BlockForm.documentation.closer ++ [Byte.lf] := by
    rw [heq, blockBehindLine, List.drop_length_add_append]
    rfl
  have hspaces : leadingSpaces ((blockBehindLine text contents).drop p) = 0 := by
    rw [hdrop]
    rfl
  rw [Marked, hspaces, Nat.add_zero, hdrop]
  exact ⟨_, rfl⟩

end Text

namespace Lexer

section Text

variable {first : Nat} {l : Lexer Text} {text contents : List UInt8}

/-- The first call on a block behind a line reads the line and the marked lines behind it. -/
theorem next_blockBehindLine (hl : l.cursor.Located (Text.blockBehindLine text contents) first)
    (hstart : l.cursor.offset = 0) (table : IdentTable) :
    (l.next table).token.kind = .comment ∧
      Text.DocumentationEnds (Text.blockBehindLine text contents) 0
        (l.next table).lexer.cursor.offset := by
  have hclear : Text.Clear (Text.blockBehindLine text contents) l.cursor.offset 0 :=
    ⟨Nat.le_of_eq hstart, fun i hi => absurd hi (Nat.not_lt_zero i)⟩
  obtain ⟨hoffset, -⟩ :=
    blank_of_startsToken hl (Text.lineStart_blockBehindLine text contents) rfl hclear
  have hmark : Comment.documentationMark <+:
      (Text.blockBehindLine text contents).drop l.tokenOffset := by
    rw [hoffset]
    exact ⟨_, rfl⟩
  have hopener : ¬BlockForm.documentation.opener <+:
      (Text.blockBehindLine text contents).drop l.tokenOffset := by
    rw [hoffset]
    rintro ⟨more, hmore⟩
    cases hmore
  obtain ⟨hkind, hends⟩ := next_documentationLines hl table hmark hopener
  rw [hoffset] at hends
  exact ⟨hkind, hends⟩

/-- Behind the last byte there is nothing but the end. -/
theorem kind_turn_of_offset {input : List UInt8} (hl : l.cursor.Within input)
    {tables : Nat → IdentTable} {j k : Nat} (hjk : j ≤ k)
    (hoffset : (l.reached tables j).cursor.offset = input.length) :
    (l.turn tables k).token.kind = .eof := by
  have hwithin := within_reached hl tables j
  have hpasses := passes_blank hwithin
  have htoken : (l.reached tables j).tokenOffset = input.length := by
    have hle := hpasses.le
    have hend := hpasses.within.offset_le
    rw [tokenOffset]
    omega
  have heof : (l.turn tables j).token.kind = .eof :=
    (next_eof_iff hwithin (tables j)).2 htoken
  rcases Nat.eq_or_lt_of_le hjk with rfl | hlt
  · exact heof
  · exact (turn_of_eof hlt heof).1

end Text

/-- A run on an input that starts with a documentation line: its first token is a comment, and it
takes the whole input if and only if all further lines are marked. -/
structure TakesMarked {σ : Type} [LineSource σ] (l : Lexer σ) (input : List UInt8)
    (tables : Nat → IdentTable) : Prop where
  kind_eq : (l.turn tables 0).token.kind = .comment
  /-- The call ends at the first line that has no mark. -/
  ends : Text.DocumentationEnds input 0 (l.reached tables 1).cursor.offset
  offset_eq_iff : (l.reached tables 1).cursor.offset = input.length ↔
    ∀ p < input.length, 0 < p → Text.lineStart input p = p → Text.Marked input p
  eof_of_marked : (∀ p < input.length, 0 < p → Text.lineStart input p = p → Text.Marked input p) →
    ∀ k, 0 < k → (l.turn tables k).token.kind = .eof

theorem takesMarked_of_located {text contents : List UInt8} {first : Nat} {l : Lexer Text}
    (hl : l.cursor.Located (Text.blockBehindLine text contents) first)
    (hstart : l.cursor.offset = 0) (tables : Nat → IdentTable) :
    l.TakesMarked (Text.blockBehindLine text contents) tables := by
  obtain ⟨hkind, hends⟩ := next_blockBehindLine hl hstart (tables 0)
  have hiff := hends.eq_length_iff (Text.blockBehindLine_eq text contents)
  exact ⟨hkind, hends, hiff, fun hall k hk => kind_turn_of_offset hl.within hk (hiff.2 hall)⟩

/-- A documentation line with a documentation block on the next line. The first token is a comment,
and it takes the lines that have a mark, the opener's among them, up to the first one that has none:
the whole input if every line of the block is marked, as on a line of its own, and then nothing else
is read. -/
theorem open?_blockBehindLine (file : FileId) (stream : ByteStream) (options : Options)
    (h : 0 < options.bufferSize) {text contents : List UInt8}
    (hbytes : stream.bytes = Text.blockBehindLine text contents) :
    ∃ l, open? file stream options = .ok l ∧ ∀ tables, l.TakesMarked stream.bytes tables ∧
      ((∀ c ∈ text ++ contents, Line.isText c = true) →
        ∀ k, 0 < k → (l.turn tables k).token.kind = .eof) := by
  refine ⟨_, open?_eq_ok file stream options h, fun tables => ?_⟩
  have htakes : ((ofStream file stream options h).map SoundReader.toReader).TakesMarked
      stream.bytes tables := by
    have hlocated := located_ofText file options stream.bytes
    have hstart := offset_ofText file options stream.bytes
    obtain ⟨hkind, hends, hiff, heof⟩ : (ofText file options stream.bytes).TakesMarked
        stream.bytes tables := by
      rw [hbytes] at hlocated hstart ⊢
      exact takesMarked_of_located hlocated hstart tables
    constructor
    · rw [token_turn_ofStream]
      exact hkind
    · rw [offset_reached_ofStream]
      exact hends
    · rw [offset_reached_ofStream]
      exact hiff
    · intro hall k hk
      rw [token_turn_ofStream]
      exact heof hall k hk
  refine ⟨htakes, fun hline => htakes.eof_of_marked ?_⟩
  rw [List.forall_mem_append] at hline
  rw [hbytes]
  exact Text.marked_blockBehindLine text contents hline.1 hline.2

/-- A block over two lines, the second one without a mark. -/
theorem open?_blockBehindLine_twoLines :
    0 < 1 ∧ (ByteStream.ofBytes [35, 35, 32, 97, 10, 35, 35, 91, 32, 98, 10, 99, 32, 93, 35, 35,
        10]).bytes = Text.blockBehindLine [97] [98, 10, 99] ∧
      ∃ l, open? {} (.ofBytes [35, 35, 32, 97, 10, 35, 35, 91, 32, 98, 10, 99, 32, 93, 35, 35, 10])
          { bufferSize := 1 } = .ok l ∧
        l.TakesMarked (Text.blockBehindLine [97] [98, 10, 99]) (fun _ => .fresh) ∧
        (l.reached (fun _ => .fresh) 1).cursor.offset ≠ 17 := by
  have hbytes : (ByteStream.ofBytes [35, 35, 32, 97, 10, 35, 35, 91, 32, 98, 10, 99, 32, 93, 35, 35,
      10]).bytes = Text.blockBehindLine [97] [98, 10, 99] := by decide
  obtain ⟨l, hopen, hrun⟩ := open?_blockBehindLine {} (.ofBytes [35, 35, 32, 97, 10, 35, 35, 91, 32,
    98, 10, 99, 32, 93, 35, 35, 10]) { bufferSize := 1 } (by decide) hbytes
  obtain ⟨htakes, -⟩ := hrun fun _ => .fresh
  rw [hbytes] at htakes
  refine ⟨by decide, hbytes, l, hopen, htakes, fun hoffset => ?_⟩
  have hmarked := htakes.offset_eq_iff.1 hoffset 11 (by decide) (by decide) (by decide)
  revert hmarked
  decide

/-- The body of the block has no delimiter in it, but its second line is read as tokens. -/
theorem open?_mergedBlock :
    (∀ c ∈ ([97] : List UInt8), Line.isText c = true) ∧
      ¬BlockForm.documentation.opener <:+: [98, 10, 99] ∧
      ¬BlockForm.documentation.closer <:+: [98, 10, 99] ∧
      ∃ l, open? {} (.ofBytes (Text.blockBehindLine [97] [98, 10, 99])) {} = .ok l ∧
        (l.tokens .fresh).map Token.kind =
          [.comment, .symbol, .mark .bracketRight, .comment, .eof] := by
  have htokens : ((ofText {} {} (ByteStream.ofBytes (Text.blockBehindLine [97] [98, 10, 99])).bytes
      ).tokens .fresh).map Token.kind =
        [.comment, .symbol, .mark .bracketRight, .comment, .eof] := by
    decide +kernel
  refine ⟨List.all_eq_true.1 (by decide), by decide, by decide, _,
    open?_eq_ok _ _ _ (by decide), ?_⟩
  rw [tokens_ofStream]
  exact htokens

end Lexer
end Lexeme
