import Lexeme.Proofs.Lexer.BlockComments
import Lexeme.Proofs.Lexer.PlainString
import Lexeme.Proofs.Ident.Table

/-!
# Nested block comments

A well-nested comment is passed over as a whole, unless the closer of an inner block has a bracket
behind it: the `#` of that closer and the bracket count as an opener once more, and nothing is left
to close it. The depth at the end of the contents is the number of these places, so a comment with
one of them takes the rest of the input.
-/

set_option autoImplicit false

namespace Lexeme

namespace Text

/-! ## Well-nested comments -/

/-- The contents of a well-nested comment: blocks, and runs of bytes without `#` and `]`. -/
inductive NestedBody : List UInt8 → Prop
  | nil : NestedBody []
  | run {bytes rest : List UInt8} (h : ∀ b ∈ bytes, b ≠ Byte.hash ∧ b ≠ Byte.bracketRight)
      (hrest : NestedBody rest) : NestedBody (bytes ++ rest)
  | block {inner rest : List UInt8} (hinner : NestedBody inner) (hrest : NestedBody rest) :
      NestedBody (BlockForm.ordinary.opener ++ (inner ++ (BlockForm.ordinary.closer ++ rest)))

/-- A run in front, its bytes being checked. -/
theorem NestedBody.ofAll (bytes : List UInt8) {rest : List UInt8}
    (h : bytes.all (fun b => decide (b ≠ Byte.hash ∧ b ≠ Byte.bracketRight)) = true)
    (hrest : NestedBody rest) : NestedBody (bytes ++ rest) :=
  .run (List.all_iff_forall_prop.1 h) hrest

/-- A well-nested comment. -/
inductive Nested : List UInt8 → Prop
  | mk {body : List UInt8} (h : NestedBody body) :
      Nested (BlockForm.ordinary.opener ++ (body ++ BlockForm.ordinary.closer))

/-- A closer whose `#` makes an opener with the byte behind it. -/
def reopener : List UInt8 := [Byte.bracketRight, Byte.hash, Byte.bracketLeft]

theorem infix_iff {word bytes : List UInt8} : word <:+: bytes ↔ ∃ i, word <+: bytes.drop i := by
  rw [List.infix_iff_prefix_suffix]
  constructor
  · rintro ⟨tail, hword, hsuffix⟩
    rw [List.suffix_iff_eq_drop.1 hsuffix] at hword
    exact ⟨_, hword⟩
  · rintro ⟨i, hword⟩
    exact ⟨_, hword, List.drop_suffix i bytes⟩

end Text

/-! ## Depths in them -/

namespace BlockForm

open Text

variable {bytes : List UInt8}

/-- Where a run of bytes without `#` and `]` stands, neither a delimiter nor a reopener starts. -/
theorem not_prefix_of_run (h : ∀ b ∈ bytes, b ≠ Byte.hash ∧ b ≠ Byte.bracketRight)
    (t : List UInt8) {i : Nat} (hi : i < bytes.length) :
    ¬ordinary.opener <+: (bytes ++ t).drop i ∧ ¬ordinary.closer <+: (bytes ++ t).drop i ∧
      ¬reopener <+: (bytes ++ t).drop i := by
  have hdrop : (bytes ++ t).drop i = bytes[i] :: (bytes.drop (i + 1) ++ t) := by
    rw [List.drop_append_of_le_length (Nat.le_of_lt hi), List.drop_eq_getElem_cons hi]
    rfl
  obtain ⟨hhash, hbracket⟩ := h bytes[i] (List.getElem_mem hi)
  refine ⟨fun hopener => ?_, not_closer_of_run (fun b hb => (h b hb).2) t hi, fun hreopener => ?_⟩
  · rw [hdrop] at hopener
    exact hhash (Option.some.inj (head?_of_opener hopener))
  · rw [hdrop] at hreopener
    exact hbracket (List.cons_prefix_cons.1 hreopener).1.symm

theorem depth_run (h : ∀ b ∈ bytes, b ≠ Byte.hash ∧ b ≠ Byte.bracketRight) (t : List UInt8) :
    ∀ n ≤ bytes.length, ordinary.depth (bytes ++ t) n = 0 := by
  intro n hn
  refine depth_eq_zero (fun i hi => ?_) fun i hi => ?_
  · exact (not_prefix_of_run h t (Nat.lt_of_lt_of_le hi hn)).1
  · exact (not_prefix_of_run h t (Nat.lt_of_lt_of_le hi hn)).2.1

theorem occurrences_run (h : ∀ b ∈ bytes, b ≠ Byte.hash ∧ b ≠ Byte.bracketRight)
    (t : List UInt8) : occurrences reopener (bytes ++ t) bytes.length = 0 :=
  occurrences_eq_zero fun _ hi => (not_prefix_of_run h t hi).2.2

theorem occurrences_opener (t : List UInt8) :
    occurrences reopener (ordinary.opener ++ t) ordinary.opener.length = 0 := by
  refine occurrences_eq_zero fun i hi => ?_
  rcases Nat.le_one_iff_eq_zero_or_eq_one.1 (Nat.le_of_lt_succ hi) with rfl | rfl
  · intro hreopener
    cases (List.cons_prefix_cons.1 hreopener).1
  · intro hreopener
    cases (List.cons_prefix_cons.1 hreopener).1

/-- An inner closer closes a block, and it opens one once more if a bracket follows. -/
theorem depth_closer (t : List UInt8) :
    ordinary.depth (ordinary.closer ++ t) ordinary.closer.length =
      occurrences reopener (ordinary.closer ++ t) ordinary.closer.length - 1 := by
  have hfirst : ordinary.depth (ordinary.closer ++ t) 1 = -1 :=
    depth_of_closer (List.prefix_append ordinary.closer t)
  have hsecond : ordinary.depth (Byte.hash :: t) 1 =
      if ordinary.opener <+: Byte.hash :: t then 1 else 0 := by
    have hcloser : ¬ordinary.closer <+: Byte.hash :: t := by
      intro hcloser
      cases head?_of_closer hcloser
    rw [depth_one, if_neg hcloser, Int.sub_zero]
  have hreopener : occurrences reopener (ordinary.closer ++ t) (1 + 1) =
      if ordinary.opener <+: Byte.hash :: t then 1 else 0 := by
    have hiff : reopener <+: ordinary.closer ++ t ↔ ordinary.opener <+: Byte.hash :: t := by
      exact List.cons_prefix_cons.trans (and_iff_right rfl)
    have hnone : ¬reopener <+: Byte.hash :: t := by
      intro hreopener
      cases (List.cons_prefix_cons.1 hreopener).1
    rw [occurrences_add, occurrences_one]
    change _ + occurrences reopener (Byte.hash :: t) 1 = _
    rw [occurrences_one, if_neg hnone]
    simp only [hiff, Nat.add_zero]
  change ordinary.depth _ (1 + 1) = occurrences reopener _ (1 + 1) - 1
  rw [depth_add, hfirst, hreopener]
  change -1 + ordinary.depth (Byte.hash :: t) 1 = _
  rw [hsecond]
  split
  · rfl
  · rfl

/-- Wherever a closer starts among the first `n` bytes, a block is open that it closes; `k` are open
in front of the bytes. -/
def Shielded (k : Int) (bytes : List UInt8) (n : Nat) : Prop :=
  ∀ i < n, ordinary.closer <+: bytes.drop i → 0 < k + ordinary.depth bytes i

namespace Shielded

variable {k : Int} {t : List UInt8} {n : Nat}

theorem mono {k' : Int} (h : Shielded k bytes n) (hk : k ≤ k') : Shielded k' bytes n := by
  intro i hi hcloser
  have hpos := h i hi hcloser
  omega

theorem append (h : Shielded k (bytes ++ t) bytes.length)
    (ht : Shielded (k + ordinary.depth (bytes ++ t) bytes.length) t n) :
    Shielded k (bytes ++ t) (bytes.length + n) := by
  intro i hi hcloser
  by_cases hfront : i < bytes.length
  · exact h i hfront hcloser
  · obtain ⟨j, rfl⟩ := Nat.exists_eq_add_of_le (Nat.not_lt.1 hfront)
    rw [← List.drop_drop, List.drop_left] at hcloser
    rw [depth_add, List.drop_left, ← Int.add_assoc]
    exact ht j (by omega) hcloser

end Shielded

theorem shielded_run (h : ∀ b ∈ bytes, b ≠ Byte.hash ∧ b ≠ Byte.bracketRight) (k : Int)
    (t : List UInt8) : Shielded k (bytes ++ t) bytes.length :=
  fun _ hi hcloser => absurd hcloser (not_prefix_of_run h t hi).2.1

theorem shielded_opener (k : Int) (t : List UInt8) :
    Shielded k (ordinary.opener ++ t) ordinary.opener.length := by
  intro i hi hcloser
  rcases Nat.le_one_iff_eq_zero_or_eq_one.1 (Nat.le_of_lt_succ hi) with rfl | rfl
  · cases head?_of_closer hcloser
  · cases head?_of_closer hcloser

theorem shielded_closer {k : Int} (hk : 0 < k) (t : List UInt8) :
    Shielded k (ordinary.closer ++ t) ordinary.closer.length := by
  intro i hi hcloser
  rcases Nat.le_one_iff_eq_zero_or_eq_one.1 (Nat.le_of_lt_succ hi) with rfl | rfl
  · rw [depth_zero, Int.add_zero]
    exact hk
  · cases head?_of_closer hcloser

end BlockForm

namespace Text.NestedBody

open BlockForm

variable {body : List UInt8}

/-- At the end of the contents there are as many blocks open as there are reopeners. -/
theorem depth_eq (h : NestedBody body) (t : List UInt8) :
    ordinary.depth (body ++ t) body.length = occurrences reopener (body ++ t) body.length := by
  induction h generalizing t with
  | nil => rfl
  | @run bytes rest h hrest ih =>
    rw [List.append_assoc, List.length_append, depth_add, occurrences_add, List.drop_left,
      depth_run h _ _ (Nat.le_refl _), occurrences_run h, ih, Int.zero_add, Nat.zero_add]
  | @block inner rest hinner hrest ihinner ihrest =>
    simp only [List.append_assoc, List.length_append, depth_add, occurrences_add, List.drop_left,
      depth_opener, occurrences_opener, depth_closer, ihinner, ihrest]
    omega

/-- No closer in the contents closes the comment itself. -/
theorem shielded (h : NestedBody body) (t : List UInt8) :
    Shielded 0 (body ++ t) body.length := by
  induction h generalizing t with
  | nil => exact fun i hi => absurd hi (Nat.not_lt_zero i)
  | @run bytes rest h hrest ih =>
    rw [List.append_assoc, List.length_append]
    refine (shielded_run h 0 _).append ?_
    rw [depth_run h _ _ (Nat.le_refl _)]
    exact ih t
  | @block inner rest hinner hrest ihinner ihrest =>
    have hcloser : Shielded 1 (inner ++ (ordinary.closer ++ (rest ++ t)))
        (inner.length + (ordinary.closer.length + rest.length)) := by
      refine ((ihinner _).mono (by decide)).append ((shielded_closer ?_ _).append ?_)
      · rw [hinner.depth_eq]
        omega
      · rw [hinner.depth_eq, depth_closer]
        exact (ihrest t).mono (by omega)
    simp only [List.append_assoc, List.length_append]
    refine (shielded_opener 0 _).append ?_
    rw [depth_opener]
    exact hcloser

/-- The reopeners of a comment are those that start in its contents. -/
theorem infix_iff_occurrences (body t : List UInt8) :
    reopener <:+: ordinary.opener ++ (body ++ ordinary.closer) ↔
      occurrences reopener (body ++ (ordinary.closer ++ t)) body.length ≠ 0 := by
  have hdrop : ∀ j ≤ body.length, (body ++ (ordinary.closer ++ t)).drop j =
      (body ++ ordinary.closer).drop j ++ t := by
    intro j hj
    rw [← List.append_assoc, List.drop_append_of_le_length]
    rw [List.length_append]
    omega
  rw [infix_iff, occurrences, Nat.count_ne_iff_exists]
  constructor
  · rintro ⟨i, hi⟩
    have hlen := hi.length_le
    rw [List.length_drop, List.length_append, List.length_append] at hlen
    change 3 ≤ 2 + (body.length + 2) - i at hlen
    have hcases : i = 0 ∨ i = 1 ∨ 2 ≤ i := by omega
    rcases hcases with rfl | rfl | hbehind
    · cases (List.cons_prefix_cons.1 hi).1
    · cases (List.cons_prefix_cons.1 hi).1
    · obtain ⟨j, rfl⟩ := Nat.exists_eq_add_of_le hbehind
      rw [← List.drop_drop] at hi
      refine ⟨j, by omega, ?_⟩
      rw [hdrop j (by omega)]
      exact List.IsPrefix.trans hi (List.prefix_append _ t)
  · rintro ⟨j, hj, hprefix⟩
    rw [hdrop j (Nat.le_of_lt hj)] at hprefix
    refine ⟨2 + j, ?_⟩
    rw [← List.drop_drop]
    refine List.prefix_of_prefix_length_le hprefix (List.prefix_append _ t) ?_
    change 3 ≤ ((body ++ ordinary.closer).drop j).length
    rw [List.length_drop, List.length_append]
    change 3 ≤ body.length + 2 - j
    omega

end Text.NestedBody

/-! ## The end of a nested comment -/

namespace Text.Nested

open BlockForm

variable {w t : List UInt8}

theorem opener_prefix (h : Nested w) : ordinary.opener <+: w := by
  obtain ⟨_⟩ := h
  exact List.prefix_append _ _

/-- Without reopeners a nested comment ends at its last byte, and with one it is not closed. -/
theorem ends (h : Nested w) (ht : Byte.bracketRight ∉ t) :
    (¬reopener <:+: w → BlockEnds .ordinary 0 (w ++ t) 0 2 true w.length) ∧
      (reopener <:+: w → BlockEnds .ordinary 0 (w ++ t) 0 2 false (w ++ t).length) := by
  obtain @⟨body, hbody⟩ := h
  have hdrop : ((ordinary.opener ++ (body ++ ordinary.closer)) ++ t).drop 2 =
      body ++ (ordinary.closer ++ t) := by
    rw [List.append_assoc, List.append_assoc]
    rfl
  have hdepth := hbody.depth_eq (ordinary.closer ++ t)
  have hinside : ∀ i < body.length,
      ¬ordinary.ClosesAt 0 (body ++ (ordinary.closer ++ t)) 0 i := by
    rintro i hi ⟨hcloser, hdvd⟩
    have hpos := hbody.shielded (ordinary.closer ++ t) i hi hcloser
    have hzero := Int.zero_dvd.1 hdvd
    omega
  rw [NestedBody.infix_iff_occurrences body t]
  constructor
  · intro hnone
    rw [not_ne_iff.1 hnone] at hdepth
    have hcloses : ordinary.ClosesAt 0 (body ++ (ordinary.closer ++ t)) 0 body.length := by
      rw [BlockForm.ClosesAt, List.drop_left, hdepth]
      exact ⟨List.prefix_append _ _, Int.dvd_refl 0⟩
    rw [← hdrop] at hcloses hinside
    have hends := BlockEnds.closed hcloses hinside
    have hlen : (ordinary.opener ++ (body ++ ordinary.closer)).length =
        2 + body.length + ordinary.closer.length := by
      rw [List.length_append, List.length_append, Nat.add_assoc]
      rfl
    rw [hlen]
    exact hends
  · intro hsome
    refine .unterminated ?_
    rw [hdrop]
    intro i hcloses
    by_cases hi : i < body.length
    · exact hinside i hi hcloses
    · obtain ⟨j, rfl⟩ := Nat.exists_eq_add_of_le (Nat.not_lt.1 hi)
      obtain ⟨hcloser, hdvd⟩ := hcloses
      have hzero := Int.zero_dvd.1 hdvd
      have hhead := head?_of_closer hcloser
      rw [← List.drop_drop, List.drop_left] at hhead
      cases j with
      | zero =>
        rw [Nat.add_zero, hdepth] at hzero
        omega
      | succ j =>
        cases j with
        | zero => cases hhead
        | succ j =>
          change (t.drop j).head? = _ at hhead
          exact ht (List.mem_of_mem_drop (List.mem_of_head? hhead))

end Text.Nested

/-! ## Runs over a nested comment -/

/-- A cursor with no terminator further on is on the last line. -/
theorem Cursor.Within.isLast_of_drop {input more : List UInt8} {c : Cursor Text}
    (h : c.Within input) (hdrop : input.drop c.offset = more)
    (hmore : ∀ b ∈ more, Line.isText b = true) : c.rest = more ∧ c.isLast = true := by
  have hline := h.first_eq
  rw [hdrop, Line.first_of_isText hmore] at hline
  obtain ⟨hrest, hending⟩ := Line.mk.inj hline
  refine ⟨hrest.symm, ?_⟩
  rw [Cursor.isLast, ← hending]
  rfl

section Sources

variable {σ : Type} [LineSource σ]

/-- A block that is closed is no error. -/
theorem BlockComment.errorFree_scan (form : BlockForm) (limit strip : Nat) (depth : UInt32)
    (c : Cursor σ) (hclosed : (scan form limit strip depth c).closed = true) :
    Diagnostic.ErrorFree (scan form limit strip depth c).diagnostics := by
  fun_induction scan form limit strip depth c with
  | case1 depth c l hd => exact List.forall_mem_nil _
  | case2 depth c l depth' hd hlast => cases hclosed
  | case3 depth c l depth' hd hlast more ih =>
    exact Diagnostic.ErrorFree.append_iff.2
      ⟨.of_lineTooLong (c.message_lengthHint limit), ih hclosed⟩

/-- The symbol `x` at the end of a line. -/
theorem TokenRead.scan_x (options : Options) {c : Cursor σ} (hrest : c.rest = [Byte.ofChar 'x'])
    {table : IdentTable} (htable : IdentTable.fresh.Extends table) :
    (scan options c table).token.kind = .symbol ∧ (scan options c table).token.text = "x" ∧
      (scan options c table).cursor = c.advance 1 ∧
      (scan options c table).pendingIndent = none ∧ (scan options c table).diagnostics = [] := by
  have hopening : StringOpening.ofLine? c.before? c.rest = none := by
    rw [hrest]
    rfl
  have hpiece : Piece.ofBytes (context options c) (Byte.ofChar 'x') [] =
      { kind := .symbol, length := 1,
        name := some ⟨.word, [Byte.ofChar 'x'], IdentHash.ofBytes [Byte.ofChar 'x']⟩ } := rfl
  have hread := scan_of_bytes options hrest (by decide) hopening table
  rw [hpiece, ofPiece, Piece.toToken] at hread
  obtain ⟨i, hi⟩ : ∃ i, i =
      (table.internBytes [Byte.ofChar 'x'] (IdentHash.ofBytes [Byte.ofChar 'x'])).1 := ⟨_, rfl⟩
  have hkind : NameRole.word.kind i = .symbol := by
    rw [hi, IdentTable.kind_internBytes htable]
    decide +kernel
  have hname : i.name = "x" := by
    rw [hi, IdentTable.name_internBytes]
    decide +kernel
  dsimp only at hread
  rw [← hi, hkind] at hread
  rw [hread]
  exact ⟨rfl, hname, rfl, rfl, rfl⟩

end Sources

namespace Lexer

open BlockForm Text

section Nested

variable {w : List UInt8} {first : Nat} {l : Lexer Text} {table : IdentTable}

/-- A lexer at the start of a nested comment with the symbol `x` behind it, to be passed over. -/
structure Faces (l : Lexer Text) (first : Nat) (w : List UInt8) : Prop where
  located : l.cursor.Located (w ++ [Byte.space, Byte.ofChar 'x']) first
  offset_eq : l.cursor.offset = 0
  retain_eq : l.options.retainComments = false
  nested : Nested w
  /-- The openers can be counted. -/
  openers_lt : occurrences ordinary.opener (w ++ [Byte.space, Byte.ofChar 'x'])
    (w ++ [Byte.space, Byte.ofChar 'x']).length < pow2 32

/-- The comment that stands in front. -/
def facing (l : Lexer Text) : BlockComment Text :=
  .opened .ordinary l.options.maxLineLength l.cursor

theorem Faces.opener_prefix (h : l.Faces first w) : ordinary.opener <+: l.cursor.rest := by
  have hopener := h.nested.opener_prefix.trans (List.prefix_append w [Byte.space, Byte.ofChar 'x'])
  rw [h.located.within.rest_eq, h.offset_eq]
  exact (Line.prefix_first_iff ordinary.isText_opener).2 hopener

theorem Faces.ends (h : l.Faces first w) :
    BlockEnds .ordinary 0 (w ++ [Byte.space, Byte.ofChar 'x']) 0 2 l.facing.closed
      l.facing.cursor.offset := by
  have hends := BlockComment.ends_opened l.options.maxLineLength h.located.within h.opener_prefix
  rw [h.offset_eq] at hends
  exact hends.exact_of_lt h.openers_lt

theorem Faces.within (h : l.Faces first w) :
    l.facing.cursor.Within (w ++ [Byte.space, Byte.ofChar 'x']) :=
  ((BlockComment.route_opened _ h.opener_prefix).reaches h.located.within).within

/-- From behind the comment, blanks go on. -/
theorem Faces.blank_eq (h : l.Faces first w) {ds : List Diagnostic} {d : Cursor Text}
    (hleads : Blank.Leads l.options l.facing.cursor ds d) :
    l.blank.diagnostics = l.facing.diagnostics ++ ds ∧ l.blank.cursor = d :=
  blank_eq_of_leads (.opener h.opener_prefix h.retain_eq hleads)

/-- Without reopeners the comment is passed over, and the symbol is all there is. -/
theorem Faces.tokens_of_not_infix (h : l.Faces first w) (hnone : ¬reopener <:+: w)
    (htable : IdentTable.fresh.Extends table) :
    ∃ x e, l.tokens table = [x, e] ∧ x.kind = .symbol ∧ x.text = "x" ∧ e.kind = .eof ∧
      Diagnostic.ErrorFree (l.diagnostics table) := by
  obtain ⟨hclosed, hoffset⟩ := h.ends.unique ((h.nested.ends (by decide)).1 hnone)
  obtain ⟨hrest, hlast⟩ : l.facing.cursor.rest = [Byte.space, Byte.ofChar 'x'] ∧
      l.facing.cursor.isLast = true := by
    refine h.within.isLast_of_drop ?_ (List.all_eq_true.1 (by decide))
    rw [hoffset, List.drop_left]
  have hrun : Blank.run l.options 0 l.facing.cursor = ⟨1, 1, .token, []⟩ := by
    rw [Blank.run, hrest]
    rfl
  have hleads : Blank.Leads l.options l.facing.cursor [] (l.facing.cursor.advance 1) := by
    have htoken := @Blank.Leads.token Text _ l.options l.facing.cursor (by rw [hrun])
    rw [hrun] at htoken
    exact htoken
  obtain ⟨hblank, hcursor⟩ := h.blank_eq hleads
  have hsymbol : l.blank.cursor.rest = [Byte.ofChar 'x'] := by
    rw [hcursor, Cursor.rest_advance, hrest]
    rfl
  obtain ⟨hkind, htext, hbehind, hpending, hfindings⟩ :=
    TokenRead.scan_x l.options hsymbol htable
  have hend : (l.next table).lexer.AtEnd := by
    refine ⟨?_, ?_, hpending⟩
    · change (TokenRead.scan l.options l.blank.cursor table).cursor.rest = []
      rw [hbehind, Cursor.rest_advance, hsymbol]
      rfl
    · change (TokenRead.scan l.options l.blank.cursor table).cursor.isLast = true
      rw [hbehind, hcursor]
      exact hlast
  obtain ⟨heof, -, hnothing, -⟩ := hend.next_eq (l.next table).table
  have hne : (l.next table).token.kind ≠ .eof := by
    change (TokenRead.scan l.options l.blank.cursor table).token.kind ≠ .eof
    rw [hkind]
    exact Kind.noConfusion
  refine ⟨(l.next table).token, ((l.next table).lexer.next (l.next table).table).token, ?_,
    hkind, htext, heof, ?_⟩
  · rw [tokens_of_ne_eof hne, tokens_of_eof heof]
  · have hfree := BlockComment.errorFree_scan .ordinary l.options.maxLineLength 0 0 _ hclosed
    have hfirst : (l.next table).diagnostics = l.facing.diagnostics ++ [] ++ [] :=
      congr (congrArg _ hblank) hfindings
    rw [diagnostics_of_ne_eof hne, diagnostics_of_eof heof, hnothing, hfirst, List.append_nil,
      List.append_nil, List.append_nil]
    exact hfree

/-- With a reopener the comment takes the rest of the input, and its end is missed. -/
theorem Faces.tokens_of_infix (h : l.Faces first w) (hsome : reopener <:+: w) :
    ∃ e, l.tokens table = [e] ∧ e.kind = .eof ∧
      Diagnostic.about .unterminatedComment (l.diagnostics table) =
        [⟨Text.endPosition l.cursor.file first (w ++ [Byte.space, Byte.ofChar 'x']),
          .unterminatedComment⟩] := by
  obtain ⟨hopen, hoffset⟩ := h.ends.unique ((h.nested.ends (by decide)).2 hsome)
  obtain ⟨hrest, hlast⟩ : l.facing.cursor.rest = [] ∧ l.facing.cursor.isLast = true := by
    refine h.within.isLast_of_drop ?_ (List.forall_mem_nil _)
    rw [hoffset, List.drop_length]
  have hrun := Blank.run_lineEnd l.options hrest
  have hleads : Blank.Leads l.options l.facing.cursor [] (l.facing.cursor.advance 0) := by
    have hend := @Blank.Leads.last Text _ l.options l.facing.cursor (by rw [hrun]) hlast
    rw [hrun] at hend
    exact hend
  obtain ⟨hblank, hcursor⟩ := h.blank_eq hleads
  have hnil : l.blank.cursor.rest = [] := by
    rw [hcursor, Cursor.rest_advance, hrest]
    rfl
  have heof := (kind_next_eq_eof_iff l table).2 hnil
  refine ⟨_, tokens_of_eof heof, heof, ?_⟩
  have hread := TokenRead.scan_of_nil l.options hnil table
  have habout :=
    (BlockComment.endsIn_opened l.options.maxLineLength h.located h.opener_prefix).about_eq
  change Diagnostic.about _ l.facing.diagnostics = if l.facing.closed then _ else _ at habout
  rw [hopen] at habout
  rw [diagnostics_of_eof heof, next, hread, hblank, Diagnostic.about_append,
    Diagnostic.about_append, habout]
  rfl

end Nested

theorem faces_ofText (file : FileId) {options : Options}
    (hretain : options.retainComments = false) {w : List UInt8} (hw : Nested w)
    (hopeners : occurrences ordinary.opener (w ++ [Byte.space, Byte.ofChar 'x'])
      (w ++ [Byte.space, Byte.ofChar 'x']).length < pow2 32) :
    (ofText file options (w ++ [Byte.space, Byte.ofChar 'x'])).Faces (1 + options.lineOffset)
      w where
  located := located_ofText file options _
  offset_eq := by
    have hmark : Reader.byteOrderMark.isPrefixOf (w ++ [Byte.space, Byte.ofChar 'x']) = false := by
      obtain ⟨more, rfl⟩ := hw.opener_prefix
      rfl
    rw [offset_ofText, lineStart, hmark]
    rfl
  retain_eq := hretain
  nested := hw
  openers_lt := hopeners

/-- A well-nested comment in front of the symbol `x`, comments not being retained, with fewer
openers than a number of 32 bits can count. If no closer has a bracket behind it, the symbol and the
end are all that is read, and no error is reported. If one has, nothing is read but the end, and the
missing end of the comment is reported. -/
theorem open?_nestedBlock (file : FileId) (stream : ByteStream) (options : Options)
    (h : 0 < options.bufferSize) (hretain : options.retainComments = false) {w : List UInt8}
    (hw : Text.Nested w) (hbytes : stream.bytes = w ++ [Byte.space, Byte.ofChar 'x'])
    (hopeners :
      Text.occurrences BlockForm.ordinary.opener stream.bytes stream.bytes.length < pow2 32) :
    ∃ l, open? file stream options = .ok l ∧ ∀ table, IdentTable.fresh.Extends table →
      (¬Text.reopener <:+: w →
        ∃ x e, l.tokens table = [x, e] ∧ x.kind = .symbol ∧ x.text = "x" ∧ e.kind = .eof ∧
          Diagnostic.ErrorFree (l.diagnostics table)) ∧
      (Text.reopener <:+: w →
        ∃ e, l.tokens table = [e] ∧ e.kind = .eof ∧
          Diagnostic.about .unterminatedComment (l.diagnostics table) =
            [⟨Text.endPosition file (1 + options.lineOffset) stream.bytes,
              .unterminatedComment⟩]) := by
  refine ⟨_, open?_eq_ok file stream options h, fun table htable => ?_⟩
  rw [hbytes] at hopeners
  have hfaces := faces_ofText file hretain hw hopeners
  rw [tokens_ofStream, diagnostics_ofStream, hbytes]
  exact ⟨fun hnone => hfaces.tokens_of_not_infix hnone htable, hfaces.tokens_of_infix⟩

/-- Blocks side by side and inside each other, over a terminator that windows split. -/
def nestedComment : List UInt8 :=
  [35, 91, 97, 13, 10, 35, 91, 91, 35, 91, 93, 35, 35, 91, 98, 93, 35, 93, 35, 10, 91, 93, 35]

theorem nested_nestedComment : Text.Nested nestedComment :=
  .mk (.ofAll [97, 13, 10] (by decide)
    (.block (.ofAll [91] (by decide) (.block .nil (.block (.ofAll [98] (by decide) .nil) .nil)))
      (.ofAll [10, 91] (by decide) .nil)))

theorem open?_nestedBlock_nestedComment :
    0 < 1 ∧ ({ bufferSize := 1 } : Options).retainComments = false ∧ Text.Nested nestedComment ∧
      (ByteStream.ofBytes (nestedComment ++ [32, 120])).bytes =
        nestedComment ++ [Byte.space, Byte.ofChar 'x'] ∧
      Text.occurrences BlockForm.ordinary.opener
        (ByteStream.ofBytes (nestedComment ++ [32, 120])).bytes
        (ByteStream.ofBytes (nestedComment ++ [32, 120])).bytes.length < pow2 32 ∧
      IdentTable.fresh.Extends .fresh ∧ ¬Text.reopener <:+: nestedComment ∧
      ∃ l, open? {} (.ofBytes (nestedComment ++ [32, 120])) { bufferSize := 1 } = .ok l ∧
        ∃ x e, l.tokens .fresh = [x, e] ∧ x.kind = .symbol ∧ x.text = "x" ∧ e.kind = .eof ∧
          Diagnostic.ErrorFree (l.diagnostics .fresh) := by
  have hbytes : (ByteStream.ofBytes (nestedComment ++ [32, 120])).bytes =
      nestedComment ++ [Byte.space, Byte.ofChar 'x'] := by decide
  have hopeners : Text.occurrences BlockForm.ordinary.opener
      (ByteStream.ofBytes (nestedComment ++ [32, 120])).bytes
      (ByteStream.ofBytes (nestedComment ++ [32, 120])).bytes.length < pow2 32 :=
    Nat.lt_of_le_of_lt (Text.occurrences_le _ _ _) (by decide)
  have hnone : ¬Text.reopener <:+: nestedComment := by decide
  obtain ⟨l, hopen, hrun⟩ := open?_nestedBlock {} (.ofBytes (nestedComment ++ [32, 120]))
    { bufferSize := 1 } (by decide) rfl nested_nestedComment hbytes hopeners
  exact ⟨by decide, rfl, nested_nestedComment, hbytes, hopeners, .refl _, hnone, l, hopen,
    (hrun .fresh (.refl _)).1 hnone⟩

/-- An inner block with a bracket behind its closer. -/
def reopenedComment : List UInt8 := [35, 91, 35, 91, 93, 35, 91, 93, 35]

/-- The comment is well-nested, but the symbol behind it is not read. -/
theorem open?_reopenedComment :
    Text.Nested reopenedComment ∧
      ∃ l, open? {} (.ofBytes (reopenedComment ++ [32, 120])) {} = .ok l ∧
        (l.tokens .fresh).map Token.kind = [.eof] ∧
        ¬Diagnostic.ErrorFree (l.diagnostics .fresh) := by
  have hnested : Text.Nested reopenedComment :=
    .mk (.block .nil (.ofAll [91] (by decide) .nil))
  have htext : let l := ofText {} {} (ByteStream.ofBytes (reopenedComment ++ [32, 120])).bytes
      (l.tokens .fresh).map Token.kind = [.eof] ∧
        (l.diagnostics .fresh).any Diagnostic.isError = true := by
    decide +kernel
  obtain ⟨htokens, herror⟩ := htext
  refine ⟨hnested, _, open?_eq_ok _ _ _ (by decide), ?_, ?_⟩
  · rw [tokens_ofStream]
    exact htokens
  · rw [diagnostics_ofStream]
    intro hfree
    obtain ⟨d, hd, hd'⟩ := List.any_eq_true.1 herror
    rw [hfree d hd] at hd'
    cases hd'

end Lexer
end Lexeme
