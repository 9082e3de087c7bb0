import Lexeme.Proofs.Layout.Leads
import Lexeme.Proofs.Lexer.Positions

/-!
# Spaces around operators

An operator tells how many spaces follow it before it is known what they lead to, and the token
behind it counts them again. Without tabs and comments the two agree, up to the count both stop at,
and an operator that tells of none is the last token of its line. Two offsets are on one line if the
same terminators end in front of both.
-/

set_option autoImplicit false

namespace Lexeme

/-- The kinds of the tokens that are written like operators. -/
def Kind.isOperator : Kind → Bool
  | operator => true
  | mark m => m ∈ Mark.operators
  | _ => false

/-! ## The spaces an operator tells of -/

theorem NameRole.isOperator_kind (role : NameRole) (i : Ident) :
    (role.kind i).isOperator = decide (role = .operator) := by
  cases role with
  | word =>
    rw [kind]
    cases Ident.keywordOf? i.id with
    | none => rfl
    | some k => rfl
  | operator =>
    rw [kind]
    cases h : Ident.markOf? i.id with
    | none => rfl
    | some m =>
      have hmem : m ∈ Mark.operators := by
        unfold Ident.markOf? at h
        split at h
        · exact List.mem_of_getElem? h
        · cases h
      exact decide_eq_true hmem

theorem Kind.isOperator_of_isNumber {kind : Kind} (h : kind.isNumber = true) :
    kind.isOperator = false := by
  cases kind with
  | operator => cases h
  | mark m => cases h
  | _ => rfl

namespace Piece

theorem spaceAfter_toToken (p : Piece) (table : IdentTable) :
    (p.toToken table).1.spaceAfter = p.spaceAfter := by
  unfold toToken
  dsimp only
  split
  · rfl
  · rfl

/-- A piece with a name is an operator by the role of the name. -/
theorem isOperator_toToken (p : Piece) (table : IdentTable) :
    (p.toToken table).1.kind.isOperator =
      p.name.elim p.kind.isOperator fun n => decide (n.role = .operator) := by
  unfold toToken
  dsimp only
  split
  · rename_i hname
    rw [hname]
    rfl
  · rename_i n hname
    rw [hname]
    exact n.role.isOperator_kind _

/-- An operator tells of the spaces behind the bytes it takes. -/
theorem spaceAfter_ofBytes {ctx : Escape.Context} {b : UInt8} {rest : List UInt8}
    {table : IdentTable} (h : ((ofBytes ctx b rest).toToken table).1.kind.isOperator = true) :
    (ofBytes ctx b rest).spaceAfter =
      Spelling.spacesAhead ((b :: rest).drop (ofBytes ctx b rest).length) := by
  rw [isOperator_toToken] at h
  cases way ctx b rest with
  | symbol hb heq => rw [heq] at h; cases h
  | exportMark hm heq =>
    rw [heq]
    unfold Spelling.isExportMark at hm
    split at hm
    · rename_i hline
      rw [hline]
      rfl
    · rename_i hline
      rw [hline]
      rfl
    · cases hm
  | punctuation p hp heq =>
    rw [heq] at h
    obtain ⟨-, rfl⟩ | ⟨m, hm, -, rfl⟩ := punctuation?_cases hp
    · cases h
    · exact absurd (of_decide_eq_true h) hm
  | underscore hb heq =>
    rw [heq, ofUnderscore] at h
    split at h
    · cases h
    · cases h
  | character heq => rw [heq] at h; cases h
  | number hb heq =>
    rw [heq] at h
    exact absurd h (Bool.eq_false_iff.1 (Kind.isOperator_of_isNumber (isNumber_scan (b :: rest))))
  | operator hb heq =>
    rw [heq]
    rfl
  | stray heq => rw [heq] at h; cases h

end Piece

namespace TokenRead

variable {σ : Type} [LineSource σ]

theorem spaceAfter_scan (options : Options) (c : Cursor σ) (table : IdentTable)
    (h : (scan options c table).token.kind.isOperator = true) :
    (scan options c table).token.spaceAfter =
        Spelling.spacesAhead (scan options c table).cursor.rest ∧
      (scan options c table).cursor.source = c.source := by
  cases way c with
  | nil hnil => rw [scan_of_nil options hnil] at h; cases h
  | comment rest hcomment => rw [scan_of_hash options hcomment] at h; cases h
  | triple o ho ht => rw [scan_of_triple options ho ht] at h; cases h
  | string o ho ht =>
    rw [scan_of_string options ho ht, ofPiece] at h
    change ((Piece.ofString _ o c.rest).toToken table).1.kind.isOperator = true at h
    rw [Piece.isOperator_toToken] at h
    cases h
  | bytes b rest hbytes hb ho =>
    rw [scan_of_bytes options hbytes hb ho] at h ⊢
    refine ⟨?_, rfl⟩
    have hspaces := Piece.spaceAfter_ofBytes h
    rw [← hbytes] at hspaces
    change ((Piece.ofBytes _ b rest).toToken table).1.spaceAfter = _
    rw [Piece.spaceAfter_toToken, hspaces]
    exact congrArg Spelling.spacesAhead (c.rest_advance _).symm

end TokenRead

/-! ## The spaces in front of a token -/

theorem dropWhile_space (line : List UInt8) :
    line.dropWhile (· == Byte.space) = line.drop (leadingSpaces line) := by
  have hsplit := List.takeWhile_append_dropWhile (p := (· == Byte.space)) (l := line)
  have hdrop : (line.takeWhile (· == Byte.space) ++ line.dropWhile (· == Byte.space)).drop
      (leadingSpaces line) = line.dropWhile (· == Byte.space) := List.drop_left
  rw [hsplit] at hdrop
  exact hdrop.symm

namespace Spelling

theorem spacesAhead_of_end {line : List UInt8} (h : line.drop (leadingSpaces line) = []) :
    spacesAhead line = none := by
  rw [spacesAhead, dropWhile_space, h]

theorem spacesAhead_of_ne {line : List UInt8} (h : line.drop (leadingSpaces line) ≠ []) :
    spacesAhead line = some (min (leadingSpaces line) Token.maxSpaces) := by
  obtain ⟨b, rest, hrest⟩ := List.exists_cons_of_ne_nil h
  rw [spacesAhead, dropWhile_space, hrest]
  rfl

end Spelling

/-- Without tabs and comments a run of blanks is the leading spaces. -/
theorem BlankRun.scan_of_spaces (options : Options) {line : List UInt8} (htab : Byte.tab ∉ line)
    (hhash : Byte.hash ∉ line) (offset : Nat) {spaces : Nat} (hspaces : spaces ≤ Token.maxSpaces) :
    scan options offset spaces line =
      ⟨offset + leadingSpaces line, min (spaces + leadingSpaces line) Token.maxSpaces,
        if line.drop (leadingSpaces line) = [] then .lineEnd else .token, []⟩ := by
  induction line generalizing offset spaces with
  | nil =>
    have hmin : min spaces Token.maxSpaces = spaces := Nat.min_eq_left hspaces
    simp [scan, leadingSpaces, hmin]
  | cons b rest ih =>
    rw [List.mem_cons, not_or] at htab hhash
    by_cases hb : b = Byte.space
    · subst hb
      have hle : min (spaces + 1) Token.maxSpaces ≤ Token.maxSpaces := Nat.min_le_right _ _
      have hrest := ih htab.2 hhash.2 (offset + 1) hle
      have hmin : min (min (spaces + 1) Token.maxSpaces + leadingSpaces rest) Token.maxSpaces =
          min (spaces + (leadingSpaces rest + 1)) Token.maxSpaces := by
        omega
      rw [scan, if_pos (beq_self_eq_true _), hrest, leadingSpaces_cons_space, hmin,
        Nat.add_assoc, Nat.add_comm 1, List.drop_succ_cons]
    · have hmin : min spaces Token.maxSpaces = spaces := Nat.min_eq_left hspaces
      rw [scan, if_neg (by simpa using hb), if_neg (by simpa using Ne.symm htab.1),
        if_neg (by simpa using Ne.symm hhash.1), leadingSpaces_cons_of_ne hb, Nat.add_zero,
        Nat.add_zero, hmin]
      rfl

namespace Blank

section Spaces

variable {σ : Type} [LineSource σ] (options : Options) {c : Cursor σ}
  (htab : Byte.tab ∉ c.rest) (hhash : Byte.hash ∉ c.rest)

include htab hhash

theorem run_of_spaces : run options 0 c =
    ⟨leadingSpaces c.rest, min (leadingSpaces c.rest) Token.maxSpaces,
      if c.rest.drop (leadingSpaces c.rest) = [] then .lineEnd else .token, []⟩ := by
  rw [run, BlankRun.scan_of_spaces options htab hhash 0 (Nat.zero_le _), Nat.zero_add]

theorem scan_of_spaces (h : c.rest.drop (leadingSpaces c.rest) ≠ []) :
    scan options 0 c =
      ⟨c.advance (leadingSpaces c.rest), min (leadingSpaces c.rest) Token.maxSpaces, none, []⟩ := by
  have hrun := run_of_spaces options htab hhash
  rw [if_neg h] at hrun
  rw [scan_of_token (by rw [hrun]), hrun]
  rfl

/-- With nothing but spaces left on the line, the blanks lead to a later one or to the end. -/
theorem route_scan_of_end (h : c.rest.drop (leadingSpaces c.rest) = []) :
    (scan options 0 c).cursor.rest = [] ∨
      c.isLast = false ∧ Cursor.Route c.nextLine (scan options 0 c).cursor := by
  have hrun := run_of_spaces options htab hhash
  rw [if_pos h] at hrun
  have hend : (run options 0 c).ending = .lineEnd := by rw [hrun]
  cases hlast : c.isLast with
  | true =>
    rw [scan_of_isLast hend hlast, hrun]
    exact .inl (by rw [Cursor.rest_advance, h])
  | false =>
    have hahead : Cursor.Route c.nextLine (ahead options c).cursor :=
      Indentation.route_scan options 0 c.nextLine
    refine .inr ⟨rfl, ?_⟩
    rw [scan_of_lineEnd hend hlast]
    split
    · exact hahead
    · exact hahead.trans (route_scan options 0 _)

end Spaces
end Blank

/-! ## Runs -/

namespace Lexer

/-- What an operator and the token behind it tell of the spaces between them. -/
structure SpacesAgree {σ : Type} [LineSource σ] (input : List UInt8) (l : Lexer σ)
    (tables : Nat → IdentTable) (k : Nat) : Prop where
  /-- On one line both tell how many spaces are between them, up to 255. -/
  sameLine : (l.turn tables (k + 1)).token.kind ≠ .eof →
    Text.breaksBefore input (l.reached tables (k + 1)).tokenOffset =
      Text.breaksBefore input (l.reached tables k).tokenOffset →
    (∀ i, (l.reached tables (k + 1)).cursor.offset ≤ i →
        i < (l.reached tables (k + 1)).tokenOffset → input[i]? = some Byte.space) ∧
      (l.turn tables (k + 1)).token.spaceBefore =
        min ((l.reached tables (k + 1)).tokenOffset - (l.reached tables (k + 1)).cursor.offset)
          255 ∧
      (l.turn tables k).token.spaceAfter = some (l.turn tables (k + 1)).token.spaceBefore
  /-- At the end of a line and of the input the operator tells of none. -/
  lineEnd : (l.turn tables (k + 1)).token.kind = .eof ∨
      Text.breaksBefore input (l.reached tables (k + 1)).tokenOffset ≠
        Text.breaksBefore input (l.reached tables k).tokenOffset →
    (l.turn tables k).token.spaceAfter = none
  /-- If the lines can be counted, they are told apart by their numbers. -/
  line_eq_iff : input.length < pow2 32 →
    ((l.turn tables (k + 1)).token.line = (l.turn tables k).token.line ↔
      Text.breaksBefore input (l.reached tables (k + 1)).tokenOffset =
        Text.breaksBefore input (l.reached tables k).tokenOffset)

section Step

variable {σ : Type} [LineSource σ] {l : Lexer σ} (htab : Byte.tab ∉ l.cursor.rest)
  (hhash : Byte.hash ∉ l.cursor.rest) (table : IdentTable)

include htab hhash

/-- With nothing but spaces left on the line, the next token is on a later one. -/
theorem route_next_of_end (h : l.cursor.rest.drop (leadingSpaces l.cursor.rest) = [])
    (hne : (l.next table).token.kind ≠ .eof) :
    l.cursor.isLast = false ∧ Cursor.Route l.cursor.nextLine l.blank.cursor := by
  refine (Blank.route_scan_of_end l.options htab hhash h).resolve_left fun hnil => ?_
  exact hne ((kind_next_eq_eof_iff l table).2 hnil)

/-- With more on the line, the next token starts behind the spaces and tells of them. -/
theorem next_of_spaces (h : l.cursor.rest.drop (leadingSpaces l.cursor.rest) ≠ []) :
    (l.next table).token.kind ≠ .eof ∧ l.blank.cursor.source = l.cursor.source ∧
      l.tokenOffset = l.cursor.offset + leadingSpaces l.cursor.rest ∧
      (l.next table).token.spaceBefore =
        min (leadingSpaces l.cursor.rest) Token.maxSpaces := by
  have hblank : l.blank = _ := Blank.scan_of_spaces l.options htab hhash h
  refine ⟨fun hkind => ?_, ?_, ?_, congrArg Blank.spaces hblank⟩
  · have hnil := (kind_next_eq_eof_iff l table).1 hkind
    rw [hblank, Cursor.rest_advance] at hnil
    exact h hnil
  · rw [hblank]
    rfl
  · rw [tokenOffset, hblank, Cursor.offset_advance]

end Step

section Text

variable {input : List UInt8} {l : Lexer Text} {first : Nat}

/-- Tokens that start in front of the same terminators have one line number, and if the lines can be
counted, only they do. -/
theorem line_token_eq_iff (h : l.cursor.Located input first) (tables : Nat → IdentTable) (k : Nat)
    (hlen : input.length < pow2 32) :
    (l.turn tables (k + 1)).token.line = (l.turn tables k).token.line ↔
      Text.breaksBefore input (l.reached tables (k + 1)).tokenOffset =
        Text.breaksBefore input (l.reached tables k).tokenOffset := by
  have hline : ∀ j, (l.turn tables j).token.line =
      wrap32 (first + Text.breaksBefore input (l.reached tables j).tokenOffset) :=
    fun j => congrArg Position.line ((positioned_of_located h hlen tables).token_eq j)
  have hop := ((route_reached l tables k).trans (route_blank _)).located h
  have hnext : Cursor.Route (l.reached tables k).blank.cursor
      (l.reached tables (k + 1)).blank.cursor := (route_token _ (tables k)).trans (route_blank _)
  have hmono : Text.breaksBefore input (l.reached tables k).tokenOffset ≤
      Text.breaksBefore input (l.reached tables (k + 1)).tokenOffset :=
    Text.breaksBefore_mono input (hnext.reaches hop.within).le
  have hle := (hnext.located hop).within.offset_le
  have hcount : Text.breaksBefore input (l.reached tables (k + 1)).tokenOffset < pow2 32 :=
    (Text.breaksBefore_le input _).trans_lt ((Nat.le_of_add_right_le hle).trans_lt hlen)
  rw [hline, hline]
  refine ⟨fun heq => ?_, fun heq => by rw [heq]⟩
  obtain ⟨n, hn⟩ := Nat.exists_eq_add_of_le hmono
  rw [hn, ← Nat.add_assoc] at heq
  rw [hn, wrap32_add_left_cancel (by omega) heq]
  rfl

variable (htab : Byte.tab ∉ input) (hhash : Byte.hash ∉ input)
include htab hhash

theorem spacesAgree_of_located (h : l.cursor.Located input first) {tables : Nat → IdentTable}
    {k : Nat} (hop : (l.turn tables k).token.kind.isOperator = true) :
    l.SpacesAgree input tables k := by
  have hoperator := ((route_reached l tables k).trans (route_blank _)).located h
  have hlocated := (route_reached l tables (k + 1)).located h
  have hnext := (route_blank (l.reached tables (k + 1))).located hlocated
  have hwithin := hlocated.within
  have htab' : Byte.tab ∉ (l.reached tables (k + 1)).cursor.rest :=
    fun hmem => htab (hwithin.mem_of_mem_rest hmem)
  have hhash' : Byte.hash ∉ (l.reached tables (k + 1)).cursor.rest :=
    fun hmem => hhash (hwithin.mem_of_mem_rest hmem)
  obtain ⟨hafter, hsource⟩ := TokenRead.spaceAfter_scan _ _ (tables k) hop
  change (l.turn tables k).token.spaceAfter =
    Spelling.spacesAhead (l.reached tables (k + 1)).cursor.rest at hafter
  change (l.reached tables (k + 1)).cursor.source = (l.reached tables k).blank.cursor.source
    at hsource
  have hline : Text.breaksBefore input (l.reached tables (k + 1)).cursor.offset =
      Text.breaksBefore input (l.reached tables k).tokenOffset :=
    hoperator.breaksBefore_eq hlocated (congrArg Text.offset hsource)
  by_cases hrest : (l.reached tables (k + 1)).cursor.rest.drop
      (leadingSpaces (l.reached tables (k + 1)).cursor.rest) = []
  · rw [Spelling.spacesAhead_of_end hrest] at hafter
    refine ⟨fun hne hsame => ?_, fun _ => hafter, line_token_eq_iff h tables k⟩
    obtain ⟨hlast, hroute⟩ := route_next_of_end htab' hhash' (tables (k + 1)) hrest hne
    have hbreak := (hwithin.location_nextLine hlast).1
    have hlater := Text.breaksBefore_mono input
      (hroute.reaches (Cursor.within_nextLine hwithin hlast).1).le
    rw [Cursor.offset_nextLine hlast, hbreak, ← hlocated.location_eq.1, hline] at hlater
    change _ ≤ Text.breaksBefore input (l.reached tables (k + 1)).tokenOffset at hlater
    omega
  · obtain ⟨hne, hsame, hoffset, hbefore⟩ :=
      next_of_spaces htab' hhash' (tables (k + 1)) hrest
    change (l.turn tables (k + 1)).token.spaceBefore = _ at hbefore
    rw [Spelling.spacesAhead_of_ne hrest] at hafter
    refine ⟨fun _ _ => ⟨?_, ?_, ?_⟩, fun hend => ?_, line_token_eq_iff h tables k⟩
    · intro i hlo hhi
      obtain ⟨j, rfl⟩ := Nat.exists_eq_add_of_le hlo
      have hj : j < leadingSpaces (l.reached tables (k + 1)).cursor.rest := by omega
      exact hwithin.getElem?_leadingSpaces hj
    · rw [hbefore, hoffset, Nat.add_sub_cancel_left]
      rfl
    · rw [hafter, hbefore]
    · have hbreaks := hlocated.breaksBefore_eq hnext (congrArg Text.offset hsame)
      exact absurd (hbreaks.trans hline) (hend.resolve_left hne)

end Text

/-- On any stream without tabs and comments, an operator and the token behind it on its line tell of
the same spaces between them, and an operator tells of none where its line ends behind it. -/
theorem open?_spacesAgree (file : FileId) (stream : ByteStream) (options : Options)
    (h : 0 < options.bufferSize) (htab : Byte.tab ∉ stream.bytes)
    (hhash : Byte.hash ∉ stream.bytes) :
    ∃ l, open? file stream options = .ok l ∧ ∀ tables k,
      (l.turn tables k).token.kind.isOperator = true → l.SpacesAgree stream.bytes tables k := by
  refine ⟨_, open?_eq_ok file stream options h, fun tables k hop => ?_⟩
  rw [token_turn_ofStream] at hop
  have hlocated := located_ofText file options stream.bytes
  obtain ⟨hsame, hend, hlines⟩ := spacesAgree_of_located htab hhash hlocated hop
  constructor
  · rw [token_turn_ofStream, token_turn_ofStream, offset_reached_ofStream,
      tokenOffset_reached_ofStream, tokenOffset_reached_ofStream]
    exact hsame
  · rw [token_turn_ofStream, token_turn_ofStream, tokenOffset_reached_ofStream,
      tokenOffset_reached_ofStream]
    exact hend
  · rw [token_turn_ofStream, token_turn_ofStream, tokenOffset_reached_ofStream,
      tokenOffset_reached_ofStream]
    exact hlines

/-- Operators in front of spaces, a star that is split off, and an operator at the end of a line. -/
def spacedOperators : ByteStream :=
  ⟨[.chunk 97 [32, 32, 43, 32], .interruption, .chunk 32 [32, 98, 42, 58, 32, 99, 61, 32],
    .chunk 13 [10, 100]], .closed⟩

theorem open?_spacesAgree_spacedOperators :
    0 < 1 ∧ Byte.tab ∉ spacedOperators.bytes ∧ Byte.hash ∉ spacedOperators.bytes ∧
      ∃ l, open? {} spacedOperators { bufferSize := 1 } = .ok l ∧ ∀ k ∈ [1, 3, 4, 6],
        (l.turn (fun _ => .fresh) k).token.kind.isOperator = true ∧
          l.SpacesAgree spacedOperators.bytes (fun _ => .fresh) k := by
  have htab : Byte.tab ∉ spacedOperators.bytes := by decide
  have hhash : Byte.hash ∉ spacedOperators.bytes := by decide
  obtain ⟨l, hopen, hrun⟩ := open?_spacesAgree {} spacedOperators { bufferSize := 1 } (by decide)
    htab hhash
  obtain rfl := Except.ok.inj ((open?_eq_ok {} spacedOperators _ (by decide)).symm.trans hopen)
  refine ⟨by decide, htab, hhash, _, hopen, fun k hk => ?_⟩
  have hop : (((ofStream {} spacedOperators { bufferSize := 1 } (by decide)).map
      SoundReader.toReader).turn (fun _ => .fresh) k).token.kind.isOperator = true := by
    have htext : ∀ k ∈ [1, 3, 4, 6], ((ofText {} { bufferSize := 1 } spacedOperators.bytes).turn
        (fun _ => .fresh) k).token.kind.isOperator = true := by decide +kernel
    rw [token_turn_ofStream]
    exact htext k hk
  exact ⟨hop, hrun _ k hop⟩

end Lexer
end Lexeme
