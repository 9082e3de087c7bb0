import Lexeme.Proofs.Lexer.NumberToken
import Lexeme.Proofs.Lexer.Positions
import Lexeme.Proofs.Lexer.SourceText
import Lexeme.Proofs.Text.RoundTrip

/-!
# Identifiers as tokens

A text is an identifier exactly if the first call on it reads a word at its start, takes the whole
text and complains about nothing; the word is then known by the text in small letters. This is not
said of a lone underscore, which is a word and no identifier, and of a text that starts with a byte
order mark, which no token takes.
-/

set_option autoImplicit false

namespace Lexeme

/-! ## Words -/

/-- Symbols and keywords. -/
def Kind.isWord : Kind → Bool
  | symbol | keyword _ => true
  | _ => false

theorem NameRole.isWord_kind (role : NameRole) (i : Ident) :
    (role.kind i).isWord = decide (role = word) := by
  cases role with
  | word =>
    rw [kind]
    cases Ident.keywordOf? i.id <;> rfl
  | operator =>
    rw [kind]
    cases Ident.markOf? i.id <;> rfl

/-- A word is read from bytes that begin as a word does. -/
theorem Token.SourceIs.startsWord {source : List UInt8} {table : IdentTable} {t : Token}
    (h : t.SourceIs source table) (hkind : t.kind.isWord = true) :
    Spelling.startsWord source = true := by
  cases h with
  | unnamed hident hdepicts =>
    cases hk : t.kind with
    | symbol => rw [hk] at hdepicts; exact hdepicts.elim
    | keyword k => rw [hk] at hdepicts; exact hdepicts.elim
    | _ => rw [hk] at hkind; cases hkind
  | named i role hident hrole hname hreads hget =>
    rw [hrole, NameRole.isWord_kind, decide_eq_true_eq] at hkind
    rw [hkind] at hreads
    exact hreads

namespace Piece

variable (ctx : Escape.Context) {b : UInt8} {rest : List UInt8}

/-- A symbol is read wherever a line starts with one. -/
theorem ofBytes_of_isSymbolStart (hb : Byte.isSymbolStart b = true) :
    ofBytes ctx b rest = ofSymbol (b :: rest) := if_pos hb

/-- An underscore is read on its own, if only as a stray byte. -/
theorem length_ofBytes_underscore : (ofBytes ctx Byte.underscore rest).length = 1 := by
  have hunderscore : ofBytes ctx Byte.underscore rest = ofUnderscore rest := rfl
  rw [hunderscore, ofUnderscore]
  split
  · rfl
  · rfl

/-- A line that is one symbol is an identifier. -/
theorem isIdentifierBytes_of_length (hb : Byte.isSymbolStart b = true)
    (h : (ofSymbol (b :: rest)).length = (b :: rest).length) :
    Spelling.isIdentifierBytes (b :: rest) = true := by
  have hsymbol : Byte.isSymbol b = true := by rw [Byte.isSymbol, hb]; rfl
  change (Spelling.Symbol.scan .empty (b :: rest)).bytes.length = _ at h
  rw [Spelling.Symbol.scan_cons hsymbol] at h
  rw [Spelling.isIdentifierBytes, hb, Spelling.isIdentifierTail_of_length_scan (Nat.succ.inj h)]
  rfl

end Piece

namespace TokenRead

variable {σ : Type} [LineSource σ] (options : Options) {c : Cursor σ} (table : IdentTable)

/-- In front of a word stands a letter or an underscore. -/
theorem scan_of_isWord (h : (scan options c table).token.kind.isWord = true) :
    ∃ b rest, c.rest = b :: rest ∧ (Byte.isSymbolStart b = true ∨ b = Byte.underscore) ∧
      scan options c table = ofPiece (.ofBytes (context options c) b rest) c table := by
  cases way c with
  | nil hrest => rw [scan_of_nil options hrest] at h; cases h
  | comment rest hrest => rw [scan_of_hash options hrest] at h; cases h
  | triple o ho ht => rw [scan_of_triple options ho ht] at h; cases h
  | string o ho ht => rw [scan_of_string options ho ht] at h; cases h
  | bytes b rest hrest hb ho =>
    have hread := scan_of_bytes options hrest hb ho table
    refine ⟨b, rest, hrest, ?_, hread⟩
    rw [hread] at h
    have hstart := ((Piece.spells_ofBytes (context options c) b rest).sourceIs table).startsWord h
    have hpos := (Piece.fits_ofBytes (context options c) b rest).pos
    obtain ⟨n, hn⟩ := Nat.exists_eq_succ_of_ne_zero (Nat.ne_of_gt hpos)
    rw [hn] at hstart
    exact (Bool.or_eq_true_iff.1 hstart).imp_right beq_iff_eq.1

/-- Letters that no quote follows are read as a symbol. -/
theorem scan_of_isSymbolStart {b : UInt8} {rest : List UInt8} (hrest : c.rest = b :: rest)
    (hb : Byte.isSymbolStart b = true) (hquote : rest.head? ≠ some Byte.quote) :
    scan options c table = ofPiece (.ofSymbol (b :: rest)) c table := by
  have hne : ∀ d, Byte.isSymbolStart d = false → b ≠ d := by
    rintro d hd rfl
    rw [hd] at hb
    cases hb
  have hopening : StringOpening.ofLine? c.before? c.rest = none := by
    rw [hrest, StringOpening.ofLine?, if_neg (by simpa using hne Byte.quote rfl),
      if_neg (by simp [hquote])]
  rw [scan_of_bytes options hrest (hne Byte.hash rfl) hopening,
    Piece.ofBytes_of_isSymbolStart _ hb]

end TokenRead

namespace Lexer

/-- The first call reads a word where the first line starts, takes the whole input and complains
about nothing. -/
structure ReadsWord {σ : Type} [LineSource σ] (l : Lexer σ) (table : IdentTable)
    (input : List UInt8) : Prop where
  isWord : (l.next table).token.kind.isWord = true
  line_eq : (l.next table).token.line = wrap32 (1 + l.options.lineOffset)
  column_eq : (l.next table).token.column = 0
  offset_eq : (l.next table).lexer.cursor.offset = input.length
  diagnostics_eq : (l.next table).diagnostics = []

/-- Lexers whose first calls come to the same read the same words. -/
theorem ReadsWord.congr {σ τ : Type} [LineSource σ] [LineSource τ] {l : Lexer σ} {l' : Lexer τ}
    {table : IdentTable} {input : List UInt8} (h : l.ReadsWord table input)
    (hoptions : l'.options = l.options) (htoken : (l'.next table).token = (l.next table).token)
    (hoffset : (l'.next table).lexer.cursor.offset = (l.next table).lexer.cursor.offset)
    (hdiags : (l'.next table).diagnostics = (l.next table).diagnostics) :
    l'.ReadsWord table input where
  isWord := htoken ▸ h.isWord
  line_eq := by rw [htoken, hoptions]; exact h.line_eq
  column_eq := htoken ▸ h.column_eq
  offset_eq := hoffset.trans h.offset_eq
  diagnostics_eq := hdiags.trans h.diagnostics_eq

section OfText

variable (file : FileId) (options : Options) {input : List UInt8} (table : IdentTable)
  (hmark : ¬Reader.byteOrderMark <+: input)
include hmark

/-- A word that is the whole input is an identifier or an underscore, if lines can be counted. -/
theorem isIdentifierBytes_of_readsWord (hlen : input.length < pow2 32)
    (h : (ofText file options input).ReadsWord table input) :
    Spelling.isIdentifierBytes input = true ∨ input = [Byte.underscore] := by
  have hlocated := (route_blank (ofText file options input)).located
    (located_ofText file options input)
  have hcolumn : (ofText file options input).blank.cursor.column = 0 := by
    have hzero : min _ Position.maxColumn = 0 := h.column_eq
    have hmax : 0 < Position.maxColumn := by decide
    omega
  obtain ⟨hstart, hfront⟩ := hlocated.front hlen hmark h.line_eq hcolumn
  obtain ⟨b, rest, hrest, hb, hread⟩ := TokenRead.scan_of_isWord _ table h.isWord
  have hend := h.offset_eq
  rw [next, hread] at hend
  change Cursor.offset (Cursor.advance _ _) = _ at hend
  rw [Cursor.offset_advance, hstart, Nat.zero_add] at hend
  have hline : b :: rest = input := by
    rw [hrest] at hfront
    refine hfront.eq_of_length (Nat.le_antisymm hfront.length_le ?_)
    rw [← hend]
    exact (Piece.fits_ofBytes _ b rest).le
  rw [← hline] at hend ⊢
  rcases hb with hb | rfl
  · rw [Piece.ofBytes_of_isSymbolStart _ hb] at hend
    exact .inl (Piece.isIdentifierBytes_of_length hb hend)
  · rw [Piece.length_ofBytes_underscore, List.length_cons, Nat.right_eq_add,
      List.length_eq_zero_iff] at hend
    rw [hend]
    exact .inr rfl

/-- An identifier is read as a word, and its name is told by its bytes. -/
theorem readsWord_ofText (h : Spelling.isIdentifierBytes input = true) :
    (ofText file options input).ReadsWord table input ∧
      ∃ i, ((ofText file options input).next table).token.ident = some i ∧
        i.name = Utf8.lossy (input.map Byte.toLower) := by
  have hstop : Spelling.meetsSymbol [] = false := rfl
  obtain ⟨hash, hpiece⟩ := Piece.ofSymbol_append h hstop
  rw [List.append_nil] at hpiece
  obtain ⟨b, tail, rfl, hb, hsymbol, htail⟩ := Spelling.exists_cons_of_isIdentifierBytes h
  have hword : ∀ d ∈ b :: tail, (Byte.isSymbol d || d == Byte.underscore) = true := by
    refine List.forall_mem_cons.2 ⟨?_, Spelling.meetsSymbol_of_mem_tail htail⟩
    rw [hsymbol]
    rfl
  have htext : ∀ d ∈ b :: tail, Line.isText d = true := by
    intro d hd
    exact Line.isText_of_class (p := fun d => Byte.isSymbol d || d == Byte.underscore) rfl rfl
      (hword d hd)
  have hblanks : b ∉ [Byte.space, Byte.tab, Byte.hash] := by
    have hnot : ∀ d ∈ [Byte.space, Byte.tab, Byte.hash], Byte.isSymbol d = false :=
      List.all_iff_forall_prop.1 (by decide)
    intro hmem
    rw [hnot b hmem] at hsymbol
    cases hsymbol
  have hquote : tail.head? ≠ some Byte.quote := by
    intro hhead
    have hquote := hword _ (List.mem_cons_of_mem _ (List.mem_of_head? hhead))
    cases hquote
  obtain ⟨hrest, hblank⟩ := blank_ofText file options hmark hblanks (htext b List.mem_cons_self)
  rw [List.takeWhile_eq_self_iff.2 fun d hd => htext d (List.mem_cons_of_mem _ hd)] at hrest
  have hread := TokenRead.scan_of_isSymbolStart (ofText file options (b :: tail)).options table
    hrest hb hquote
  rw [hpiece] at hread
  have hcursor := cursor_ofText file options hmark
  refine ⟨⟨?_, ?_, ?_, ?_, ?_⟩, ?_⟩
  all_goals rw [next, hblank, hread]
  · change (NameRole.word.kind _).isWord = true
    rw [NameRole.isWord_kind]
    rfl
  · exact congrArg Cursor.line hcursor
  · change (Cursor.position _).column = 0
    rw [hcursor]
    exact Nat.zero_min _
  · change (Cursor.advance _ _).offset = _
    rw [Cursor.offset_advance, hcursor]
    exact Nat.zero_add _
  · rfl
  · exact ⟨_, rfl, IdentTable.name_internBytes table _ hash⟩

end OfText

/-- On a stream shorter than 2³² bytes with the bytes of a text, the first call reads a word that is
the whole stream exactly if the text is an identifier. Then the word is named by the text with its
ASCII capitals made small. -/
theorem open?_isIdentifier (file : FileId) (stream : ByteStream) (options : Options)
    (h : 0 < options.bufferSize) (hlen : stream.bytes.length < pow2 32) {text : String}
    (hbytes : stream.bytes = Utf8.encode text)
    (hunderscore : text ≠ "_") (hmark : text.toList.head? ≠ some '\uFEFF') :
    ∃ l, open? file stream options = .ok l ∧ ∀ table,
      (Spelling.isIdentifier text = true ↔ l.ReadsWord table stream.bytes) ∧
      (Spelling.isIdentifier text = true →
        ∃ i, (l.next table).token.ident = some i ∧ i.name = text.toLower) := by
  refine ⟨_, open?_eq_ok file stream options h, fun table => ?_⟩
  have htoken := token_turn_ofStream file stream options h (fun _ => table) 0
  have hdiags := diagnostics_turn_ofStream file stream options h (fun _ => table) 0
  have hend := offset_reached_ofStream file stream options h (fun _ => table) 1
  simp only [turn, reached] at htoken hdiags hend
  have hfront : ¬Reader.byteOrderMark <+: stream.bytes := by
    rw [hbytes, Utf8.byteOrderMark_prefix_encode_iff]
    exact hmark
  have hne : stream.bytes ≠ [Byte.underscore] := by
    rw [hbytes]
    exact fun heq => hunderscore (Utf8.encode_injective heq)
  rw [htoken, Spelling.isIdentifier, ← hbytes]
  refine ⟨⟨fun hword => ?_, fun hreads => ?_⟩, fun hword => ?_⟩
  · exact (readsWord_ofText file options table hfront hword).1.congr rfl htoken hend hdiags
  · have htext : (ofText file options stream.bytes).ReadsWord table stream.bytes :=
      hreads.congr rfl htoken.symm hend.symm hdiags.symm
    exact (isIdentifierBytes_of_readsWord file options table hfront hlen htext).resolve_right hne
  · obtain ⟨i, hident, hname⟩ := (readsWord_ofText file options table hfront hword).2
    refine ⟨i, hident, ?_⟩
    rw [hname, hbytes, Utf8.map_toLower_encode, Utf8.lossy_encode]

/-- Two words with an underscore between them, a letter of two bytes and a digit. -/
def accentedWord : ByteStream :=
  ⟨[.chunk 70 [111, 79, 95], .interruption, .chunk 195 [137], .chunk 57 []], .closed⟩

theorem open?_isIdentifier_accentedWord :
    0 < 1 ∧ accentedWord.bytes.length < pow2 32 ∧ accentedWord.bytes = Utf8.encode "FoO_É9" ∧
      "FoO_É9" ≠ "_" ∧ "FoO_É9".toList.head? ≠ some '\uFEFF' ∧
      ∃ l, open? {} accentedWord (Options.withWindow {} 1) = .ok l ∧
        l.ReadsWord .fresh accentedWord.bytes ∧
        ∃ i, (l.next .fresh).token.ident = some i ∧ i.name = "foo_É9" := by
  have hbytes : accentedWord.bytes = Utf8.encode "FoO_É9" := by decide +kernel
  have hunderscore : "FoO_É9" ≠ "_" := by decide
  have hmark : "FoO_É9".toList.head? ≠ some '\uFEFF' := by decide
  obtain ⟨l, hopen, hwords⟩ := open?_isIdentifier {} accentedWord (Options.withWindow {} 1)
    (by decide) (by decide) hbytes hunderscore hmark
  have hword : Spelling.isIdentifier "FoO_É9" = true := by decide +kernel
  obtain ⟨i, hident, hname⟩ := (hwords .fresh).2 hword
  refine ⟨by decide, by decide, hbytes, hunderscore, hmark, l, hopen, (hwords .fresh).1.1 hword, i,
    hident, ?_⟩
  rw [hname]
  decide +kernel

end Lexer
end Lexeme
