import Lexeme.Proofs.Text.CodePoint
import Lexeme.Proofs.Lexer.Classification
import Lexeme.Proofs.Lexer.PlainString

/-!
# Raw and generalized strings

Behind an `r`, and right behind a symbol, a string has no escapes: whatever bytes a line may have
are kept as they are, and a quote is written twice. A lone quote ends the string, also where quotes
stand in front of it. The string behind a symbol is read by the next call, which looks at the
symbol's last byte to tell that it is no plain one.
-/

set_option autoImplicit false

namespace Lexeme

namespace Quoted

/-- Bytes as they stand in a raw string: each quote is doubled. -/
def doubled (bytes : List UInt8) : List UInt8 :=
  bytes.flatMap fun b => if b = Byte.quote then [b, b] else [b]

theorem doubled_quote (bytes : List UInt8) :
    doubled (Byte.quote :: bytes) = Byte.quote :: Byte.quote :: doubled bytes := rfl

theorem doubled_of_ne {b : UInt8} (h : b ≠ Byte.quote) (bytes : List UInt8) :
    doubled (b :: bytes) = b :: doubled bytes := by
  rw [doubled, List.flatMap_cons, if_neg h]
  rfl

theorem mem_of_mem_doubled {bytes : List UInt8} {b : UInt8} (h : b ∈ doubled bytes) :
    b ∈ bytes := by
  obtain ⟨c, hc, hb⟩ := List.mem_flatMap.1 h
  split at hb
  · simp only [List.mem_cons, List.not_mem_nil, or_false, or_self] at hb
    exact hb ▸ hc
  · exact List.mem_singleton.1 hb ▸ hc

theorem head?_doubled {bytes : List UInt8} (h : bytes.head? ≠ some Byte.quote) :
    (doubled bytes).head? ≠ some Byte.quote := by
  cases bytes with
  | nil => exact nofun
  | cons b bytes =>
    rw [doubled_of_ne fun hb => h (congrArg some hb)]
    exact h

theorem raw_of_ne {b : UInt8} (h : b ≠ Byte.quote) (offset : Nat) (rest : List UInt8) :
    raw offset (b :: rest) = (raw (offset + 1) rest).prepend [b] [] := by
  rw [raw, if_neg (by simpa using h)]
  rintro rest' rfl
  exact absurd rfl h

theorem raw_quote (offset : Nat) {more : List UInt8} (h : more.head? ≠ some Byte.quote) :
    raw offset (Byte.quote :: more) = ⟨[], offset + 1, []⟩ := by
  rw [raw]
  · exact if_pos (by decide)
  · rintro rest - rfl
    exact absurd rfl h

/-- A string with doubled quotes is read back, up to the first lone quote. -/
theorem raw_doubled (bytes : List UInt8) (offset : Nat) {more : List UInt8}
    (h : more.head? ≠ some Byte.quote) :
    raw offset (doubled bytes ++ Byte.quote :: more) =
      ⟨bytes, offset + (doubled bytes).length + 1, []⟩ := by
  induction bytes generalizing offset with
  | nil => exact raw_quote offset h
  | cons b bytes ih =>
    by_cases hb : b = Byte.quote
    · subst hb
      have hread : raw offset (Byte.quote :: Byte.quote :: (doubled bytes ++ Byte.quote :: more)) =
          (raw (offset + 2) (doubled bytes ++ Byte.quote :: more)).prepend [Byte.quote] [] :=
        raw.eq_2 offset _
      have hstop : offset + 2 + (doubled bytes).length + 1 =
          offset + (doubled (Byte.quote :: bytes)).length + 1 := by
        rw [doubled_quote, List.length_cons, List.length_cons]
        omega
      rw [doubled_quote, List.cons_append, List.cons_append, hread, ih, hstop]
      rfl
    · have hstop : offset + 1 + (doubled bytes).length + 1 =
          offset + (doubled (b :: bytes)).length + 1 := by
        rw [doubled_of_ne hb, List.length_cons]
        omega
      rw [doubled_of_ne hb, List.cons_append, raw_of_ne hb, ih, ← doubled_of_ne hb, hstop]
      rfl

end Quoted

namespace Text

/-- A string with doubled quotes whose opening quote stands at an offset. -/
structure DoubledString (input : List UInt8) (o : Nat) (bytes : List UInt8) : Prop where
  isText : ∀ b ∈ bytes, Line.isText b = true
  head?_ne : bytes.head? ≠ some Byte.quote
  exists_more : ∃ more,
    input.drop o = Byte.quote :: (Quoted.doubled bytes ++ Byte.quote :: more) ∧
      more.head? ≠ some Byte.quote

/-- A raw string at an offset. -/
structure RawString (input : List UInt8) (o : Nat) (bytes : List UInt8) : Prop where
  letter : input[o]? = some (Byte.ofChar 'r') ∨ input[o]? = some (Byte.ofChar 'R')
  doubled : DoubledString input (o + 1) bytes

/-- An identifier at an offset and a string right behind it. With `r` it would be a raw one. -/
structure GeneralizedString (input : List UInt8) (o : Nat) (name : String) (bytes : List UInt8) :
    Prop where
  isIdentifier : Spelling.isIdentifier name = true
  not_mem : name ∉ ["r", "R"]
  spelled : Utf8.encode name <+: input.drop o
  doubled : DoubledString input (o + (Utf8.encode name).length) bytes

variable {input : List UInt8} {o : Nat} {name : String} {bytes : List UInt8}

theorem DoubledString.exists_line (h : DoubledString input o bytes) :
    ∃ more, (Line.first (input.drop o)).bytes =
        Byte.quote :: (Quoted.doubled bytes ++ Byte.quote :: more) ∧
      more.head? ≠ some Byte.quote := by
  obtain ⟨more, hdrop, hmore⟩ := h.exists_more
  refine ⟨(Line.first more).bytes, ?_, Line.head?_first_ne hmore⟩
  rw [hdrop, Line.bytes_first_quoted fun c hc => h.isText c (Quoted.mem_of_mem_doubled hc)]

theorem RawString.exists_line (h : RawString input o bytes) :
    ∃ letter more, Byte.toLower letter = Byte.ofChar 'r' ∧ Byte.isSymbolStart letter = true ∧
      (Line.first (input.drop o)).bytes =
        letter :: Byte.quote :: (Quoted.doubled bytes ++ Byte.quote :: more) ∧
      more.head? ≠ some Byte.quote := by
  obtain ⟨more, hline, hmore⟩ := h.doubled.exists_line
  obtain ⟨letter, hletter, hlower, hstart⟩ : ∃ letter, input[o]? = some letter ∧
      Byte.toLower letter = Byte.ofChar 'r' ∧ Byte.isSymbolStart letter = true := by
    rcases h.letter with hr | hr
    · exact ⟨_, hr, by decide, by decide⟩
    · exact ⟨_, hr, by decide, by decide⟩
  have htext : Line.isText letter = true := Line.isText_of_class rfl rfl hstart
  refine ⟨letter, more, hlower, hstart, ?_, hmore⟩
  obtain ⟨ho, hget⟩ := List.getElem?_eq_some_iff.1 hletter
  rw [List.drop_eq_getElem_cons ho, hget, ← List.singleton_append,
    Line.bytes_first_append (List.forall_mem_singleton.2 htext), hline]
  rfl

theorem GeneralizedString.exists_line (h : GeneralizedString input o name bytes) :
    ∃ more, (Line.first (input.drop o)).bytes = Utf8.encode name ++
        Byte.quote :: (Quoted.doubled bytes ++ Byte.quote :: more) ∧
      more.head? ≠ some Byte.quote := by
  obtain ⟨more, hline, hmore⟩ := h.doubled.exists_line
  obtain ⟨rest, hrest⟩ := h.spelled
  have hdrop : input.drop (o + (Utf8.encode name).length) = rest := by
    rw [← List.drop_drop, ← hrest, List.drop_left]
  have htext : ∀ b ∈ Utf8.encode name, Line.isText b = true := by
    obtain ⟨b, tail, hword, -, hb, htail⟩ :=
      Spelling.exists_cons_of_isIdentifierBytes h.isIdentifier
    have hclass : ∀ c ∈ b :: tail, (Byte.isSymbol c || c == Byte.underscore) = true :=
      List.forall_mem_cons.2 ⟨by rw [hb]; rfl, Spelling.meetsSymbol_of_mem_tail htail⟩
    rw [hword]
    exact fun c hc => Line.isText_of_class (p := fun c => Byte.isSymbol c || c == Byte.underscore)
      rfl rfl (hclass c hc)
  refine ⟨more, ?_, hmore⟩
  rw [← hrest, Line.bytes_first_append htext, ← hdrop, hline]

/-- Only `r` would open a raw string. -/
theorem GeneralizedString.ofLine?_eq_none (h : GeneralizedString input o name bytes)
    (before : Option UInt8) :
    StringOpening.ofLine? before (Line.first (input.drop o)).bytes = none := by
  have hlower : ∀ n < 256, Byte.toLower (UInt8.ofNat n) = Byte.ofChar 'r' →
      [UInt8.ofNat n] = Utf8.encode "r" ∨ [UInt8.ofNat n] = Utf8.encode "R" := by
    decide +kernel
  obtain ⟨more, hline, -⟩ := h.exists_line
  obtain ⟨b, tail, hword, hstart, -, htail⟩ :=
    Spelling.exists_cons_of_isIdentifierBytes h.isIdentifier
  have hquote : b ≠ Byte.quote := by
    rintro rfl
    cases hstart
  rw [hline, hword, List.cons_append, StringOpening.ofLine?, if_neg (by simpa using hquote),
    if_neg]
  rw [Bool.and_eq_true, beq_iff_eq, beq_iff_eq]
  rintro ⟨hr, hhead⟩
  cases tail with
  | nil =>
    have hname := hlower b.toNat b.toNat_lt
    rw [UInt8.ofNat_toNat, ← hword] at hname
    rcases hname hr with hname | hname
    · exact h.not_mem (Utf8.encode_injective hname ▸ List.mem_cons_self)
    · exact h.not_mem (Utf8.encode_injective hname ▸ List.mem_cons_of_mem _ List.mem_cons_self)
  | cons c tail =>
    obtain rfl := Option.some.inj hhead
    cases Spelling.meetsSymbol_of_mem_tail htail Byte.quote List.mem_cons_self

end Text

/-- A letter starts a token. -/
theorem Indentation.startsToken_of_isSymbolStart (options : Options) {b : UInt8}
    (h : Byte.isSymbolStart b = true) (rest : List UInt8) :
    startsToken options (b :: rest) = true := by
  have hhash : b ≠ Byte.hash := by
    rintro rfl
    cases h
  have hvisible : Byte.space < b := by
    have hspace : Byte.space.toNat = 32 := rfl
    simp only [Byte.isSymbolStart, Byte.isUpper, Byte.isLower, Bool.or_eq_true, Bool.and_eq_true,
      decide_eq_true_eq, UInt8.le_iff_toNat_le, UInt8.reduceToNat] at h
    rw [UInt8.lt_iff_toNat_lt]
    omega
  rw [startsToken, Comment.isVisible, decide_eq_true hvisible, List.head?_cons]
  simp [hhash]

theorem Piece.ofString_doubled (ctx : Escape.Context) {o : StringOpening}
    {line bytes more : List UInt8} (hform : o.form ≠ .plain)
    (hline : line.drop o.lead = Byte.quote :: (Quoted.doubled bytes ++ Byte.quote :: more))
    (hmore : more.head? ≠ some Byte.quote) :
    ofString ctx o line =
      { kind := .strLit o.form
        length := o.lead + (Quoted.doubled bytes).length + 2
        literal := bytes } := by
  have hbody : line.drop (o.lead + 1) = Quoted.doubled bytes ++ Byte.quote :: more := by
    rw [← List.drop_drop, hline]
    rfl
  have hlen : o.lead + (1 + (Quoted.doubled bytes).length + 1) =
      o.lead + (Quoted.doubled bytes).length + 2 := by omega
  rw [ofString, if_neg hform, hbody, Quoted.raw_doubled bytes 1 hmore]
  dsimp only
  rw [hlen]
  rfl

namespace Lexer

/-- A call that finds a raw or a generalized string reads it back. -/
theorem next_doubled {σ : Type} [LineSource σ] {l : Lexer σ} {o : StringOpening}
    {bytes more : List UInt8} (hform : o.form ≠ .plain)
    (ho : StringOpening.ofLine? l.blank.cursor.before? l.blank.cursor.rest = some o)
    (hline : l.blank.cursor.rest.drop o.lead =
      Byte.quote :: (Quoted.doubled bytes ++ Byte.quote :: more))
    (hhead : bytes.head? ≠ some Byte.quote) (hmore : more.head? ≠ some Byte.quote)
    (table : IdentTable) :
    (l.next table).token.kind = .strLit o.form ∧ (l.next table).token.literal = bytes ∧
      (l.next table).lexer.cursor.offset =
        l.tokenOffset + o.lead + (Quoted.doubled bytes).length + 2 ∧
      (l.next table).diagnostics = l.blank.diagnostics := by
  have htriple := StringOpening.isTriple_eq_false hline (Quoted.head?_doubled hhead) fun _ => hmore
  have hread := TokenRead.scan_of_string l.options ho htriple table
  rw [Piece.ofString_doubled _ hform hline hmore] at hread
  obtain ⟨hkind, hliteral, hcursor, hdiags⟩ := next_of_piece rfl hread
  refine ⟨hkind, hliteral, ?_, ?_⟩
  · rw [hcursor, Cursor.offset_advance, ← Nat.add_assoc, ← Nat.add_assoc]
    rfl
  · rw [hdiags]
    exact List.append_nil _

section Text

variable {input : List UInt8} {o : Nat} {name : String} {bytes : List UInt8} {l : Lexer Text}

theorem next_rawString (hl : l.cursor.Within input) (h : Text.RawString input o bytes)
    (ho : l.tokenOffset = o) (table : IdentTable) :
    (l.next table).token.kind = .strLit .raw ∧ (l.next table).token.literal = bytes ∧
      (l.next table).lexer.cursor.offset = o + (Quoted.doubled bytes).length + 3 ∧
      (l.next table).diagnostics = l.blank.diagnostics := by
  obtain ⟨letter, more, hlower, -, hline, hmore⟩ := h.exists_line
  have hrest := (rest_blank hl ho).trans hline
  have hopening : StringOpening.ofLine? l.blank.cursor.before? l.blank.cursor.rest =
      some ⟨.raw, 1⟩ := by
    have hquote : letter ≠ Byte.quote := by
      rintro rfl
      exact absurd hlower (by decide)
    rw [hrest, StringOpening.ofLine?, if_neg (by simpa using hquote), hlower]
    rfl
  obtain ⟨hkind, hliteral, hend, hdiags⟩ := next_doubled (o := ⟨.raw, 1⟩) (by decide) hopening
    (by rw [hrest]; rfl) h.doubled.head?_ne hmore table
  refine ⟨hkind, hliteral, ?_, hdiags⟩
  rw [hend, ho]
  dsimp only
  omega

/-- The call that reads the identifier. -/
theorem next_identifier (hl : l.cursor.Within input) (h : Text.GeneralizedString input o name bytes)
    (ho : l.tokenOffset = o) (table : IdentTable) :
    (∃ i, (l.next table).token.kind = NameRole.word.kind i) ∧
      (l.next table).lexer.cursor = l.blank.cursor.advance (Utf8.encode name).length ∧
      (l.next table).diagnostics = l.blank.diagnostics := by
  obtain ⟨more, hline, -⟩ := h.exists_line
  obtain ⟨b, tail, hword, hstart, -, -⟩ :=
    Spelling.exists_cons_of_isIdentifierBytes h.isIdentifier
  have hopening := h.ofLine?_eq_none l.blank.cursor.before?
  have hrest := rest_blank hl ho
  rw [← hrest] at hopening
  rw [hline, hword, List.cons_append] at hrest
  have hhash : b ≠ Byte.hash := by
    rintro rfl
    cases hstart
  have hmeets : Spelling.meetsSymbol
      (Byte.quote :: (Quoted.doubled bytes ++ Byte.quote :: more)) = false := rfl
  obtain ⟨hash, hpiece⟩ := Piece.ofSymbol_append h.isIdentifier hmeets
  have hread := TokenRead.scan_of_bytes l.options hrest hhash hopening table
  rw [Piece.ofBytes, if_pos hstart, ← List.cons_append, ← hword, hpiece] at hread
  rw [next, hread]
  exact ⟨⟨_, rfl⟩, rfl, List.append_nil _⟩

/-- The call behind it, which reads the string. -/
theorem next_generalizedString (hl : l.cursor.Within input)
    (h : Text.GeneralizedString input o name bytes) (ho : l.tokenOffset = o)
    (table table' : IdentTable) :
    (l.next table).lexer.tokenOffset = o + (Utf8.encode name).length ∧
      ((l.next table).lexer.next table').token.kind = .strLit .generalized ∧
      ((l.next table).lexer.next table').token.literal = bytes ∧
      ((l.next table).lexer.next table').lexer.cursor.offset =
        o + (Utf8.encode name).length + (Quoted.doubled bytes).length + 2 ∧
      ((l.next table).lexer.next table').diagnostics = (l.next table).lexer.blank.diagnostics ∧
      (l.next table).lexer.blank.diagnostics = [] := by
  obtain ⟨more, hline, hmore⟩ := h.exists_line
  obtain ⟨-, hcursor, -⟩ := next_identifier hl h ho table
  have hrest := (rest_blank hl ho).trans hline
  have hhere : (l.next table).lexer.cursor.rest =
      Byte.quote :: (Quoted.doubled bytes ++ Byte.quote :: more) := by
    rw [hcursor, Cursor.rest_advance, hrest, List.drop_left]
  obtain ⟨hblank, hcursor'⟩ := blank_eq_of_leads (l := (l.next table).lexer)
    (.here (by rw [hhere]; rfl))
  have hopening : StringOpening.ofLine? (l.next table).lexer.blank.cursor.before?
      (l.next table).lexer.blank.cursor.rest = some ⟨.generalized, 0⟩ := by
    obtain ⟨b, tail, hword, -, hsymbol, htail⟩ :=
      Spelling.exists_cons_of_isIdentifierBytes h.isIdentifier
    have hlast := Spelling.getLast?_tail hsymbol htail
    have hpos : 0 < (Utf8.encode name).length := by
      rw [hword]
      exact Nat.succ_pos _
    rw [← hword, List.getLast?_eq_getElem?] at hlast
    rw [hcursor', hhere, hcursor, Cursor.before?_advance _ hpos, hrest,
      List.getElem?_append_left (Nat.sub_lt hpos Nat.zero_lt_one), StringOpening.ofLine?,
      if_pos (by decide), hlast]
    rfl
  have hstart : (l.next table).lexer.tokenOffset = o + (Utf8.encode name).length := by
    rw [tokenOffset, hcursor', hcursor, Cursor.offset_advance, ← tokenOffset, ho]
  obtain ⟨hkind, hliteral, hend, hdiags⟩ := next_doubled (o := ⟨.generalized, 0⟩)
    (by decide) hopening (by rw [hcursor', hhere]; rfl) h.doubled.head?_ne hmore table'
  refine ⟨hstart, hkind, hliteral, ?_, hdiags, hblank⟩
  rw [hend, hstart]
  rfl

end Text

/-- A call of a run reads a string as some bytes, and there is nothing to report about it. -/
structure ReadsBytes {σ : Type} [LineSource σ] (l : Lexer σ) (tables : Nat → IdentTable) (k : Nat)
    (form : StringForm) (bytes : List UInt8) (stop : Nat) : Prop where
  kind_eq : (l.turn tables k).token.kind = .strLit form
  literal_eq : (l.turn tables k).token.literal = bytes
  /-- The call leads right behind the closing quote. -/
  offset_eq : (l.reached tables (k + 1)).cursor.offset = stop
  diagnostics_eq : (l.turn tables k).diagnostics = (l.reached tables k).blank.diagnostics

/-- A call of a run reads an identifier, and there is nothing to report about it. -/
structure ReadsIdentifier {σ : Type} [LineSource σ] (l : Lexer σ) (tables : Nat → IdentTable)
    (k o : Nat) (name : String) : Prop where
  kind_eq : (l.turn tables k).token.kind = .symbol ∨
    ∃ word, (l.turn tables k).token.kind = .keyword word
  exists_ident : ∃ i, (l.turn tables k).token.ident = some i ∧
    i.name = Utf8.lossy ((Utf8.encode name).map Byte.toLower) ∧
      ((tables k).OwnHashed → (l.turn tables k).token.Classified (Utf8.encode name) i)
  offset_eq : (l.reached tables (k + 1)).cursor.offset = o + (Utf8.encode name).length
  diagnostics_eq : (l.turn tables k).diagnostics = (l.reached tables k).blank.diagnostics

section Runs

variable {input : List UInt8} {o : Nat} {name : String} {bytes : List UInt8} {l : Lexer Text}
  {tables : Nat → IdentTable} {k : Nat}

theorem readsIdentifier_of_within (hl : l.cursor.Within input)
    (h : Text.GeneralizedString input o name bytes) (ho : (l.reached tables k).tokenOffset = o) :
    l.ReadsIdentifier tables k o name := by
  obtain ⟨⟨word, hword⟩, hcursor, hdiags⟩ :=
    next_identifier (within_reached hl tables k) h ho (tables k)
  have hoffset : (l.reached tables (k + 1)).cursor.offset = o + (Utf8.encode name).length := by
    rw [reached, hcursor, Cursor.offset_advance, ← ho]
    rfl
  have hkind : (l.turn tables k).token.kind = .symbol ∨
      ∃ word, (l.turn tables k).token.kind = .keyword word := by
    change (l.turn tables k).token.kind = _ at hword
    rw [hword, NameRole.kind]
    cases Ident.keywordOf? word.id with
    | none => exact .inl rfl
    | some word => exact .inr ⟨word, rfl⟩
  have hsource := sourceIs_turn hl tables k
  rw [sourceText, hoffset, ho, Nat.add_sub_cancel_left,
    ← List.prefix_iff_eq_take.1 h.spelled] at hsource
  refine ⟨hkind, ?_, hoffset, hdiags⟩
  have hclassified : ∀ i, (l.turn tables k).token.ident = some i → (tables k).OwnHashed →
      (l.turn tables k).token.Classified (Utf8.encode name) i := fun _ hident howned =>
    hsource.classified (enters_next _ howned.sound).sound hident
  cases hsource with
  | unnamed hident hdepicts =>
    rcases hkind with hkind | ⟨word, hkind⟩
    · rw [hkind] at hdepicts
      exact hdepicts.elim
    · rw [hkind] at hdepicts
      exact hdepicts.elim
  | named i role hident _ hname _ _ =>
    exact ⟨i, hident, hname, hclassified i hident⟩

end Runs

/-- On every stream, whichever call's token starts at a raw string reads it as the bytes whose
quotes are doubled there. Whichever call's token starts at an identifier with such a string right
behind it reads the identifier, and the next call the string. Nothing is reported about them. At
the start of a line such calls are reached over spaces and terminators, without an error. -/
theorem open?_doubledStrings (file : FileId) (stream : ByteStream) (options : Options)
    (h : 0 < options.bufferSize) :
    ∃ l, open? file stream options = .ok l ∧
      l.cursor.offset = Text.lineStart stream.bytes 0 ∧
      ∀ tables k o bytes,
        (Text.RawString stream.bytes o bytes →
          (Text.lineStart stream.bytes o = o →
            Text.Clear stream.bytes (l.reached tables k).cursor.offset o →
            (l.reached tables k).tokenOffset = o ∧
              Diagnostic.ErrorFree (l.reached tables k).blank.diagnostics) ∧
          ((l.reached tables k).tokenOffset = o →
            l.ReadsBytes tables k .raw bytes (o + (Quoted.doubled bytes).length + 3))) ∧
        ∀ name, Text.GeneralizedString stream.bytes o name bytes →
          (Text.lineStart stream.bytes o = o →
            Text.Clear stream.bytes (l.reached tables k).cursor.offset o →
            (l.reached tables k).tokenOffset = o ∧
              Diagnostic.ErrorFree (l.reached tables k).blank.diagnostics) ∧
          ((l.reached tables k).tokenOffset = o →
            l.ReadsIdentifier tables k o name ∧
            (l.reached tables (k + 1)).tokenOffset = o + (Utf8.encode name).length ∧
            l.ReadsBytes tables (k + 1) .generalized bytes
              (o + (Utf8.encode name).length + (Quoted.doubled bytes).length + 2) ∧
            (l.turn tables (k + 1)).diagnostics = []) := by
  refine ⟨_, open?_eq_ok file stream options h, offset_ofStream file stream options h, ?_⟩
  intro tables k o bytes
  have hstart := within_ofText file options stream.bytes
  have hwithin := within_reached hstart tables k
  have hlocated := located_reached file options stream.bytes tables k
  rw [offset_reached_ofStream, tokenOffset_reached_ofStream, tokenOffset_reached_ofStream,
    blank_diagnostics_ofStream, diagnostics_turn_ofStream]
  refine ⟨fun hstring => ⟨fun hline hclear => ?_, fun ho => ?_⟩,
    fun name hstring => ⟨fun hline hclear => ?_, fun ho => ?_⟩⟩
  · obtain ⟨letter, more, -, hletter, hbytes, -⟩ := hstring.exists_line
    refine tokenOffset_of_startsToken hlocated hline ?_ hclear
    rw [hbytes]
    exact Indentation.startsToken_of_isSymbolStart _ hletter _
  · obtain ⟨hkind, hliteral, hend, hdiags⟩ := next_rawString hwithin hstring ho (tables k)
    constructor
    · rw [token_turn_ofStream]
      exact hkind
    · rw [token_turn_ofStream]
      exact hliteral
    · rw [offset_reached_ofStream]
      exact hend
    · rw [diagnostics_turn_ofStream, blank_diagnostics_ofStream]
      exact hdiags
  · obtain ⟨more, hbytes, -⟩ := hstring.exists_line
    obtain ⟨b, tail, hword, hb, -⟩ :=
      Spelling.exists_cons_of_isIdentifierBytes hstring.isIdentifier
    refine tokenOffset_of_startsToken hlocated hline ?_ hclear
    rw [hbytes, hword]
    exact Indentation.startsToken_of_isSymbolStart _ hb _
  · obtain ⟨hkind, hident, hend, hdiags⟩ := readsIdentifier_of_within hstart hstring ho
    obtain ⟨hnext, hkind', hliteral, hend', hdiags', hblank⟩ :=
      next_generalizedString hwithin hstring ho (tables k) (tables (k + 1))
    refine ⟨?_, hnext, ?_, hdiags'.trans hblank⟩
    · constructor
      · rw [token_turn_ofStream]
        exact hkind
      · rw [token_turn_ofStream]
        exact hident
      · rw [offset_reached_ofStream]
        exact hend
      · rw [diagnostics_turn_ofStream, blank_diagnostics_ofStream]
        exact hdiags
    · constructor
      · rw [token_turn_ofStream]
        exact hkind'
      · rw [token_turn_ofStream]
        exact hliteral
      · rw [offset_reached_ofStream]
        exact hend'
      · rw [diagnostics_turn_ofStream, blank_diagnostics_ofStream]
        exact hdiags'

/-- A raw string of a backslash and a quote, and on the next line a keyword with a capital and a
string of NUL and a quote behind it. -/
def quotedQuotes : ByteStream :=
  ⟨[.chunk 82 [34, 92, 34], .interruption, .chunk 34 [34, 10, 105, 70], .chunk 34 [0, 34, 34, 34]],
    .failed [34]⟩

theorem rawString_quotedQuotes : Text.RawString quotedQuotes.bytes 0 [92, 34] where
  letter := .inr rfl
  doubled :=
    { isText := List.all_eq_true.1 (by decide)
      head?_ne := by decide
      exists_more := ⟨[10, 105, 70, 34, 0, 34, 34, 34], by decide, by decide⟩ }

theorem generalizedString_quotedQuotes :
    Text.GeneralizedString quotedQuotes.bytes 7 "iF" [0, 34] where
  isIdentifier := by decide
  not_mem := by decide
  spelled := ⟨[34, 0, 34, 34, 34], by decide⟩
  doubled :=
    { isText := List.all_eq_true.1 (by decide)
      head?_ne := by decide
      exists_more := ⟨[], by decide, by decide⟩ }

theorem open?_doubledStrings_quotedQuotes :
    0 < 1 ∧ Text.RawString quotedQuotes.bytes 0 [92, 34] ∧
      Text.GeneralizedString quotedQuotes.bytes 7 "iF" [0, 34] ∧
      ∃ l, open? {} quotedQuotes (Options.withWindow {} 1) = .ok l ∧
        l.ReadsBytes (fun _ => .fresh) 0 .raw [92, 34] 6 ∧
        l.ReadsIdentifier (fun _ => .fresh) 1 7 "iF" ∧
        (l.turn (fun _ => .fresh) 1).token.kind = .keyword .kwIf ∧
        l.ReadsBytes (fun _ => .fresh) 2 .generalized [0, 34] quotedQuotes.bytes.length ∧
        (l.turn (fun _ => .fresh) 2).diagnostics = [] := by
  have hwindow : 0 < (Options.withWindow {} 1).bufferSize := by decide
  have hfresh : IdentTable.fresh.OwnHashed := ⟨[], rfl⟩
  obtain ⟨l, hopen, hstart, hcalls⟩ :=
    open?_doubledStrings {} quotedQuotes (Options.withWindow {} 1) hwindow
  have hzero : Text.lineStart quotedQuotes.bytes 0 = 0 := by decide
  rw [hzero] at hstart
  obtain ⟨hway, hraw⟩ := (hcalls (fun _ => .fresh) 0 0 _).1 rawString_quotedQuotes
  have hreads := hraw (hway hzero ⟨Nat.le_of_eq hstart, nofun⟩).1
  obtain ⟨hway', hidentifier⟩ :=
    (hcalls (fun _ => .fresh) 1 7 _).2 "iF" generalizedString_quotedQuotes
  have hclear : Text.Clear quotedQuotes.bytes 6 7 := by
    rw [Text.Clear]
    decide
  have hend : (l.reached (fun _ => .fresh) 1).cursor.offset = 6 := hreads.offset_eq
  rw [← hend] at hclear
  obtain ⟨hword, -, hstring, hdiags⟩ := hidentifier (hway' (by decide) hclear).1
  obtain ⟨i, -, -, hclassified⟩ := hword.exists_ident
  exact ⟨by decide, rawString_quotedQuotes, generalizedString_quotedQuotes, l, hopen, hreads, hword,
    ((hclassified hfresh).keyword_iff .kwIf).2 (by decide), hstring, hdiags⟩

end Lexer
end Lexeme
