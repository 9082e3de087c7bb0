import Lexeme.Proofs.Lexer.LineIndent

/-!
# Tabs in front of tokens

A tab in front of the first token of a line hides its indentation: the token is read as one that
goes on with the line before, whether tabs are allowed or not. With spaces alone in front, the first
token has the indentation of its line.
-/

set_option autoImplicit false

namespace Lexeme

/-- The control bytes, tabs and terminators apart. -/
def Byte.isControl (b : UInt8) : Bool := b < space && !isSeparator b

namespace Text

/-- What stands in front of an offset on its line. -/
def lead (input : List UInt8) (offset : Nat) : List UInt8 :=
  (input.take offset).drop (lineStart input offset)

theorem mem_lead_iff {input : List UInt8} {offset : Nat} {b : UInt8} :
    b ∈ lead input offset ↔ ∃ i, lineStart input offset ≤ i ∧ i < offset ∧ input[i]? = some b := by
  constructor
  · intro hmem
    obtain ⟨j, hj⟩ := List.mem_iff_getElem?.1 hmem
    rw [lead, List.getElem?_drop, List.getElem?_take] at hj
    split at hj
    · exact ⟨_, Nat.le_add_right _ _, ‹_›, hj⟩
    · cases hj
  · rintro ⟨i, hlo, hhi, hb⟩
    obtain ⟨j, rfl⟩ := Nat.exists_eq_add_of_le hlo
    refine List.mem_iff_getElem?.2 ⟨j, ?_⟩
    rw [lead, List.getElem?_drop, List.getElem?_take_of_lt hhi, hb]

end Text

namespace Cursor

variable {input : List UInt8} {first : Nat} {c d : Cursor Text}

/-- A cursor on an earlier line stands in front of the line's start. -/
theorem Located.offset_le_of_breaksBefore_ne (hd : d.Located input first)
    (hle : c.offset ≤ d.offset)
    (hne : Text.breaksBefore input c.offset ≠ Text.breaksBefore input d.offset) :
    c.offset ≤ d.source.offset := by
  by_contra hlt
  have hcolumn := hd.within.column_le
  have hoffset : d.offset = d.source.offset + d.column := rfl
  have hsame := Text.location_eq (s := d.source.offset) (o := c.offset) (by omega)
    fun i hlo hhi => hd.within.endsBreak_eq_false hlo (by omega)
  exact hne (hsame.1.trans hd.location_eq.1.symm)

/-- In front of a token on a later line only spaces and tabs stand on its line. -/
theorem Located.isBlank_of_mem_lead (hd : d.Located input first) (hhash : Byte.hash ∉ input)
    (hpasses : Passes input (Blank.Separates input) c d) (hle : c.offset ≤ d.source.offset)
    {b : UInt8} (hb : b ∈ Text.lead input d.offset) : TripleString.isBlank b = true := by
  obtain ⟨i, hlo, hhi, hbyte⟩ := Text.mem_lead_iff.1 hb
  rw [hd.location_eq.2] at hlo
  have hsep : Byte.isSeparator b = true :=
    (hpasses.between i b (Nat.le_trans hle hlo) hhi hbyte).resolve_left hhash
  have htext : Line.isText b = true := by
    obtain ⟨j, rfl⟩ := Nat.exists_eq_add_of_le hlo
    have hcolumn := hd.within.column_le
    have hoffset : d.offset = d.source.offset + d.column := rfl
    have hj : j < (Line.first (input.drop d.source.offset)).bytes.length := by
      rw [← hd.within.lineBytes_eq]
      omega
    rw [← List.getElem?_drop, Line.getElem?_of_lt_first hj, Option.some.injEq] at hbyte
    subst hbyte
    exact Line.isText_of_mem_first (List.getElem_mem hj)
  rw [Line.isText, Bool.not_eq_true'] at htext
  rwa [Byte.isSeparator, htext, Bool.or_false] at hsep

/-- Behind spaces alone, a byte that is no blank and no control byte is indented. -/
theorem Located.indented_of_lead (h : c.Located input first)
    (hcontrol : ∀ b ∈ input, Byte.isControl b = false) {b : UInt8} {rest : List UInt8}
    (hrest : c.rest = b :: rest) (hb : TripleString.isBlank b = false)
    (hbehind : 0 < Text.breaksBefore input c.offset)
    (hspaces : ∀ b ∈ Text.lead input c.offset, b = Byte.space) :
    Text.Indented input c.offset (Text.lead input c.offset).length := by
  have hstart := h.location_eq.2
  have hle := h.within.offset_le
  have hoffset : c.offset = c.source.offset + c.column := rfl
  refine ⟨hbehind, ?_, ?_, ?_⟩
  · rw [Text.lead, List.length_drop, List.length_take]
    omega
  · intro i hlo hhi
    have hi : i < input.length := by omega
    have hmem := Text.mem_lead_iff.2 ⟨i, hlo, hhi, List.getElem?_eq_getElem hi⟩
    rw [List.getElem?_eq_getElem hi, hspaces _ hmem]
  · refine h.within.isVisible_iff.1 ?_
    have hmem : b ∈ c.rest := hrest ▸ List.mem_cons_self
    have hfree := hcontrol b (h.within.mem_of_mem_rest hmem)
    have htext := h.within.isText_of_mem_rest hmem
    rw [Line.isText, Bool.not_eq_true'] at htext
    rw [TripleString.isBlank] at hb
    have hsep : Byte.isSeparator b = false := by rw [Byte.isSeparator, hb, htext, Bool.or_false]
    have hge : ¬b < Byte.space := by simpa [Byte.isControl, hsep] using hfree
    have hne : b ≠ Byte.space := by
      rintro rfl
      cases hb
    rw [hrest]
    exact decide_eq_true (UInt8.lt_of_le_of_ne (UInt8.not_lt.1 hge) (Ne.symm hne))

end Cursor

/-- Where there are neither comments nor strings in triple quotes, a token ends on its line. -/
theorem TokenRead.source_scan_of_noTriple {input : List UInt8} (hhash : Byte.hash ∉ input)
    (hnone : ¬[Byte.quote, Byte.quote, Byte.quote] <:+: input) {c : Cursor Text}
    (h : c.Within input) (options : Options) (table : IdentTable) :
    (scan options c table).cursor.source = c.source := by
  cases way c with
  | nil hnil => rw [scan_of_nil options hnil]; rfl
  | comment rest hcomment =>
    exact absurd (h.mem_of_mem_rest (hcomment ▸ List.mem_cons_self)) hhash
  | triple o ho ht =>
    rw [h.isTriple_eq_false hnone] at ht
    cases ht
  | string o ho ht => rw [scan_of_string options ho ht]; rfl
  | bytes b rest hbytes hb ho => rw [scan_of_bytes options hbytes hb ho]; rfl

namespace Lexer

/-- A call reads the first token of a line that is behind a terminator. -/
structure StartsLine {σ : Type} [LineSource σ] (input : List UInt8) (l : Lexer σ)
    (tables : Nat → IdentTable) (k : Nat) : Prop where
  ne_eof : (l.turn tables k).token.kind ≠ .eof
  /-- No token before stands on that line. -/
  first : ∀ j < k, Text.breaksBefore input (l.reached tables j).tokenOffset ≠
    Text.breaksBefore input (l.reached tables k).tokenOffset
  behind : 0 < Text.breaksBefore input (l.reached tables k).tokenOffset

section Text

variable {input : List UInt8} {first : Nat} {l : Lexer Text} {tables : Nat → IdentTable} {k : Nat}

/-- In front of the first token of a line, the cursor is on an earlier line. -/
theorem StartsLine.breaksBefore_ne (hk : l.StartsLine input tables k) (hhash : Byte.hash ∉ input)
    (hnone : ¬[Byte.quote, Byte.quote, Byte.quote] <:+: input) (h : l.Unindented input first)
    (hfirst : Text.breaksBefore input l.cursor.offset = 0) :
    Text.breaksBefore input (l.reached tables k).cursor.offset ≠
      Text.breaksBefore input (l.reached tables k).tokenOffset := by
  cases k with
  | zero =>
    have hcursor : Text.breaksBefore input (l.reached tables 0).cursor.offset = 0 := hfirst
    rw [hcursor]
    exact (Nat.ne_of_gt hk.behind).symm
  | succ k =>
    have hlocated := (h.reached hhash tables k).blank_located
    have hsource : (l.reached tables (k + 1)).cursor.source =
        (l.reached tables k).blank.cursor.source :=
      TokenRead.source_scan_of_noTriple hhash hnone hlocated.within _ (tables k)
    rw [hlocated.breaksBefore_eq (h.reached hhash tables (k + 1)).located
      (congrArg Text.offset hsource)]
    exact hk.first k (Nat.lt_succ_self k)

theorem StartsLine.indent_eq (hk : l.StartsLine input tables k) (hhash : Byte.hash ∉ input)
    (hnone : ¬[Byte.quote, Byte.quote, Byte.quote] <:+: input)
    (hcontrol : ∀ b ∈ input, Byte.isControl b = false) (h : l.Unindented input first)
    (hfirst : Text.breaksBefore input l.cursor.offset = 0) :
    (l.turn tables k).token.indent =
      if Byte.tab ∈ Text.lead input (l.reached tables k).tokenOffset then none
      else some (wrap32 (Text.lead input (l.reached tables k).tokenOffset).length) := by
  have hreached := h.reached hhash tables k
  have hblank := hreached.blank_located
  have hpasses := passes_blank hreached.located.within
  have hle := hblank.offset_le_of_breaksBefore_ne hpasses.le
    (hk.breaksBefore_ne hhash hnone h hfirst)
  have hindent := hreached.indent_next_iff hhash (tables k) hk.ne_eof
  split
  · rename_i htab
    refine Option.eq_none_iff_forall_ne_some.2 fun i hi => ?_
    obtain ⟨n, hindented, -⟩ := (hindent i).1 hi
    obtain ⟨j, hlo, hhi, htabByte⟩ := Text.mem_lead_iff.1 htab
    rw [hindented.spaces j hlo hhi] at htabByte
    cases htabByte
  · rename_i htab
    have hspaces : ∀ b ∈ Text.lead input (l.reached tables k).tokenOffset, b = Byte.space := by
      intro b hb
      have hseparator := hblank.isBlank_of_mem_lead hhash hpasses hle hb
      rcases Bool.or_eq_true_iff.1 hseparator with hspace | hother
      · exact beq_iff_eq.1 hspace
      · exact absurd (beq_iff_eq.1 hother ▸ hb) htab
    have hrest : (l.reached tables k).blank.cursor.rest ≠ [] := fun hnil =>
      hk.ne_eof ((kind_next_eq_eof_iff _ (tables k)).2 hnil)
    obtain ⟨b, rest, hcons⟩ := List.exists_cons_of_ne_nil hrest
    have hb := Blank.isBlank_head_scan _ 0 _ hcons
    exact (hindent _).2
      ⟨_, hblank.indented_of_lead hcontrol hcons hb hk.behind hspaces, rfl⟩

end Text

theorem startsLine_ofStream (file : FileId) (stream : ByteStream) (options : Options)
    (h : 0 < options.bufferSize) (tables : Nat → IdentTable) (k : Nat) :
    ((ofStream file stream options h).map SoundReader.toReader).StartsLine stream.bytes tables k ↔
      (ofText file options stream.bytes).StartsLine stream.bytes tables k := by
  constructor
  · rintro ⟨hne, hfirst, hbehind⟩
    simp only [token_turn_ofStream, tokenOffset_reached_ofStream] at hne hfirst hbehind
    exact ⟨hne, hfirst, hbehind⟩
  · rintro ⟨hne, hfirst, hbehind⟩
    constructor
    · rwa [token_turn_ofStream]
    · simpa only [tokenOffset_reached_ofStream] using hfirst
    · rwa [tokenOffset_reached_ofStream]

/-- On any stream without comments, without strings in triple quotes and without control bytes, the
first token of a line has the line's spaces in front as its indentation, in 32 bits, if there are no
tabs among them, and otherwise it has none, although it is the first token. -/
theorem open?_firstIndent (file : FileId) (stream : ByteStream) (options : Options)
    (h : 0 < options.bufferSize) (hhash : Byte.hash ∉ stream.bytes)
    (hnone : ¬[Byte.quote, Byte.quote, Byte.quote] <:+: stream.bytes)
    (hcontrol : ∀ b ∈ stream.bytes, Byte.isControl b = false) :
    ∃ l, open? file stream options = .ok l ∧
      ∀ tables k, l.StartsLine stream.bytes tables k →
        (l.turn tables k).token.indent =
          if Byte.tab ∈ Text.lead stream.bytes (l.reached tables k).tokenOffset then none
          else some (wrap32 (Text.lead stream.bytes (l.reached tables k).tokenOffset).length) := by
  refine ⟨_, open?_eq_ok file stream options h, fun tables k hk => ?_⟩
  rw [startsLine_ofStream] at hk
  rw [token_turn_ofStream, tokenOffset_reached_ofStream]
  have hfirst :
      Text.breaksBefore stream.bytes (ofText file options stream.bytes).cursor.offset = 0 :=
    (Text.location_ofBytes stream.bytes).1
  exact hk.indent_eq hhash hnone hcontrol (unindented_ofText file options stream.bytes) hfirst

/-- A line indented by spaces, one by a space and a tab, and blanks on a line of their own. -/
def tabbedLines : ByteStream :=
  ⟨[.chunk 40 [13], .interruption, .chunk 10 [32, 9, 13, 32, 32, 49, 32, 50, 10],
    .chunk 32 [9, 41]], .closed⟩

theorem open?_firstIndent_tabbedLines :
    0 < 1 ∧ Byte.hash ∉ tabbedLines.bytes ∧
      ¬[Byte.quote, Byte.quote, Byte.quote] <:+: tabbedLines.bytes ∧
      (∀ b ∈ tabbedLines.bytes, Byte.isControl b = false) ∧
      ∃ l, open? {} tabbedLines { bufferSize := 1, allowTabs := true } = .ok l ∧
        l.StartsLine tabbedLines.bytes (fun _ => .fresh) 1 ∧
        (l.turn (fun _ => .fresh) 1).token.indent = some 2 ∧
        l.StartsLine tabbedLines.bytes (fun _ => .fresh) 3 ∧
        (l.turn (fun _ => .fresh) 3).token.indent = none := by
  have hhash : Byte.hash ∉ tabbedLines.bytes := by decide
  have hnone : ¬[Byte.quote, Byte.quote, Byte.quote] <:+: tabbedLines.bytes := by decide
  have hcontrol : ∀ b ∈ tabbedLines.bytes, Byte.isControl b = false := fun b hb =>
    Bool.eq_false_iff.2 (List.any_eq_false.1 (by decide) b hb)
  obtain ⟨l, hopen, hrun⟩ := open?_firstIndent {} tabbedLines { bufferSize := 1, allowTabs := true }
    (by decide) hhash hnone hcontrol
  obtain rfl := Except.ok.inj ((open?_eq_ok {} tabbedLines _ (by decide)).symm.trans hopen)
  have hspaced := (startsLine_ofStream {} tabbedLines { bufferSize := 1, allowTabs := true }
    (by decide) (fun _ => .fresh) 1).2 ⟨by decide +kernel, by decide +kernel, by decide +kernel⟩
  have htabbed := (startsLine_ofStream {} tabbedLines { bufferSize := 1, allowTabs := true }
    (by decide) (fun _ => .fresh) 3).2 ⟨by decide +kernel, by decide +kernel, by decide +kernel⟩
  refine ⟨by decide, hhash, hnone, hcontrol, _, hopen, hspaced, ?_, htabbed, ?_⟩
  · rw [hrun _ 1 hspaced, tokenOffset_reached_ofStream]
    decide +kernel
  · rw [hrun _ 3 htabbed, tokenOffset_reached_ofStream]
    decide +kernel

/-- A line that starts with a tab. -/
def hiddenLine : List UInt8 := [97, 10, 9, 98]

/-- Behind the tab the first token of the second line has no indentation, though tabs are
allowed. -/
theorem open?_hiddenLine :
    Byte.hash ∉ hiddenLine ∧ ¬[Byte.quote, Byte.quote, Byte.quote] <:+: hiddenLine ∧
      (∀ b ∈ hiddenLine, Byte.isControl b = false) ∧
      ∃ l, open? {} (.ofBytes hiddenLine) { allowTabs := true } = .ok l ∧
        l.StartsLine (ByteStream.ofBytes hiddenLine).bytes (fun _ => .fresh) 1 ∧
        (l.turn (fun _ => .fresh) 1).token.indent = none := by
  have hrun : let l := ofText {} { allowTabs := true } (ByteStream.ofBytes hiddenLine).bytes
      (l.turn (fun _ => .fresh) 1).token.kind ≠ .eof ∧
        (∀ j < 1, Text.breaksBefore (ByteStream.ofBytes hiddenLine).bytes
            (l.reached (fun _ => .fresh) j).tokenOffset ≠
          Text.breaksBefore (ByteStream.ofBytes hiddenLine).bytes
            (l.reached (fun _ => .fresh) 1).tokenOffset) ∧
        0 < Text.breaksBefore (ByteStream.ofBytes hiddenLine).bytes
          (l.reached (fun _ => .fresh) 1).tokenOffset ∧
        (l.turn (fun _ => .fresh) 1).token.indent = none := by decide +kernel
  obtain ⟨hne, hfirst, hbehind, hindent⟩ := hrun
  have hcontrol : ∀ b ∈ hiddenLine, Byte.isControl b = false := fun b hb =>
    Bool.eq_false_iff.2 (List.any_eq_false.1 (by decide) b hb)
  refine ⟨by decide, by decide, hcontrol, _, open?_eq_ok _ _ _ (by decide), ?_, ?_⟩
  · exact (startsLine_ofStream _ _ _ _ _ _).2 ⟨hne, hfirst, hbehind⟩
  · rwa [token_turn_ofStream]

end Lexer
end Lexeme
