import Lexeme.Proofs.Source.Hom
import Lexeme.Proofs.Source.Location

/-!
# A text with more lines behind it

Put a line feed and more lines behind a text, and its own lines stay what they are; only the last
one now ends in a line feed, and the step from it leads to what was put behind. There the lines
read as on their own, at other offsets and with other numbers.
-/

set_option autoImplicit false

namespace Lexeme

namespace Text

/-- The text with a line feed and more bytes behind it. -/
def followedBy (more : List UInt8) (t : Text) : Text := ⟨t.offset, t.rest ++ Byte.lf :: more⟩

/-- Texts read alike wherever they stand in an input. -/
def moved (k : Nat) : LineSource.Likeness Text Text where
  toFun t := ⟨k + t.offset, t.rest⟩
  bytes_eq _ := rfl
  eof_iff _ := Iff.rfl
  next_eq t _ := congrArg (Text.mk · _) (Nat.add_assoc k t.offset _).symm

/-- A carriage return at the end would make one terminator with a line feed put behind it. -/
def EndsOpen (bytes : List UInt8) : Prop := bytes.getLast? ≠ some Byte.cr

instance (bytes : List UInt8) : Decidable (EndsOpen bytes) :=
  inferInstanceAs (Decidable (bytes.getLast? ≠ some Byte.cr))

theorem EndsOpen.drop {bytes : List UInt8} (h : EndsOpen bytes) (k : Nat) :
    EndsOpen (bytes.drop k) := by
  intro hlast
  by_cases hk : k < bytes.length
  · rw [List.getLast?_drop, if_neg (by omega)] at hlast
    exact h hlast
  · rw [List.drop_eq_nil_of_le (Nat.not_lt.1 hk)] at hlast
    cases hlast

section Lines

variable {bytes : List UInt8} (more : List UInt8)

theorem first_followed_of_eof (h : (Line.first bytes).ending = .eof) :
    Line.first (bytes ++ Byte.lf :: more) = ⟨bytes, .lf⟩ :=
  Line.first_append_cons (Line.ending_eq_eof_iff.1 h) (by decide)

theorem first_followed_of_ne_eof (h : (Line.first bytes).ending ≠ .eof) :
    Line.first (bytes ++ Byte.lf :: more) = Line.first bytes := by
  refine Line.first_append ?_ _
  obtain ⟨b, rest, hafter⟩ := List.exists_cons_of_ne_nil (Line.afterText_ne_nil h)
  refine ⟨b, ?_, Line.isBreak_of_afterText_eq_cons hafter⟩
  rw [← Line.bytes_append_afterText bytes, hafter]
  exact List.mem_append_right _ List.mem_cons_self

theorem bytes_first_followed (bytes : List UInt8) :
    (Line.first (bytes ++ Byte.lf :: more)).bytes = (Line.first bytes).bytes := by
  by_cases h : (Line.first bytes).ending = .eof
  · rw [first_followed_of_eof more h, Line.first_of_isText (Line.ending_eq_eof_iff.1 h)]
  · rw [first_followed_of_ne_eof more h]

theorem lineLength_followed (hopen : EndsOpen bytes) (h : (Line.first bytes).ending ≠ .eof) :
    lineLength (bytes ++ Byte.lf :: more) = lineLength bytes := by
  have hne : (Line.first (bytes ++ Byte.lf :: more)).ending ≠ .eof := by
    rwa [first_followed_of_ne_eof more h]
  have hlt : (Line.first bytes).bytes.length < bytes.length := by
    have hlen := Line.length_first_add bytes
    have hpos := List.length_pos_iff.2 (Line.afterText_ne_nil h)
    omega
  have hpair : ((Line.first bytes).ending = .cr ∧
      (bytes ++ Byte.lf :: more)[(Line.first bytes).bytes.length + 1]? = some Byte.lf) ↔
      ((Line.first bytes).ending = .cr ∧
        bytes[(Line.first bytes).bytes.length + 1]? = some Byte.lf) := by
    refine and_congr_right fun hcr => ?_
    by_cases hinside : (Line.first bytes).bytes.length + 1 < bytes.length
    · rw [List.getElem?_append_left hinside]
    · have hlast := Line.getElem?_length_first bytes
      rw [hcr, show (Line.first bytes).bytes.length = bytes.length - 1 by omega,
        ← List.getLast?_eq_getElem?] at hlast
      exact absurd hlast hopen
  rw [lineLength_eq hne, lineLength_eq h, first_followed_of_ne_eof more h]
  simp only [hpair]

theorem lineLength_le (bytes : List UInt8) : lineLength bytes ≤ bytes.length := by
  have hlen := Line.length_first_add bytes
  have hterm := terminatorLength_le (Line.afterText bytes)
  rw [lineLength]
  omega

theorem nextLine_followedBy {t : Text} (hopen : EndsOpen t.rest)
    (h : (Line.first t.rest).ending ≠ .eof) :
    (t.followedBy more).nextLine = t.nextLine.followedBy more := by
  have hlength := lineLength_followed more hopen h
  change Text.mk (t.offset + lineLength (t.rest ++ Byte.lf :: more))
    ((t.rest ++ Byte.lf :: more).drop (lineLength (t.rest ++ Byte.lf :: more))) =
      ⟨t.offset + lineLength t.rest, t.rest.drop (lineLength t.rest) ++ Byte.lf :: more⟩
  rw [hlength, List.drop_append_of_le_length (lineLength_le t.rest)]

theorem nextLine_followedBy_of_eof {t : Text} (h : (Line.first t.rest).ending = .eof) :
    (t.followedBy more).nextLine = ⟨t.offset + t.rest.length + 1, more⟩ := by
  have hlength : lineLength (t.rest ++ Byte.lf :: more) = t.rest.length + 1 := by
    rw [lineLength, first_followed_of_eof more h,
      Line.afterText_append_cons (Line.ending_eq_eof_iff.1 h) (by decide)]
    rfl
  change Text.mk (t.offset + lineLength (t.rest ++ Byte.lf :: more))
    ((t.rest ++ Byte.lf :: more).drop (lineLength (t.rest ++ Byte.lf :: more))) = _
  rw [hlength, ← List.drop_drop, List.drop_left]
  rfl

end Lines

theorem prefix_of_prefix_append_cons {mark bytes more : List UInt8} {b : UInt8}
    (h : mark <+: bytes ++ b :: more) (hb : b ∉ mark) : mark <+: bytes := by
  induction mark generalizing bytes with
  | nil => exact List.nil_prefix
  | cons m mark ih =>
    cases bytes with
    | nil =>
      obtain ⟨rfl, -⟩ := List.cons_prefix_cons.1 h
      exact absurd List.mem_cons_self hb
    | cons c bytes =>
      obtain ⟨rfl, hrest⟩ := List.cons_prefix_cons.1 h
      have hmark := ih hrest fun hmem => hb (List.mem_cons_of_mem _ hmem)
      exact List.cons_prefix_cons.2 ⟨rfl, hmark⟩

/-- A byte order mark does not go on behind a line feed. -/
theorem ofBytes_followed (bytes more : List UInt8) :
    ofBytes (bytes ++ Byte.lf :: more) = (ofBytes bytes).followedBy more := by
  by_cases h : Reader.byteOrderMark <+: bytes
  · have hfollowed := h.trans (List.prefix_append bytes (Byte.lf :: more))
    have hlength : 3 ≤ bytes.length := h.length_le
    rw [ofBytes, ofBytes, if_pos (List.isPrefixOf_iff_prefix.2 hfollowed),
      if_pos (List.isPrefixOf_iff_prefix.2 h), List.drop_append_of_le_length hlength]
    rfl
  · have hfollowed : ¬Reader.byteOrderMark <+: bytes ++ Byte.lf :: more :=
      fun hprefix => h (prefix_of_prefix_append_cons hprefix (by decide))
    rw [ofBytes, ofBytes, if_neg (fun hp => hfollowed (List.isPrefixOf_iff_prefix.1 hp)),
      if_neg fun hp => h (List.isPrefixOf_iff_prefix.1 hp)]
    rfl

theorem breaks_append_lf {bytes : List UInt8} (hopen : EndsOpen bytes) :
    breaks (bytes ++ [Byte.lf]) = breaks bytes + 1 := by
  have hsame : ∀ k, k ≤ bytes.length →
      breaksBefore (bytes ++ [Byte.lf]) k = breaksBefore bytes k := by
    intro k hk
    induction k with
    | zero => rfl
    | succ k ih =>
      have hends : endsBreak (bytes ++ [Byte.lf]) k = endsBreak bytes k := by
        rw [endsBreak, endsBreak, List.getElem?_append_left (by omega)]
        by_cases hinside : k + 1 < bytes.length
        · rw [List.getElem?_append_left hinside]
        · have hcr : (bytes[k]? == some Byte.cr) = false := by
            rw [beq_eq_false_iff_ne, show k = bytes.length - 1 by omega,
              ← List.getLast?_eq_getElem?]
            exact hopen
          rw [hcr, Bool.false_and, Bool.false_and]
      rw [breaksBefore, breaksBefore, ih (by omega), hends]
  have hlf : endsBreak (bytes ++ [Byte.lf]) bytes.length = true := by
    simp [endsBreak]
  rw [breaks, List.length_append, List.length_singleton, breaksBefore, hsame _ (Nat.le_refl _), hlf]
  rfl

end Text

namespace Cursor

/-- The cursor in a text with more lines behind it. -/
def followedBy (more : List UInt8) (c : Cursor Text) : Cursor Text :=
  { c with source := c.source.followedBy more }

section Followed

variable (more : List UInt8) (c : Cursor Text)

theorem lineBytes_followedBy : (c.followedBy more).lineBytes = c.lineBytes :=
  Text.bytes_first_followed more c.source.rest

theorem rest_followedBy : (c.followedBy more).rest = c.rest := by
  rw [rest, lineBytes_followedBy]
  rfl

theorem before?_followedBy : (c.followedBy more).before? = c.before? := by
  rw [before?, before?, lineBytes_followedBy]
  rfl

theorem advance_followedBy (k : Nat) :
    (c.followedBy more).advance k = (c.advance k).followedBy more := rfl

theorem lineEnd_followedBy : (c.followedBy more).lineEnd = c.lineEnd.followedBy more := by
  rw [lineEnd, rest_followedBy, advance_followedBy, lineEnd]

theorem lengthHint_followedBy (limit : Nat) :
    (c.followedBy more).lengthHint limit = c.lengthHint limit := by
  rw [lengthHint, lineEnd_followedBy, lengthHint]
  rfl

theorem isLast_followedBy : (c.followedBy more).isLast = false := by
  rw [isLast, beq_eq_false_iff_ne]
  change (Line.first (c.source.rest ++ Byte.lf :: more)).ending ≠ .eof
  by_cases h : (Line.first c.source.rest).ending = .eof
  · rw [Text.first_followed_of_eof more h]
    exact LineEnd.noConfusion
  · rwa [Text.first_followed_of_ne_eof more h]

end Followed

section Next

variable {input : List UInt8} (more : List UInt8) {c : Cursor Text}

theorem nextLine_followedBy (hopen : Text.EndsOpen input) (h : c.Within input)
    (hlast : c.isLast = false) :
    (c.followedBy more).nextLine = c.nextLine.followedBy more := by
  have hne : (LineSource.line c.source).ending ≠ .eof := by
    simpa [isLast, ending] using hlast
  have hrest : Text.EndsOpen c.source.rest := by
    rw [h.source_eq]
    exact hopen.drop _
  have hsource := Text.nextLine_followedBy more hrest hne
  rw [nextLine, nextLine, isLast_followedBy, if_neg Bool.false_ne_true, if_neg (by simp [hlast])]
  change Cursor.mk c.file (c.source.followedBy more).nextLine _ _ = _
  rw [hsource]
  rfl

/-- The step from the last line leads to what follows. -/
theorem nextLine_followedBy_of_isLast (hopen : Text.EndsOpen input) {first : Nat}
    (h : c.Located input first) (hlast : c.isLast = true) :
    (c.followedBy more).nextLine =
      ⟨c.file, ⟨input.length + 1, more⟩, wrap32 (first + Text.breaks (input ++ [Byte.lf])), 0⟩ := by
  have heof : (LineSource.line c.source).ending = .eof := by simpa [isLast, ending] using hlast
  have hlength : c.source.offset + c.source.rest.length = input.length := by
    have hstart := h.within.start_le
    rw [h.within.source_eq]
    change c.source.offset + (input.drop c.source.offset).length = _
    rw [List.length_drop]
    omega
  have hline : c.lineBytes.length = c.source.rest.length :=
    congrArg (fun l : Line => l.bytes.length)
      (Line.first_of_isText (Line.ending_eq_eof_iff.1 heof))
  have hbreaks := (Text.location_eq (s := c.source.offset) (o := input.length) (by omega)
    fun i hlo hhi => h.within.endsBreak_eq_false hlo (by omega)).1
  have hsource := Text.nextLine_followedBy_of_eof more heof
  rw [nextLine, isLast_followedBy, if_neg Bool.false_ne_true, Text.breaks_append_lf hopen,
    Text.breaks, hbreaks]
  change Cursor.mk c.file (c.source.followedBy more).nextLine (wrap32 (c.line + 1)) 0 = _
  rw [hsource, hlength, h.line_eq, wrap32_wrap32_add, Nat.add_assoc]

end Next
end Cursor
end Lexeme
