import Lexeme.Proofs.Source.Line
import Lexeme.Source.Cursor

/-!
# Ways through an input

A cursor on a text stands within an input if its line is one of the input's and it has not run
past the line. `Passes` goes from such a cursor to a later one and says what the bytes between
them are; ways are put together from steps along a line and steps over a terminator.
-/

set_option autoImplicit false

namespace Lexeme

namespace Text

theorem terminatorLength_le (bytes : List UInt8) : terminatorLength bytes ≤ bytes.length := by
  fun_cases terminatorLength bytes with
  | case1 => exact Nat.le_refl _
  | case2 rest => exact Nat.le_add_left 2 _
  | case3 b rest h => exact Nat.le_add_left 1 _

/-- A terminator is made of carriage returns and line feeds. -/
theorem isBreak_of_mem_terminator {bytes : List UInt8} {b : UInt8}
    (h : b ∈ (Line.afterText bytes).take (terminatorLength (Line.afterText bytes))) :
    Byte.isBreak b = true := by
  rcases Line.split bytes with hs | ⟨text, c, rest, rfl, ht, hc⟩
  · rw [Line.afterText_of_isText hs, List.take_nil] at h
    exact absurd h List.not_mem_nil
  · rw [Line.afterText_append_cons ht hc, terminatorLength_cons] at h
    split at h
    · rename_i hpair
      cases rest with
      | nil => cases hpair.2
      | cons d rest =>
        obtain rfl := Option.some.inj hpair.2
        rcases List.mem_cons.1 h with rfl | h
        · exact hc
        · obtain rfl := List.mem_singleton.1 h
          rfl
    · obtain rfl := List.mem_singleton.1 h
      exact hc

end Text

namespace Cursor

/-- The cursor stands on a line of the input or at its end. -/
structure Within (input : List UInt8) (c : Cursor Text) : Prop where
  source_eq : c.source = Text.within input c.source.offset
  start_le : c.source.offset ≤ input.length
  column_le : c.column ≤ c.lineBytes.length

/-- The way from a cursor to one at or behind it, over bytes with a property. -/
structure Passes (input : List UInt8) (p : UInt8 → Prop) (c d : Cursor Text) : Prop where
  within : d.Within input
  le : c.offset ≤ d.offset
  between : ∀ i b, c.offset ≤ i → i < d.offset → input[i]? = some b → p b

/-- The way from a cursor to one at or behind it, over whatever bytes. -/
abbrev Reaches (input : List UInt8) : Cursor Text → Cursor Text → Prop :=
  Passes input fun _ => True

/-- The way from a cursor to one behind it. -/
structure Advances (input : List UInt8) (c d : Cursor Text) : Prop where
  within : d.Within input
  lt : c.offset < d.offset

section Within

variable {input : List UInt8} {c : Cursor Text}

theorem Within.lineBytes_eq (h : c.Within input) :
    c.lineBytes = (Line.first (input.drop c.source.offset)).bytes :=
  congrArg (fun t : Text => (Line.first t.rest).bytes) h.source_eq

theorem Within.ending_eq (h : c.Within input) :
    c.ending = (Line.first (input.drop c.source.offset)).ending :=
  congrArg (fun t : Text => (Line.first t.rest).ending) h.source_eq

/-- The input from a cursor on is the rest of its line and what follows the line's text. -/
theorem Within.drop_offset (h : c.Within input) :
    input.drop c.offset = c.rest ++ Line.afterText (input.drop c.source.offset) := by
  have hline := h.lineBytes_eq
  have hcol := h.column_le
  rw [hline] at hcol
  have hsplit := Line.bytes_append_afterText (input.drop c.source.offset)
  calc input.drop c.offset = (input.drop c.source.offset).drop c.column := List.drop_drop.symm
    _ = ((Line.first (input.drop c.source.offset)).bytes ++
          Line.afterText (input.drop c.source.offset)).drop c.column := by rw [hsplit]
    _ = c.rest ++ Line.afterText (input.drop c.source.offset) := by
      rw [List.drop_append_of_le_length hcol, rest, hline]

theorem Within.isText_of_mem_rest (h : c.Within input) {b : UInt8} (hb : b ∈ c.rest) :
    Line.isText b = true := by
  have hmem := List.mem_of_mem_drop hb
  rw [h.lineBytes_eq] at hmem
  exact Line.isText_of_mem_first hmem

/-- The rest of a cursor's line is the first line of what is left. -/
theorem Within.first_eq (h : c.Within input) :
    Line.first (input.drop c.offset) = ⟨c.rest, c.ending⟩ := by
  have hcolumn := h.column_le
  rw [h.lineBytes_eq] at hcolumn
  have hfirst := Line.first_drop hcolumn
  rwa [List.drop_drop, ← h.lineBytes_eq, ← h.ending_eq] at hfirst

theorem Within.rest_eq (h : c.Within input) :
    c.rest = (Line.first (input.drop c.offset)).bytes := by
  rw [h.first_eq]

theorem Within.offset_le (h : c.Within input) : c.offset + c.rest.length ≤ input.length := by
  have hline := h.lineBytes_eq
  have hlen := Line.length_first_add (input.drop c.source.offset)
  have hcol := h.column_le
  have hstart := h.start_le
  have hoff : c.offset = c.source.offset + c.column := rfl
  rw [← hline, List.length_drop] at hlen
  rw [rest, List.length_drop, hoff]
  omega

theorem Within.getElem?_rest (h : c.Within input) {i : Nat} (hi : i < c.rest.length) :
    input[c.offset + i]? = c.rest[i]? := by
  rw [← List.getElem?_drop, h.drop_offset, List.getElem?_append_left hi]

theorem Within.mem_of_mem_rest (h : c.Within input) {b : UInt8} (hb : b ∈ c.rest) :
    b ∈ input := by
  have hd : b ∈ input.drop c.offset := by
    rw [h.drop_offset]
    exact List.mem_append_left _ hb
  exact List.mem_of_mem_drop hd

/-- On the last line a cursor with nothing left stands at the end of the input. -/
theorem Within.offset_eq (h : c.Within input) (hlast : c.isLast = true) (hrest : c.rest = []) :
    c.offset = input.length := by
  have heof : (Line.first (input.drop c.source.offset)).ending = .eof := by
    rw [← h.ending_eq]
    simpa [isLast] using hlast
  have hnil := Line.afterText_of_isText (Line.ending_eq_eof_iff.1 heof)
  have hdrop := h.drop_offset
  rw [hrest, hnil, List.append_nil, List.drop_eq_nil_iff] at hdrop
  have := h.offset_le
  omega

theorem Within.advance (h : c.Within input) {n : Nat} (hn : n ≤ c.rest.length) :
    (c.advance n).Within input := by
  have hcol := h.column_le
  rw [rest, List.length_drop] at hn
  refine ⟨h.source_eq, h.start_le, ?_⟩
  change c.column + n ≤ c.lineBytes.length
  omega

end Within

section Passes

variable {input : List UInt8} {p : UInt8 → Prop} {c d e : Cursor Text}

theorem Passes.refl (h : c.Within input) : Passes input p c c where
  within := h
  le := Nat.le_refl _
  between _ _ hlo hhi _ := absurd hhi (Nat.not_lt.2 hlo)

theorem Passes.trans (hcd : Passes input p c d) (hde : Passes input p d e) :
    Passes input p c e where
  within := hde.within
  le := Nat.le_trans hcd.le hde.le
  between i b hlo hhi hb := by
    by_cases hi : i < d.offset
    · exact hcd.between i b hlo hi hb
    · exact hde.between i b (Nat.not_lt.1 hi) hhi hb

theorem Passes.imp {q : UInt8 → Prop} (h : Passes input p c d) (hpq : ∀ b, p b → q b) :
    Passes input q c d where
  within := h.within
  le := h.le
  between i b hlo hhi hb := hpq b (h.between i b hlo hhi hb)

theorem passes_advance (h : c.Within input) {n : Nat} (hn : n ≤ c.rest.length)
    (hp : ∀ b ∈ c.rest.take n, p b) : Passes input p c (c.advance n) where
  within := h.advance hn
  le := Nat.add_le_add_left (Nat.le_add_right _ _) _
  between i b hlo hhi hb := by
    have hhi' : i < c.offset + n := by
      rw [offset, Nat.add_assoc]
      exact hhi
    obtain ⟨j, rfl⟩ := Nat.exists_eq_add_of_le hlo
    rw [h.getElem?_rest (by omega)] at hb
    have htake : (c.rest.take n)[j]? = some b := by
      rw [List.getElem?_take_of_lt (by omega), hb]
    exact hp b (List.mem_of_getElem? htake)

theorem within_nextLine (h : c.Within input) (hlast : c.isLast = false) :
    c.nextLine.Within input ∧ c.nextLine.offset = c.offset + c.rest.length +
      Text.terminatorLength (Line.afterText (input.drop c.source.offset)) := by
  have hline := h.lineBytes_eq
  have hsource : c.nextLine.source =
      Text.within input (c.source.offset + Text.lineLength (input.drop c.source.offset)) := by
    rw [nextLine, if_neg (by simp [hlast]), ← Text.nextLine_within, ← h.source_eq]
    rfl
  have hcolumn : c.nextLine.column = 0 := by
    rw [nextLine, if_neg (by simp [hlast])]
  have hterm := Text.terminatorLength_le (Line.afterText (input.drop c.source.offset))
  have hlen := Line.length_first_add (input.drop c.source.offset)
  have hstart := h.start_le
  have hcol := h.column_le
  rw [List.length_drop] at hlen
  rw [hline] at hcol
  refine ⟨⟨?_, ?_, ?_⟩, ?_⟩
  · rw [hsource]
    rfl
  · rw [hsource]
    change c.source.offset + Text.lineLength _ ≤ _
    rw [Text.lineLength]
    omega
  · rw [hcolumn]
    exact Nat.zero_le _
  · change c.nextLine.source.offset + c.nextLine.column =
      c.source.offset + c.column + c.rest.length + _
    rw [hsource, hcolumn, rest, hline, List.length_drop]
    change c.source.offset + Text.lineLength _ + 0 = _
    rw [Text.lineLength]
    omega

/-- The step to the next line passes the rest of the line and its terminator. -/
theorem passes_nextLine (h : c.Within input) (hrest : ∀ b ∈ c.rest, p b)
    (hbreak : ∀ b, Byte.isBreak b = true → p b) : Passes input p c c.nextLine := by
  cases hlast : c.isLast with
  | true =>
    rw [nextLine, if_pos hlast]
    exact .refl h
  | false =>
    obtain ⟨hwithin, hoffset⟩ := within_nextLine h hlast
    refine ⟨hwithin, by omega, ?_⟩
    intro i b hlo hhi hb
    obtain ⟨j, rfl⟩ := Nat.exists_eq_add_of_le hlo
    rw [← List.getElem?_drop, h.drop_offset] at hb
    by_cases hj : j < c.rest.length
    · rw [List.getElem?_append_left hj] at hb
      exact hrest b (List.mem_of_getElem? hb)
    · rw [List.getElem?_append_right (Nat.not_lt.1 hj)] at hb
      have hterm : ((Line.afterText (input.drop c.source.offset)).take (Text.terminatorLength
          (Line.afterText (input.drop c.source.offset))))[j - c.rest.length]? = some b := by
        rw [List.getElem?_take_of_lt (by omega), hb]
      exact hbreak b (Text.isBreak_of_mem_terminator (List.mem_of_getElem? hterm))

theorem reaches_advance (h : c.Within input) {n : Nat} (hn : n ≤ c.rest.length) :
    Reaches input c (c.advance n) :=
  passes_advance h hn fun _ _ => trivial

theorem reaches_nextLine (h : c.Within input) : Reaches input c c.nextLine :=
  passes_nextLine h (fun _ _ => trivial) fun _ _ => trivial

theorem Passes.advances {n : Nat} (h : Passes input p (c.advance n) d) (hn : 0 < n) :
    Advances input c d := by
  have hle := h.le
  have hoffset : (c.advance n).offset = c.offset + n := (Nat.add_assoc _ _ _).symm
  exact ⟨h.within, by omega⟩

end Passes
end Cursor
end Lexeme
