import Lexeme.Proofs.Source.Location
import Lexeme.Proofs.Layout.Leads
import Lexeme.Proofs.Layout.Passage

/-!
# Indented lines

The bytes of an input tell where a line is indented: spaces alone stand in front of its first
visible byte. Without comments, a scan of the blanks finds an indentation exactly where the bytes
have one, as it shows in 32 bits, if nothing behind the cursor it starts from is indented on the
cursor's own line. A scan keeps this from line to line: it leaves a line behind only once something
else than a space stands in front.
-/

set_option autoImplicit false

namespace Lexeme

/-- A line behind a terminator starts with `k` spaces, and the visible byte behind them stands at
the offset. -/
structure Text.Indented (input : List UInt8) (offset k : Nat) : Prop where
  behind : 0 < breaksBefore input offset
  start_add : lineStart input offset + k = offset
  spaces : ∀ i, lineStart input offset ≤ i → i < offset → input[i]? = some Byte.space
  visible : ∃ b, input[offset]? = some b ∧ Byte.space < b

theorem Text.Indented.lt_length {input : List UInt8} {offset k : Nat}
    (h : Indented input offset k) : k < input.length := by
  obtain ⟨b, hb, -⟩ := h.visible
  have hlt := (List.getElem?_eq_some_iff.1 hb).1
  have hk := h.start_add
  omega

theorem Text.Indented.unique {input : List UInt8} {offset k k' : Nat}
    (h : Indented input offset k) (h' : Indented input offset k') : k = k' := by
  have hk := h.start_add
  have hk' := h'.start_add
  omega

/-- In an input shorter than 2³² bytes the indentation is the number of spaces. -/
theorem Text.exists_indented_iff {input : List UInt8} (hlen : input.length < pow2 32)
    {offset i : Nat} :
    (∃ k, Indented input offset k ∧ i = wrap32 k) ↔ Indented input offset i := by
  constructor
  · rintro ⟨k, hk, rfl⟩
    rwa [wrap32_of_lt (hk.lt_length.trans hlen)]
  · exact fun hi => ⟨i, hi, (wrap32_of_lt (hi.lt_length.trans hlen)).symm⟩

namespace Cursor

/-- From the cursor on, no byte of its line is indented. -/
def Unindented (input : List UInt8) (c : Cursor Text) : Prop :=
  ∀ n k, n ≤ c.rest.length → ¬Text.Indented input (c.advance n).offset k

section Located

variable {input : List UInt8} {first : Nat} {c : Cursor Text}

theorem Within.isVisible_iff (h : c.Within input) :
    Comment.isVisible c.rest = true ↔ ∃ b, input[c.offset]? = some b ∧ Byte.space < b := by
  have hhead : (input.drop c.offset).head? = input[c.offset]? := List.head?_drop
  rw [h.rest_eq, ← hhead, Line.first]
  cases input.drop c.offset with
  | nil => simp [Comment.isVisible]
  | cons b rest =>
    by_cases htext : Line.isText b = true
    · simp [List.takeWhile_cons_of_pos htext, Comment.isVisible]
    · have hbreak : Byte.isBreak b = true := by simpa [Line.isText] using htext
      have hlow : ¬Byte.space < b := by
        rcases Bool.or_eq_true_iff.1 hbreak with hb | hb
        · rw [beq_iff_eq.1 hb]
          decide
        · rw [beq_iff_eq.1 hb]
          decide
      simp [List.takeWhile_cons_of_neg htext, Comment.isVisible, hlow]

/-- Behind a byte of the line that is no space, nothing is indented. -/
theorem Located.unindented_of_passed (h : c.Located input first) {i : Nat} {b : UInt8}
    (hlo : c.source.offset ≤ i) (hhi : i < c.offset) (hb : input[i]? = some b)
    (hne : b ≠ Byte.space) : c.Unindented input := by
  intro n k hn hindented
  have hstart := (h.advance hn).location_eq.2
  have hoffset := c.offset_advance n
  have hspace := hindented.spaces i (Nat.le_trans (Nat.le_of_eq hstart) hlo) (by omega)
  rw [hb] at hspace
  exact hne (Option.some.inj hspace)

/-- Where neither a space nor a visible byte stands, nothing is indented from there on. -/
theorem Located.unindented_of_head? (h : c.Located input first)
    (hspace : c.rest.head? ≠ some Byte.space) (hvisible : Comment.isVisible c.rest = false) :
    c.Unindented input := by
  intro n k hn hindented
  rcases Nat.eq_zero_or_pos n with rfl | hpos
  · have hrest := h.within.isVisible_iff.2 hindented.visible
    rw [hvisible] at hrest
    cases hrest
  · have hstart := (h.advance hn).location_eq.2
    have hoffset := c.offset_advance n
    have hbyte : input[c.offset]? = c.rest[0]? :=
      h.within.getElem?_rest (i := 0) (Nat.lt_of_lt_of_le hpos hn)
    have hpassed := hindented.spaces c.offset
      (Nat.le_trans (Nat.le_of_eq hstart) (Nat.le_add_right _ _)) (by omega)
    rw [hbyte, ← List.head?_eq_getElem?] at hpassed
    exact hspace hpassed

/-- The first visible byte behind a terminator is indented by the spaces in front of it. -/
theorem Located.indented_nextLine (h : c.Located input first) (hlast : c.isLast = false)
    (hvisible : Comment.isVisible (c.nextLine.rest.drop (leadingSpaces c.nextLine.rest)) = true) :
    Text.Indented input (c.nextLine.offset + leadingSpaces c.nextLine.rest)
      (leadingSpaces c.nextLine.rest) := by
  have hnext := h.nextLine
  have hle := leadingSpaces_le c.nextLine.rest
  have hahead := hnext.advance hle
  have hstart := hahead.location_eq.2
  have hcolumn := offset_nextLine hlast
  have hbreaks := hahead.location_eq.1
  rw [offset_advance, advance_source] at hbreaks hstart
  constructor
  · rw [hbreaks, (h.within.location_nextLine hlast).1]
    exact Nat.succ_pos _
  · omega
  · intro i hlo hhi
    obtain ⟨j, rfl⟩ := Nat.exists_eq_add_of_le (show c.nextLine.offset ≤ i by omega)
    exact hnext.within.getElem?_leadingSpaces (by omega)
  · rw [← offset_advance, ← hahead.within.isVisible_iff, rest_advance]
    exact hvisible

end Located
end Cursor

/-! ## Where the blanks end -/

theorem Indentation.startsToken_of_head?_ne {options : Options} {line : List UInt8}
    (h : line.head? ≠ some Byte.hash) : startsToken options line = Comment.isVisible line := by
  simp [startsToken, h]

theorem leadingSpaces_drop (line : List UInt8) :
    (line.drop (leadingSpaces line)).head? ≠ some Byte.space := by
  induction line with
  | nil => simp
  | cons b rest ih =>
    by_cases hb : b = Byte.space
    · subst hb
      rw [leadingSpaces_cons_space]
      exact ih
    · rw [leadingSpaces_cons_of_ne hb]
      simpa using hb

/-- A run of blanks that a token ends has passed all spaces and tabs in front of it. -/
theorem BlankRun.token_of_scan (options : Options) (offset spaces : Nat) (line : List UInt8)
    (h : (scan options offset spaces line).ending = .token) :
    ∃ n, (scan options offset spaces line).length = offset + n ∧
      ∃ b rest, line.drop n = b :: rest ∧ TripleString.isBlank b = false := by
  fun_induction scan options offset spaces line with
  | case1 offset spaces => cases h
  | case2 offset spaces b rest hb ih =>
    obtain ⟨n, hlen, htoken⟩ := ih h
    exact ⟨n + 1, by omega, htoken⟩
  | case3 offset spaces b rest hb ht run hallow ih =>
    obtain ⟨n, hlen, htoken⟩ := ih h
    exact ⟨n + 1, hlen.trans (by omega), htoken⟩
  | case4 offset spaces b rest hb ht run hallow ih =>
    obtain ⟨n, hlen, htoken⟩ := ih h
    exact ⟨n + 1, hlen.trans (by omega), htoken⟩
  | case5 offset spaces b rest hb ht hh hend => cases h
  | case6 offset spaces b rest hb ht hh hend =>
    exact ⟨0, rfl, b, rest, rfl, by simp [TripleString.isBlank, hb, ht]⟩
  | case7 offset spaces b rest hb ht hh =>
    exact ⟨0, rfl, b, rest, rfl, by simp [TripleString.isBlank, hb, ht]⟩

namespace Blank

/-- Where a scan stops, the line ends or a byte stands that is no blank. -/
theorem isBlank_head_scan {σ : Type} [LineSource σ] (options : Options) (spaces : Nat)
    (c : Cursor σ) {b : UInt8} {rest : List UInt8}
    (h : (scan options spaces c).cursor.rest = b :: rest) : TripleString.isBlank b = false := by
  induction spaces, c using scanCases (σ := σ) options with
  | token spaces c hend =>
    obtain ⟨n, hlen, b', rest', htoken, hblank⟩ :=
      BlankRun.token_of_scan options 0 spaces c.rest hend
    rw [scan_of_token hend] at h
    rw [Nat.zero_add] at hlen
    rw [Cursor.rest_advance, run, hlen, htoken] at h
    obtain ⟨rfl, -⟩ := List.cons.inj h
    exact hblank
  | last spaces c hend hlast =>
    have hstop := stopsAt_run options spaces c
    rw [hend] at hstop
    rw [scan_of_isLast hend hlast] at h
    rw [show (c.advance (run options spaces c).length).rest = [] from hstop] at h
    cases h
  | start spaces c hend hlast hstart =>
    rw [scan_of_lineEnd hend hlast, if_pos hstart] at h
    rw [show (ahead options c).cursor.rest = b :: rest from h] at hstart
    have hvisible : Byte.space < b := of_decide_eq_true (Bool.and_eq_true_iff.1 hstart).1
    rw [TripleString.isBlank, Bool.or_eq_false_iff, beq_eq_false_iff_ne, beq_eq_false_iff_ne]
    refine ⟨?_, ?_⟩
    · rintro rfl
      exact absurd hvisible (by decide)
    · rintro rfl
      exact absurd hvisible (by decide)
  | comment spaces c hend ih =>
    rw [scan_of_block hend] at h
    exact ih h
  | line spaces c hend hlast hstart ih =>
    rw [scan_of_lineEnd hend hlast, if_neg (by simp [hstart])] at h
    exact ih h

/-- An indentation is that of a token that starts its line, and no spaces are counted beside it. -/
theorem startsToken_of_indent {σ : Type} [LineSource σ] (options : Options) (spaces : Nat)
    (c : Cursor σ) (h : (scan options spaces c).indent ≠ none) :
    Indentation.startsToken options (scan options spaces c).cursor.rest = true ∧
      (scan options spaces c).spaces = 0 := by
  induction spaces, c using scanCases (σ := σ) options with
  | token spaces c hend =>
    rw [scan_of_token hend] at h
    exact absurd rfl h
  | last spaces c hend hlast =>
    rw [scan_of_isLast hend hlast] at h
    exact absurd rfl h
  | start spaces c hend hlast hstart =>
    rw [scan_of_lineEnd hend hlast, if_pos hstart]
    exact ⟨hstart, rfl⟩
  | comment spaces c hend ih =>
    rw [scan_of_block hend] at h ⊢
    exact ih h
  | line spaces c hend hlast hstart ih =>
    rw [scan_of_lineEnd hend hlast, if_neg (by simp [hstart])] at h ⊢
    exact ih h

section Indent

variable {input : List UInt8} (hhash : Byte.hash ∉ input) {first : Nat} {c : Cursor Text}

include hhash

/-- Without comments, the way to the next line's token is over its leading spaces. -/
theorem ahead_eq (options : Options) (h : c.Within input) :
    ahead options c =
      ⟨wrap32 (leadingSpaces c.nextLine.rest),
        c.nextLine.advance (leadingSpaces c.nextLine.rest), []⟩ := by
  have hnext := (Cursor.reaches_nextLine h).within
  have hline : Byte.hash ∉ c.nextLine.rest := fun hmem => hhash (hnext.mem_of_mem_rest hmem)
  rw [ahead, Indentation.scan_of_not_mem hline, Nat.zero_add]

theorem startsToken_eq {line : List UInt8} (hline : ∀ b ∈ line, b ∈ input) (options : Options) :
    Indentation.startsToken options line = Comment.isVisible line :=
  Indentation.startsToken_of_head?_ne fun hhead => hhash (hline _ (List.mem_of_head? hhead))

/-- A scan finds the indentation that the bytes have where it stops. -/
theorem indent_scan_iff (options : Options) (spaces : Nat) (h : c.Located input first)
    (hunindented : c.Unindented input) (i : Nat) :
    (scan options spaces c).indent = some i ↔
      ∃ k, Text.Indented input (scan options spaces c).cursor.offset k ∧ i = wrap32 k := by
  induction spaces, c using scanCases (σ := Text) options with
  | token spaces c hend =>
    rw [scan_of_token hend]
    exact iff_of_false nofun fun ⟨k, hk, _⟩ => hunindented _ k (length_run_le options spaces c) hk
  | last spaces c hend hlast =>
    rw [scan_of_isLast hend hlast]
    exact iff_of_false nofun fun ⟨k, hk, _⟩ => hunindented _ k (length_run_le options spaces c) hk
  | start spaces c hend hlast hstart =>
    have hahead := ahead_eq hhash options h.within
    rw [scan_of_lineEnd hend hlast, if_pos hstart, hahead]
    have hvisible := (Bool.and_eq_true_iff.1 hstart).1
    rw [hahead, Cursor.rest_advance] at hvisible
    have hindented := h.indented_nextLine hlast hvisible
    rw [Option.some.injEq, Cursor.offset_advance]
    constructor
    · rintro rfl
      exact ⟨_, hindented, rfl⟩
    · rintro ⟨k, hk, rfl⟩
      rw [hindented.unique hk]
  | comment spaces c hend ih => exact absurd hend (ending_run_ne_block hhash h.within spaces)
  | line spaces c hend hlast hstart ih =>
    have hnext := h.nextLine.advance (leadingSpaces_le _)
    have hahead := ahead_eq hhash options h.within
    rw [scan_of_lineEnd hend hlast, if_neg (by simp [hstart])]
    rw [hahead] at hstart ih ⊢
    rw [startsToken_eq hhash (fun _ => hnext.within.mem_of_mem_rest)] at hstart
    refine ih hnext (hnext.unindented_of_head? ?_ hstart)
    rw [Cursor.rest_advance]
    exact leadingSpaces_drop _

end Indent
end Blank
end Lexeme
