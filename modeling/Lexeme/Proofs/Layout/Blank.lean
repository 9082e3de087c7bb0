import Lexeme.Layout.Blank

/-!
# Equations for blanks

A run of blanks ends at a token, at a block comment or at the line's end, and the scan stops or
goes on accordingly. There is one equation for each way, and `scanCases` is the induction along
them. `BlankRun.Covers` says what a run takes of its line and where it stops.
-/

set_option autoImplicit false

namespace Lexeme

namespace Blank

variable {σ : Type} [LineSource σ]

/-- The blanks at a cursor's line, from the cursor on. -/
def run (options : Options) (spaces : Nat) (c : Cursor σ) : BlankRun :=
  BlankRun.scan options 0 spaces c.rest

/-- The indentation of the line behind a cursor's line. -/
def ahead (options : Options) (c : Cursor σ) : Indentation σ :=
  Indentation.scan options 0 c.nextLine

/-- The block comment that ends the blanks at a cursor. -/
def block (options : Options) (spaces : Nat) (c : Cursor σ) : BlockComment σ :=
  BlockComment.ordinary options.maxLineLength ((c.advance (run options spaces c).length).advance 2)

variable {options : Options} {spaces : Nat} {c : Cursor σ}

theorem scan_of_token (h : (run options spaces c).ending = .token) :
    scan options spaces c =
      ⟨c.advance (run options spaces c).length, (run options spaces c).spaces, none,
        (run options spaces c).findings.map c.locate⟩ := by
  rw [run] at h
  rw [scan]
  split <;> rename_i he <;> rw [h] at he <;> cases he
  rfl

theorem scan_of_block (h : (run options spaces c).ending = .block) :
    scan options spaces c =
      (scan options (run options spaces c).spaces (block options spaces c).cursor).prepend
        ((run options spaces c).findings.map c.locate ++ (block options spaces c).diagnostics) := by
  rw [run] at h
  rw [scan]
  split <;> rename_i he <;> rw [h] at he <;> cases he
  rfl

theorem scan_of_isLast (h : (run options spaces c).ending = .lineEnd) (hlast : c.isLast = true) :
    scan options spaces c =
      ⟨c.advance (run options spaces c).length, (run options spaces c).spaces, none,
        (run options spaces c).findings.map c.locate⟩ := by
  rw [run] at h
  rw [scan]
  split <;> rename_i he <;> rw [h] at he <;> cases he
  rw [dif_pos hlast]
  rfl

theorem scan_of_lineEnd (h : (run options spaces c).ending = .lineEnd) (hlast : c.isLast = false) :
    scan options spaces c =
      if Indentation.startsToken options (ahead options c).cursor.rest then
        ⟨(ahead options c).cursor, 0, some (ahead options c).width,
          (run options spaces c).findings.map c.locate ++ c.lengthHint options.maxLineLength ++
            (ahead options c).diagnostics⟩
      else
        (scan options 0 (ahead options c).cursor).prepend
          ((run options spaces c).findings.map c.locate ++ c.lengthHint options.maxLineLength ++
            (ahead options c).diagnostics) := by
  rw [run] at h
  rw [scan]
  split <;> rename_i he <;> rw [h] at he <;> cases he
  rw [dif_neg (by simp [hlast])]
  rfl

/-- Induction along a scan: two ways to go on, and three to stop. -/
@[elab_as_elim]
theorem scanCases (options : Options) {motive : Nat → Cursor σ → Prop}
    (token : ∀ spaces c, (run options spaces c).ending = .token → motive spaces c)
    (last : ∀ spaces c, (run options spaces c).ending = .lineEnd → c.isLast = true →
      motive spaces c)
    (start : ∀ spaces c, (run options spaces c).ending = .lineEnd → c.isLast = false →
      Indentation.startsToken options (ahead options c).cursor.rest = true → motive spaces c)
    (comment : ∀ spaces c, (run options spaces c).ending = .block →
      motive (run options spaces c).spaces (block options spaces c).cursor → motive spaces c)
    (line : ∀ spaces c, (run options spaces c).ending = .lineEnd → c.isLast = false →
      Indentation.startsToken options (ahead options c).cursor.rest = false →
      motive 0 (ahead options c).cursor → motive spaces c)
    (spaces : Nat) (c : Cursor σ) : motive spaces c := by
  fun_induction scan options spaces c with
  | case1 spaces c r found here hend => exact token spaces c hend
  | case2 spaces c r found here hend b ih => exact comment spaces c hend ih
  | case3 spaces c r found here hend hlast => exact last spaces c hend hlast
  | case4 spaces c r found hend hlast i passed hstart =>
    exact start spaces c hend (Bool.not_eq_true _ ▸ hlast) hstart
  | case5 spaces c r found hend hlast i passed hstart ih =>
    exact line spaces c hend (Bool.not_eq_true _ ▸ hlast) (Bool.not_eq_true _ ▸ hstart) ih

end Blank

/-! ## Where a run stops -/

/-- Spaces, tabs and terminators. -/
def Byte.isSeparator (b : UInt8) : Bool := b == space || b == tab || isBreak b

/-- Where a run of blanks stops, by what ends it. -/
def BlankEnd.StopsAt : BlankEnd → List UInt8 → Prop
  | token, rest => rest ≠ []
  | lineEnd, rest => rest = []
  | block, rest => BlockForm.ordinary.opener <+: rest

namespace BlankRun

/-- The run is a part of the line: spaces and tabs, unless a comment belongs to it, up to where its
end says. -/
def Covers (offset : Nat) (line : List UInt8) (r : BlankRun) : Prop :=
  ∃ blanks rest, line = blanks ++ rest ∧ r.length = offset + blanks.length ∧
    r.ending.StopsAt rest ∧ (Byte.hash ∈ line ∨ ∀ b ∈ blanks, Byte.isSeparator b = true)

theorem Covers.cons {offset : Nat} {line : List UInt8} {r : BlankRun} {b : UInt8}
    (h : r.Covers (offset + 1) line) (hb : Byte.isSeparator b = true) :
    r.Covers offset (b :: line) := by
  obtain ⟨blanks, rest, rfl, hlen, hstop, hblank⟩ := h
  refine ⟨b :: blanks, rest, rfl, ?_, hstop, ?_⟩
  · rw [hlen, List.length_cons]
    omega
  · exact hblank.imp (List.mem_cons_of_mem _) fun hblank => List.forall_mem_cons.2 ⟨hb, hblank⟩

theorem stopsAt_endingAtHash {retain : Bool} {rest : List UInt8}
    (h : endingAtHash retain rest ≠ .lineEnd) :
    (endingAtHash retain rest).StopsAt (Byte.hash :: rest) := by
  revert h
  fun_cases endingAtHash retain rest with
  | case1 hr => exact fun _ => List.cons_ne_nil _ _
  | case2 hr => exact fun h => absurd rfl h
  | case3 b rest ht => exact fun _ => List.cons_ne_nil _ _
  | case4 b rest ht hb =>
    obtain rfl := beq_iff_eq.1 hb
    exact fun _ => ⟨rest, rfl⟩
  | case5 b rest ht hb => exact fun h => absurd rfl h

theorem covers_scan (options : Options) (offset spaces : Nat) (line : List UInt8) :
    (scan options offset spaces line).Covers offset line := by
  fun_induction scan options offset spaces line with
  | case1 offset spaces => exact ⟨[], [], rfl, rfl, rfl, .inr fun b hb => absurd hb (by simp)⟩
  | case2 offset spaces b rest hb ih => exact ih.cons (by simp [Byte.isSeparator, hb])
  | case3 offset spaces b rest hb ht run hallow ih => exact ih.cons (by simp [Byte.isSeparator, ht])
  | case4 offset spaces b rest hb ht run hallow ih =>
    have hrun : run.Covers offset (b :: rest) := ih.cons (by simp [Byte.isSeparator, ht])
    exact hrun
  | case5 offset spaces b rest hb ht hh hend =>
    obtain rfl := beq_iff_eq.1 hh
    refine ⟨Byte.hash :: rest, [], (List.append_nil _).symm, ?_, rfl, .inl List.mem_cons_self⟩
    rw [List.length_cons, Nat.add_comm rest.length, ← Nat.add_assoc]
  | case6 offset spaces b rest hb ht hh hend =>
    obtain rfl := beq_iff_eq.1 hh
    exact ⟨[], Byte.hash :: rest, rfl, rfl, stopsAt_endingAtHash hend, .inl List.mem_cons_self⟩
  | case7 offset spaces b rest hb ht hh =>
    exact ⟨[], b :: rest, rfl, rfl, List.cons_ne_nil _ _, .inr fun b hb => absurd hb (by simp)⟩

end BlankRun

namespace Blank

variable {σ : Type} [LineSource σ]

theorem stopsAt_run (options : Options) (spaces : Nat) (c : Cursor σ) :
    (run options spaces c).ending.StopsAt (c.advance (run options spaces c).length).rest := by
  obtain ⟨blanks, rest, hsplit, hlen, hstop, -⟩ := BlankRun.covers_scan options 0 spaces c.rest
  rw [Nat.zero_add] at hlen
  rw [Cursor.rest_advance, run, hlen, hsplit, List.drop_left]
  rw [hsplit] at hstop
  exact hstop

/-- Where nothing follows the blanks, the input ends. -/
theorem isLast_of_rest_eq_nil (options : Options) (spaces : Nat) (c : Cursor σ)
    (h : (scan options spaces c).cursor.rest = []) :
    (scan options spaces c).cursor.isLast = true := by
  induction spaces, c using scanCases (σ := σ) options with
  | token spaces c hend =>
    have hstop := stopsAt_run options spaces c
    rw [hend] at hstop
    rw [scan_of_token hend] at h
    exact absurd h hstop
  | last spaces c hend hlast =>
    rw [scan_of_isLast hend hlast]
    exact hlast
  | start spaces c hend hlast hstart =>
    rw [scan_of_lineEnd hend hlast, if_pos hstart] at h
    change (ahead options c).cursor.rest = [] at h
    rw [h] at hstart
    cases hstart
  | comment spaces c hend ih =>
    rw [scan_of_block hend] at h ⊢
    exact ih h
  | line spaces c hend hlast hstart ih =>
    rw [scan_of_lineEnd hend hlast, if_neg (by simp [hstart])] at h ⊢
    exact ih h

end Blank
end Lexeme
