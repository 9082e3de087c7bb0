import Lexeme.Proofs.Source.Passage
import Lexeme.Proofs.Layout.Route

/-!
# Ways of the scanners

A scanner's route goes forward through the input and stays within it. What stands in front of a
token is passed over blanks and terminators alone, unless the input has a `#` in it and so may
have comments.
-/

set_option autoImplicit false

namespace Lexeme

theorem eq_space_of_mem_take {line : List UInt8} {b : UInt8}
    (h : b ∈ line.take (leadingSpaces line)) : b = Byte.space := by
  have htake : line.take (leadingSpaces line) = line.takeWhile (· == Byte.space) :=
    (List.prefix_iff_eq_take.1 (List.takeWhile_prefix _)).symm
  rw [htake] at h
  have hb := List.mem_takeWhile_imp h
  exact beq_iff_eq.1 hb

theorem Cursor.Within.getElem?_leadingSpaces {input : List UInt8} {c : Cursor Text}
    (h : c.Within input) {i : Nat} (hi : i < leadingSpaces c.rest) :
    input[c.offset + i]? = some Byte.space := by
  have hlt : i < c.rest.length := Nat.lt_of_lt_of_le hi (leadingSpaces_le _)
  have htake : c.rest[i] ∈ c.rest.take (leadingSpaces c.rest) :=
    List.mem_take_iff_getElem.2 ⟨i, by omega, rfl⟩
  rw [h.getElem?_rest hlt, List.getElem?_eq_getElem hlt, eq_space_of_mem_take htake]

/-- Where no comment starts a line, its indentation is its leading spaces. -/
theorem Indentation.scan_of_head?_ne {σ : Type} [LineSource σ] {c : Cursor σ}
    (h : (c.rest.drop (leadingSpaces c.rest)).head? ≠ some Byte.hash) (options : Options)
    (width : Nat) :
    scan options width c =
      ⟨wrap32 (width + leadingSpaces c.rest), c.advance (leadingSpaces c.rest), []⟩ := by
  have hopener : ¬(BlockForm.ordinary.opener.isPrefixOf
      (c.advance (leadingSpaces c.rest)).rest = true ∧ (!options.retainComments) = true) := by
    rintro ⟨hopen, -⟩
    obtain ⟨more, hmore⟩ := List.isPrefixOf_iff_prefix.1 hopen
    rw [Cursor.rest_advance] at hmore
    rw [← hmore] at h
    exact h rfl
  rw [scan]
  exact dif_neg hopener

theorem Indentation.scan_of_not_mem {σ : Type} [LineSource σ] {c : Cursor σ}
    (h : Byte.hash ∉ c.rest) (options : Options) (width : Nat) :
    scan options width c =
      ⟨wrap32 (width + leadingSpaces c.rest), c.advance (leadingSpaces c.rest), []⟩ :=
  scan_of_head?_ne (fun hhead => h (List.mem_of_mem_drop (List.mem_of_head? hhead))) options width

/-- A route through lines of the input stays within it and goes forward. -/
theorem Cursor.Route.reaches {input : List UInt8} {c d : Cursor Text} (h : c.Within input)
    (hroute : Route c d) : Reaches input c d := by
  induction hroute with
  | refl => exact .refl h
  | advance _ hn ih => exact ih.trans (reaches_advance ih.within hn)
  | nextLine _ ih => exact ih.trans (reaches_nextLine ih.within)

namespace Blank

open Cursor

/-- What may stand in front of a token: separators, and anything where comments are. -/
def Separates (input : List UInt8) (b : UInt8) : Prop :=
  Byte.hash ∈ input ∨ Byte.isSeparator b = true

variable {input : List UInt8} {c : Cursor Text}

theorem passes_of_hash {d : Cursor Text} (hh : Byte.hash ∈ input) (h : Reaches input c d) :
    Passes input (Separates input) c d :=
  h.imp fun _ _ => .inl hh

theorem passes_indentation (options : Options) (width : Nat) (h : c.Within input) :
    Passes input (Separates input) c (Indentation.scan options width c).cursor := by
  have hspaces : ∀ {c : Cursor Text}, c.Within input →
      Passes input (Separates input) c (c.advance (leadingSpaces c.rest)) := by
    intro c hc
    refine passes_advance hc (leadingSpaces_le _) fun b hb => .inr ?_
    rw [eq_space_of_mem_take hb]
    rfl
  fun_induction Indentation.scan options width c with
  | case1 width c spaces start hopen block more ih =>
    have hstart : Passes input (Separates input) c start := hspaces h
    have hopener := List.isPrefixOf_iff_prefix.1 hopen.1
    have hhash : Byte.hash ∈ input :=
      hstart.within.mem_of_mem_rest (hopener.subset List.mem_cons_self)
    have hmark := reaches_advance hstart.within hopener.length_le
    have hblock : Reaches input (start.advance 2) block.cursor :=
      (BlockComment.route_scan _ _ _ _ _).reaches hmark.within
    exact (hstart.trans (passes_of_hash hhash (hmark.trans hblock))).trans (ih hblock.within)
  | case2 width c spaces start hopen => exact hspaces h

theorem passes_run (options : Options) (spaces : Nat) (h : c.Within input) :
    Passes input (Separates input) c (c.advance (run options spaces c).length) := by
  obtain ⟨blanks, rest, hsplit, hlen, -, hsep⟩ := BlankRun.covers_scan options 0 spaces c.rest
  rw [Nat.zero_add] at hlen
  refine passes_advance h (length_run_le options spaces c) ?_
  intro b hb
  rw [run, hlen, hsplit, List.take_left] at hb
  exact hsep.imp h.mem_of_mem_rest fun hsep => hsep b hb

/-- Without comments no run of blanks ends at one. -/
theorem ending_run_ne_block (hhash : Byte.hash ∉ input) {options : Options} (h : c.Within input)
    (spaces : Nat) : (run options spaces c).ending ≠ .block := by
  intro hend
  have hstop := stopsAt_run options spaces c
  rw [hend, Cursor.rest_advance] at hstop
  have hmem := List.mem_of_mem_drop (hstop.subset List.mem_cons_self)
  exact hhash (h.mem_of_mem_rest hmem)

/-- A run of blanks up to the line's end goes on to the indentation of the next line. -/
theorem passes_ahead (options : Options) (spaces : Nat) (h : c.Within input)
    (hend : (run options spaces c).ending = .lineEnd) :
    Passes input (Separates input) c (ahead options c).cursor := by
  obtain ⟨blanks, rest, hsplit, -, hstop, hsep⟩ := BlankRun.covers_scan options 0 spaces c.rest
  rw [run] at hend
  rw [hend] at hstop
  have hnext : Passes input (Separates input) c c.nextLine := by
    refine passes_nextLine h ?_ fun b hb => .inr (by simp [Byte.isSeparator, hb])
    intro b hb
    refine hsep.imp h.mem_of_mem_rest fun hsep => hsep b ?_
    rwa [hsplit, show rest = [] from hstop, List.append_nil] at hb
  exact hnext.trans (passes_indentation options 0 hnext.within)

theorem passes_scan (options : Options) (spaces : Nat) (h : c.Within input) :
    Passes input (Separates input) c (scan options spaces c).cursor := by
  induction spaces, c using scanCases (σ := Text) options with
  | token spaces c hend =>
    rw [scan_of_token hend]
    exact passes_run options spaces h
  | last spaces c hend hlast =>
    rw [scan_of_isLast hend hlast]
    exact passes_run options spaces h
  | start spaces c hend hlast hstart =>
    rw [scan_of_lineEnd hend hlast, if_pos hstart]
    exact passes_ahead options spaces h hend
  | comment spaces c hend ih =>
    have hstop := stopsAt_run options spaces c
    rw [hend] at hstop
    have hrun := passes_run options spaces h
    have hhash : Byte.hash ∈ input :=
      hrun.within.mem_of_mem_rest (hstop.subset List.mem_cons_self)
    have hmark := reaches_advance hrun.within hstop.length_le
    have hblock := (BlockComment.route_scan .ordinary options.maxLineLength 0 0 _).reaches
      hmark.within
    rw [scan_of_block hend]
    exact (hrun.trans (passes_of_hash hhash (hmark.trans hblock))).trans (ih hblock.within)
  | line spaces c hend hlast hstart ih =>
    have hahead := passes_ahead options spaces h hend
    rw [scan_of_lineEnd hend hlast, if_neg (by simp [hstart])]
    exact hahead.trans (ih hahead.within)

end Blank
end Lexeme
