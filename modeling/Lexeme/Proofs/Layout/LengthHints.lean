import Lexeme.Proofs.Layout.Leads
import Lexeme.Proofs.Literal.PieceFindings

/-!
# Hints about long lines

Whichever scanner passes a terminator passes on the hint that the line has earned. `hintsAhead` are
the hints of all lines from a cursor on that a terminator ends, and `Cursor.Tells` says of a scan
that its hints are those of the terminators between its two ends: none is left out, and none is
told twice. Comments, strings in triple quotes and blanks all do so.
-/

set_option autoImplicit false

namespace Lexeme

namespace Diagnostic

variable {σ : Type} (c : Cursor σ)

/-- The diagnostics about the length of a line. -/
def lengthHints (ds : List Diagnostic) : List Diagnostic :=
  ds.filter fun d => d.message = .lineTooLong

theorem lengthHints_append (ds ds' : List Diagnostic) :
    lengthHints (ds ++ ds') = lengthHints ds ++ lengthHints ds' :=
  about_append .lineTooLong ds ds'

theorem lengthHints_map_locate {fs : List Finding} (h : HintFree fs) :
    lengthHints (fs.map c.locate) = [] :=
  about_eq_nil (List.forall_mem_map.2 h)

theorem lengthHints_report {message : Message} (h : message ≠ .lineTooLong) :
    lengthHints [c.report message] = [] :=
  about_eq_nil (List.forall_mem_singleton.2 h)

theorem lengthHints_lengthHint [LineSource σ] (limit : Nat) :
    lengthHints (c.lengthHint limit) = c.lengthHint limit := by
  rw [Cursor.lengthHint]
  split
  · rfl
  · rfl

end Diagnostic

open Diagnostic

variable {σ : Type} [LineSource σ]

namespace Cursor

/-- The hints of the lines from the cursor's line on; the last line has no terminator and gets
none. -/
def hintsAhead (limit : Nat) (c : Cursor σ) : List Diagnostic :=
  if _h : c.isLast then [] else c.lengthHint limit ++ c.nextLine.hintsAhead limit
termination_by c.unread
decreasing_by exact unread_nextLine_lt (by simpa using _h)

theorem hintsAhead_of_isLast {c : Cursor σ} (h : c.isLast = true) (limit : Nat) :
    c.hintsAhead limit = [] := by
  rw [hintsAhead, dif_pos h]

theorem hintsAhead_of_not_isLast {c : Cursor σ} (h : c.isLast = false) (limit : Nat) :
    c.hintsAhead limit = c.lengthHint limit ++ c.nextLine.hintsAhead limit := by
  rw [hintsAhead, dif_neg (by simp [h])]

/-- A scan from one cursor to another tells the hints of the lines between them. -/
def Tells (limit : Nat) (c : Cursor σ) (ds : List Diagnostic) (d : Cursor σ) : Prop :=
  c.hintsAhead limit = lengthHints ds ++ d.hintsAhead limit

section Tells

variable {limit n : Nat} {c d e : Cursor σ} {ds ds' : List Diagnostic}

theorem Tells.refl (limit : Nat) (c : Cursor σ) : c.Tells limit [] c := rfl

theorem Tells.trans (h : c.Tells limit ds d) (h' : d.Tells limit ds' e) :
    c.Tells limit (ds ++ ds') e := by
  rw [Tells] at h h' ⊢
  rw [h, h', lengthHints_append, List.append_assoc]

/-- Along a line nothing is due. -/
theorem tells_advance (hn : n ≤ c.rest.length) : c.Tells limit [] (c.advance n) := by
  change c.hintsAhead limit = (c.advance n).hintsAhead limit
  cases hlast : c.isLast with
  | true =>
    rw [hintsAhead_of_isLast hlast, hintsAhead_of_isLast ((c.isLast_advance n).trans hlast)]
  | false =>
    rw [hintsAhead_of_not_isLast hlast,
      hintsAhead_of_not_isLast ((c.isLast_advance n).trans hlast), lengthHint_advance hn,
      nextLine_advance hlast]

theorem tells_lineEnd (limit : Nat) (c : Cursor σ) : c.Tells limit [] c.lineEnd :=
  tells_advance (Nat.le_refl _)

theorem tells_leadingSpaces (limit : Nat) (c : Cursor σ) :
    c.Tells limit [] (c.advance (leadingSpaces c.rest)) :=
  tells_advance (leadingSpaces_le _)

/-- Over a terminator the hint of its line is. -/
theorem tells_nextLine (h : c.isLast = false) :
    c.Tells limit (c.lengthHint limit) c.nextLine := by
  rw [Tells, lengthHints_lengthHint, hintsAhead_of_not_isLast h]

theorem Tells.append_silent (h : c.Tells limit ds d) (hds : lengthHints ds' = []) :
    c.Tells limit (ds ++ ds') d := by
  rw [Tells, lengthHints_append, hds, List.append_nil]
  exact h

theorem Tells.silent_append (h : c.Tells limit ds d) (hds : lengthHints ds' = []) :
    c.Tells limit (ds' ++ ds) d := by
  rw [Tells, lengthHints_append, hds, List.nil_append]
  exact h

end Tells
end Cursor

open Cursor

/-! ## Comments and strings -/

namespace BlockComment

theorem tells_dropSpaces (limit count : Nat) (c : Cursor σ) :
    c.Tells limit [] (dropSpaces count c) :=
  tells_advance (Nat.le_trans (Nat.min_le_right _ _) (leadingSpaces_le _))

theorem tells_scan (form : BlockForm) (limit strip : Nat) (depth : UInt32) (c : Cursor σ) :
    c.Tells limit (scan form limit strip depth c).diagnostics
      (scan form limit strip depth c).cursor := by
  fun_induction scan form limit strip depth c with
  | case1 depth c l hd => exact tells_advance (BlockLine.length_scan_le form depth c.rest)
  | case2 depth c l depth' hd hlast =>
    exact (tells_lineEnd limit c).append_silent (lengthHints_report c.lineEnd Message.noConfusion)
  | case3 depth c l depth' hd hlast more ih =>
    exact (tells_nextLine (Bool.not_eq_true _ ▸ hlast)).trans
      ((tells_dropSpaces limit strip _).trans ih)

theorem tells_documentation (limit : Nat) (c : Cursor σ) :
    c.Tells limit (documentation limit c).diagnostics (documentation limit c).cursor := by
  unfold documentation
  dsimp only
  split
  · rename_i hempty
    exact (tells_nextLine (by simpa using hempty.2)).trans
      ((tells_leadingSpaces limit _).trans (tells_scan _ _ _ _ _))
  · exact (tells_leadingSpaces limit c).trans (tells_scan _ _ _ _ _)

end BlockComment

namespace Comment

theorem tells_documentationLines (limit strip : Nat) (c : Cursor σ) :
    c.Tells limit (documentationLines limit strip c).diagnostics
      (documentationLines limit strip c).cursor := by
  fun_induction documentationLines limit strip c with
  | case1 c hlast => exact tells_lineEnd limit c
  | case2 c hlast indent next hdoc more ih =>
    have hnext : c.Tells limit (c.lengthHint limit) c.nextLine :=
      tells_nextLine (Bool.not_eq_true _ ▸ hlast)
    have hmark : c.nextLine.Tells limit [] (next.advance 2) :=
      (tells_leadingSpaces limit c.nextLine).trans
        (tells_advance (two_le_of_isDocumentation hdoc))
    exact hnext.trans (hmark.trans ((BlockComment.tells_dropSpaces limit strip _).trans ih))
  | case3 c hlast indent next hdoc =>
    have hnext : c.Tells limit (c.lengthHint limit) c.nextLine :=
      tells_nextLine (Bool.not_eq_true _ ▸ hlast)
    have hindent := hnext.trans (tells_leadingSpaces limit c.nextLine)
    rwa [List.append_nil] at hindent

theorem tells_scan (limit : Nat) (c : Cursor σ) :
    c.Tells limit (scan limit c).diagnostics (scan limit c).cursor := by
  unfold scan
  split
  · rename_i ho
    exact (tells_advance (List.isPrefixOf_iff_prefix.1 ho).length_le).trans
      (BlockComment.tells_documentation limit _)
  · split
    · rename_i hd
      have hmark := two_le_of_isDocumentation hd
      have hspaces := leadingSpaces_le (c.rest.drop 2)
      rw [List.length_drop] at hspaces
      have hstart : 2 + leadingSpaces (c.rest.drop 2) ≤ c.rest.length := by omega
      exact (tells_advance hstart).trans (tells_documentationLines limit _ _)
    · split
      · rename_i ho
        exact (tells_advance (List.isPrefixOf_iff_prefix.1 ho).length_le).trans
          (BlockComment.tells_scan _ limit _ _ _)
      · exact tells_lineEnd limit c

end Comment

namespace TripleString

theorem tells_contents (limit : Nat) (c : Cursor σ) :
    c.Tells limit (contents limit c).diagnostics (contents limit c).cursor := by
  fun_induction contents limit c with
  | case1 c l hl => exact tells_advance (TripleLine.length_scan_le c.rest)
  | case2 c l hl hlast => exact tells_lineEnd limit c
  | case3 c l hl hlast more ih => exact (tells_nextLine (Bool.not_eq_true _ ▸ hlast)).trans ih

theorem tells_scan (limit : Nat) (c : Cursor σ) :
    c.Tells limit (scan limit c).diagnostics (scan limit c).cursor := by
  unfold scan
  split
  · rename_i hblank
    exact (tells_nextLine (by simpa using hblank.2)).trans (tells_contents limit _)
  · exact tells_contents limit c

end TripleString

/-! ## Blanks -/

theorem BlankRun.hintFree_scan (options : Options) (offset spaces : Nat) (line : List UInt8) :
    HintFree (scan options offset spaces line).findings := by
  intro f hf
  rw [message_scan options offset spaces line f hf]
  exact Message.noConfusion

theorem Blank.Leads.tells {options : Options} {c d : Cursor σ} {ds : List Diagnostic}
    (h : Leads options c ds d) : c.Tells options.maxLineLength ds d := by
  have hfound : ∀ c : Cursor σ, lengthHints ((run options 0 c).findings.map c.locate) = [] :=
    fun c => lengthHints_map_locate c (BlankRun.hintFree_scan options 0 0 c.rest)
  induction h with
  | @token c _ => exact (tells_advance (length_run_le options 0 c)).append_silent (hfound c)
  | @last c _ _ => exact (tells_advance (length_run_le options 0 c)).append_silent (hfound c)
  | @block c d ds hend _ ih =>
    have hstop := stopsAt_run options 0 c
    rw [hend] at hstop
    have hopen :
        c.Tells options.maxLineLength [] ((c.advance (run options 0 c).length).advance 2) :=
      (tells_advance (length_run_le options 0 c)).trans (tells_advance hstop.length_le)
    have hblock := hopen.trans (BlockComment.tells_scan .ordinary options.maxLineLength 0 0 _)
    exact (hblock.silent_append (hfound c)).trans ih
  | @line c d ds _ hlast _ ih => exact ((tells_nextLine hlast).silent_append (hfound c)).trans ih

end Lexeme
