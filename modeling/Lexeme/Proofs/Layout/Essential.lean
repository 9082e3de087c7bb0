import Lexeme.Proofs.Layout.Blank
import Lexeme.Literal.TripleString

/-!
# Complaints that options decide about

Tabs, long lines and the newline escape in a character are complained about or not as the options
say, and nothing else comes of it: without such complaints, comments, strings over lines and blanks
are the same whatever the options, as long as they agree on whether comments are retained.
-/

set_option autoImplicit false

namespace Lexeme

/-- Whether an option decides that there is such a message. -/
def Message.isOptional : Message → Bool
  | tabsNotAllowed | lineTooLong => true
  | escapeNotAllowedInChar letter => letter == 'n'
  | _ => false

/-- The findings that do not depend on options. -/
def essentialFindings (fs : List Finding) : List Finding := fs.filter fun f => !f.message.isOptional

namespace Diagnostic

/-- The diagnostics that do not depend on options. -/
def essential (ds : List Diagnostic) : List Diagnostic := ds.filter fun d => !d.message.isOptional

theorem essential_append (ds ds' : List Diagnostic) :
    essential (ds ++ ds') = essential ds ++ essential ds' :=
  List.filter_append ..

theorem essential_map_locate {σ : Type} (c : Cursor σ) (fs : List Finding) :
    essential (fs.map c.locate) = (essentialFindings fs).map c.locate :=
  List.filter_map ..

theorem essential_lengthHint {σ : Type} [LineSource σ] (c : Cursor σ) (limit : Nat) :
    essential (c.lengthHint limit) = [] := by
  rw [Cursor.lengthHint]
  split
  · rfl
  · rfl

end Diagnostic

open Diagnostic

section Limits

variable {σ : Type} [LineSource σ] (limit limit' : Nat)

namespace BlockComment

def essential (b : BlockComment σ) : BlockComment σ :=
  { b with diagnostics := Diagnostic.essential b.diagnostics }

theorem essential_scan (form : BlockForm) (strip : Nat) (depth : UInt32) (c : Cursor σ) :
    (scan form limit strip depth c).essential = (scan form limit' strip depth c).essential := by
  fun_induction scan form limit strip depth c with
  | case1 depth c l hd =>
    rw [scan]
    simp only [l] at hd
    simp only [hd]
    rfl
  | case2 depth c l depth' hd h =>
    rw [scan]
    simp only [l] at hd
    simp only [hd, h]
    rfl
  | case3 depth c l depth' hd h more ih =>
    simp only [essential, mk.injEq] at ih
    obtain ⟨htext, hbreaks, hclosed, hcursor, hdiags⟩ := ih
    rw [scan]
    simp only [l] at hd
    simp only [hd]
    rw [dif_neg h]
    simp only [essential, essential_append, essential_lengthHint, more, l, htext, hbreaks, hclosed,
      hcursor, hdiags]

theorem essential_ordinary (c : Cursor σ) :
    (ordinary limit c).essential = (ordinary limit' c).essential :=
  essential_scan limit limit' _ _ _ c

theorem essential_documentation (c : Cursor σ) :
    (documentation limit c).essential = (documentation limit' c).essential := by
  unfold documentation
  dsimp only
  split
  · have hscan := essential_scan limit limit' .documentation
      (wrap32 (leadingSpaces c.nextLine.rest)) 0
      (c.nextLine.advance (leadingSpaces c.nextLine.rest))
    simp only [essential, mk.injEq] at hscan
    obtain ⟨htext, hbreaks, hclosed, hcursor, hdiags⟩ := hscan
    simp only [essential, essential_append, essential_lengthHint, htext, hbreaks, hclosed, hcursor,
      hdiags]
  · exact essential_scan limit limit' _ _ _ _

end BlockComment

namespace Comment

def essential (comment : Comment σ) : Comment σ :=
  { comment with diagnostics := Diagnostic.essential comment.diagnostics }

theorem essential_documentationLines (strip : Nat) (c : Cursor σ) :
    (documentationLines limit strip c).essential =
      (documentationLines limit' strip c).essential := by
  fun_induction documentationLines limit strip c with
  | case1 c h => rw [documentationLines, dif_pos h]
  | case2 c h indent next hdoc more ih =>
    simp only [essential, mk.injEq] at ih
    obtain ⟨htext, hbreaks, hcursor, hpending, hdiags⟩ := ih
    rw [documentationLines, dif_neg h]
    dsimp only
    rw [if_pos hdoc]
    simp only [essential, essential_append, essential_lengthHint, more, next, indent, htext,
      hbreaks, hcursor, hpending, hdiags]
  | case3 c h indent next hdoc =>
    rw [documentationLines, dif_neg h]
    dsimp only
    rw [if_neg hdoc]
    simp only [essential, essential_lengthHint, next, indent]

omit [LineSource σ] in
theorem essential_ofBlock {b b' : BlockComment σ} (h : b.essential = b'.essential) :
    (ofBlock b).essential = (ofBlock b').essential := by
  simp only [BlockComment.essential, BlockComment.mk.injEq] at h
  obtain ⟨htext, hbreaks, -, hcursor, hdiags⟩ := h
  simp only [essential, ofBlock, htext, hbreaks, hcursor, hdiags]

omit [LineSource σ] in
theorem essential_ofBlockVerbatim (form : BlockForm) {b b' : BlockComment σ}
    (h : b.essential = b'.essential) :
    (ofBlockVerbatim form b).essential = (ofBlockVerbatim form b').essential := by
  simp only [BlockComment.essential, BlockComment.mk.injEq] at h
  obtain ⟨htext, hbreaks, hclosed, hcursor, hdiags⟩ := h
  simp only [essential, ofBlockVerbatim, ofBlock, htext, hbreaks, hclosed, hcursor, hdiags]

theorem essential_scan (c : Cursor σ) : (scan limit c).essential = (scan limit' c).essential := by
  unfold scan
  dsimp only
  split
  · exact essential_ofBlock (BlockComment.essential_documentation limit limit' _)
  · split
    · exact essential_documentationLines limit limit' _ _
    · split
      · exact essential_ofBlockVerbatim _ (BlockComment.essential_ordinary limit limit' _)
      · rfl

end Comment

namespace TripleString

def essential (string : TripleString σ) : TripleString σ :=
  { string with diagnostics := Diagnostic.essential string.diagnostics }

theorem essential_contents (c : Cursor σ) :
    (contents limit c).essential = (contents limit' c).essential := by
  fun_induction contents limit c with
  | case1 c l hl => rw [contents, if_pos hl]
  | case2 c l hl h => rw [contents, if_neg hl, dif_pos h]
  | case3 c l hl h more ih =>
    simp only [essential, mk.injEq] at ih
    obtain ⟨htext, hclosed, hcursor, hdiags⟩ := ih
    rw [contents, if_neg hl, dif_neg h]
    simp only [essential, essential_append, essential_lengthHint, more, l, htext, hclosed, hcursor,
      hdiags]

theorem essential_scan (c : Cursor σ) : (scan limit c).essential = (scan limit' c).essential := by
  unfold scan
  split
  · have hcontents := essential_contents limit limit' c.nextLine
    simp only [essential, mk.injEq] at hcontents
    obtain ⟨htext, hclosed, hcursor, hdiags⟩ := hcontents
    simp only [essential, essential_append, essential_lengthHint, htext, hclosed, hcursor, hdiags]
  · exact essential_contents limit limit' c

end TripleString
end Limits

/-! ## Blanks -/

section Blanks

variable {σ : Type} [LineSource σ] {options options' : Options}
  (hretain : options'.retainComments = options.retainComments)
include hretain

namespace BlankRun

omit hretain in
def essential (r : BlankRun) : BlankRun := { r with findings := essentialFindings r.findings }

theorem essential_scan (offset spaces : Nat) (line : List UInt8) :
    (scan options' offset spaces line).essential = (scan options offset spaces line).essential := by
  induction line generalizing offset spaces with
  | nil => rfl
  | cons b rest ih =>
    rw [scan, scan, hretain]
    split
    · exact ih _ _
    · split
      · have htab : ∀ (allow : Bool) (r : BlankRun),
            (if allow then r
              else { r with findings := ⟨offset, .tabsNotAllowed⟩ :: r.findings }).essential =
              r.essential := by
          intro allow r
          cases allow with
          | true => rfl
          | false => rfl
        rw [htab, htab]
        exact ih _ _
      · rfl

end BlankRun

namespace Indentation

omit hretain in
def essential (i : Indentation σ) : Indentation σ :=
  { i with diagnostics := Diagnostic.essential i.diagnostics }

theorem essential_scan (width : Nat) (c : Cursor σ) :
    (scan options' width c).essential = (scan options width c).essential := by
  fun_induction scan options width c with
  | case1 width c spaces start h block more ih =>
    have hblock := BlockComment.essential_ordinary options'.maxLineLength options.maxLineLength
      (start.advance 2)
    simp only [BlockComment.essential, BlockComment.mk.injEq] at hblock
    obtain ⟨-, -, -, hblockCursor, hblockDiags⟩ := hblock
    simp only [essential, mk.injEq] at ih
    obtain ⟨hwidth, hcursor, hdiags⟩ := ih
    rw [scan, dif_pos (by rwa [hretain])]
    simp only [spaces, start] at hblockCursor hblockDiags
    simp only [block, spaces, start] at hwidth hcursor hdiags
    simp only [essential, essential_append, hblockCursor, hblockDiags, hwidth, hcursor, hdiags,
      more, block, spaces, start]
  | case2 width c spaces start h => rw [scan, dif_neg (by rwa [hretain])]

theorem startsToken_eq (line : List UInt8) :
    startsToken options' line = startsToken options line := by
  rw [startsToken, startsToken, hretain]

end Indentation

namespace Blank

omit hretain in
def essential (b : Blank σ) : Blank σ :=
  { b with diagnostics := Diagnostic.essential b.diagnostics }

omit [LineSource σ] hretain in
theorem essential_prepend (ds : List Diagnostic) (b : Blank σ) :
    (b.prepend ds).essential = b.essential.prepend (Diagnostic.essential ds) := by
  simp only [essential, prepend, essential_append]

theorem run_of_retain (spaces : Nat) (c : Cursor σ) :
    (run options' spaces c).length = (run options spaces c).length ∧
      (run options' spaces c).spaces = (run options spaces c).spaces ∧
      (run options' spaces c).ending = (run options spaces c).ending ∧
      Diagnostic.essential ((run options' spaces c).findings.map c.locate) =
        Diagnostic.essential ((run options spaces c).findings.map c.locate) := by
  have hscan := BlankRun.essential_scan hretain 0 spaces c.rest
  simp only [BlankRun.essential, BlankRun.mk.injEq] at hscan
  obtain ⟨hlength, hspaces, hending, hfindings⟩ := hscan
  refine ⟨hlength, hspaces, hending, ?_⟩
  rw [essential_map_locate, essential_map_locate]
  exact congrArg (List.map c.locate) hfindings

theorem block_of_retain (spaces : Nat) (c : Cursor σ) :
    (block options' spaces c).cursor = (block options spaces c).cursor ∧
      Diagnostic.essential (block options' spaces c).diagnostics =
        Diagnostic.essential (block options spaces c).diagnostics := by
  obtain ⟨hlength, -, -, -⟩ := run_of_retain hretain spaces c
  have hordinary := BlockComment.essential_ordinary options'.maxLineLength options.maxLineLength
    ((c.advance (run options spaces c).length).advance 2)
  simp only [BlockComment.essential, BlockComment.mk.injEq] at hordinary
  obtain ⟨-, -, -, hcursor, hdiags⟩ := hordinary
  rw [block, hlength]
  exact ⟨hcursor, hdiags⟩

theorem ahead_of_retain (c : Cursor σ) :
    (ahead options' c).width = (ahead options c).width ∧
      (ahead options' c).cursor = (ahead options c).cursor ∧
      Diagnostic.essential (ahead options' c).diagnostics =
        Diagnostic.essential (ahead options c).diagnostics := by
  have hscan := Indentation.essential_scan hretain 0 c.nextLine
  simp only [Indentation.essential, Indentation.mk.injEq] at hscan
  exact hscan

/-- Blanks are the same but for complaints that options decide about. -/
theorem essential_scan (spaces : Nat) (c : Cursor σ) :
    (scan options' spaces c).essential = (scan options spaces c).essential := by
  induction spaces, c using scanCases (σ := σ) options with
  | token spaces c h =>
    obtain ⟨hlength, hspaces, hending, hfound⟩ := run_of_retain hretain spaces c
    rw [scan_of_token h, scan_of_token (hending.trans h)]
    simp only [essential, hlength, hspaces, hfound]
  | last spaces c h hlast =>
    obtain ⟨hlength, hspaces, hending, hfound⟩ := run_of_retain hretain spaces c
    rw [scan_of_isLast h hlast, scan_of_isLast (hending.trans h) hlast]
    simp only [essential, hlength, hspaces, hfound]
  | start spaces c h hlast hstart =>
    obtain ⟨-, -, hending, hfound⟩ := run_of_retain hretain spaces c
    obtain ⟨hwidth, hcursor, hdiags⟩ := ahead_of_retain hretain c
    have hstart' : Indentation.startsToken options' (ahead options' c).cursor.rest = true := by
      rw [Indentation.startsToken_eq hretain, hcursor, hstart]
    rw [scan_of_lineEnd h hlast, if_pos hstart, scan_of_lineEnd (hending.trans h) hlast,
      if_pos hstart']
    simp only [essential, essential_append, essential_lengthHint, hwidth, hcursor, hfound, hdiags]
  | comment spaces c h ih =>
    obtain ⟨-, hspaces, hending, hfound⟩ := run_of_retain hretain spaces c
    obtain ⟨hcursor, hdiags⟩ := block_of_retain hretain spaces c
    rw [scan_of_block h, scan_of_block (hending.trans h), essential_prepend, essential_prepend,
      essential_append, essential_append, hspaces, hcursor, hfound, hdiags, ih]
  | line spaces c h hlast hstart ih =>
    obtain ⟨-, -, hending, hfound⟩ := run_of_retain hretain spaces c
    obtain ⟨-, hcursor, hdiags⟩ := ahead_of_retain hretain c
    have hstart' : ¬Indentation.startsToken options' (ahead options' c).cursor.rest = true := by
      rw [Indentation.startsToken_eq hretain, hcursor, hstart]
      exact Bool.false_ne_true
    rw [scan_of_lineEnd h hlast, if_neg (by simp [hstart]), scan_of_lineEnd (hending.trans h) hlast,
      if_neg hstart', essential_prepend, essential_prepend, hcursor, ih]
    simp only [essential_append, essential_lengthHint, hfound, hdiags]

end Blank
end Blanks
end Lexeme
