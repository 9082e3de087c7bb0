import Lexeme.Proofs.Layout.Leads
import Lexeme.Proofs.Literal.FindingPlaces

/-!
# Diagnostics lie on the way

A scanner complains about places that it passes: about bytes of a line, about a line's end, and at
the end of the input about what is missing there. `Cursor.Encloses` says of a scan that its
diagnostics lie on its route. Comments, strings in triple quotes and blanks all keep to it.
-/

set_option autoImplicit false

namespace Lexeme

variable {σ : Type} [LineSource σ]

namespace Cursor

/-- A scan leads from one cursor to another, and its diagnostics are about places on the way. -/
structure Encloses (c : Cursor σ) (ds : List Diagnostic) (d : Cursor σ) : Prop where
  route : Route c d
  onRoute : ∀ e ∈ ds, ∃ m, Route c m ∧ Route m d ∧ e.position = m.position

section Encloses

variable {c d e : Cursor σ} {ds ds' : List Diagnostic}

theorem encloses_nil (h : Route c d) : c.Encloses [] d := ⟨h, List.forall_mem_nil _⟩

theorem Encloses.trans (h : c.Encloses ds d) (h' : d.Encloses ds' e) :
    c.Encloses (ds ++ ds') e := by
  refine ⟨h.route.trans h'.route, List.forall_mem_append.2 ⟨fun f hf => ?_, fun f hf => ?_⟩⟩
  · obtain ⟨m, hto, hfrom, hplace⟩ := h.onRoute f hf
    exact ⟨m, hto, hfrom.trans h'.route, hplace⟩
  · obtain ⟨m, hto, hfrom, hplace⟩ := h'.onRoute f hf
    exact ⟨m, h.route.trans hto, hfrom, hplace⟩

/-- The way may start earlier. -/
theorem Encloses.of_route (h : Route c d) (h' : d.Encloses ds e) : c.Encloses ds e :=
  (encloses_nil h).trans h'

/-- At its end, a scan may still complain about the place where it started. -/
theorem Encloses.append_report (h : c.Encloses ds d) (message : Message) :
    c.Encloses (ds ++ [c.report message]) d :=
  ⟨h.route, List.forall_mem_append.2
    ⟨h.onRoute, List.forall_mem_singleton.2 ⟨c, .refl c, h.route, rfl⟩⟩⟩

/-- Along a line, findings about the bytes that are passed lie on the way. -/
theorem encloses_found {n : Nat} (hn : n ≤ c.rest.length) {fs : List Finding}
    (h : FoundWithin n fs) : c.Encloses (fs.map c.locate) (c.advance n) :=
  ⟨route_advance hn, List.forall_mem_map.2 fun f hf =>
    ⟨c.advance f.offset, route_advance (Nat.le_trans (h f hf) hn), route_between (h f hf) hn, rfl⟩⟩

/-- The end of the line comes before the next line. -/
theorem encloses_nextLine (h : c.isLast = false) (limit : Nat) :
    c.Encloses (c.lengthHint limit) c.nextLine := by
  have hend : Route c.lineEnd c.nextLine := by
    rw [← nextLine_advance h c.rest.length]
    exact route_nextLine _
  refine ⟨route_nextLine c, ?_⟩
  rw [lengthHint]
  split
  · exact List.forall_mem_singleton.2 ⟨c.lineEnd, route_lineEnd c, hend, rfl⟩
  · exact List.forall_mem_nil _

end Encloses
end Cursor

open Cursor

/-! ## Comments and strings -/

namespace BlockComment

theorem encloses_scan (form : BlockForm) (limit strip : Nat) (depth : UInt32) (c : Cursor σ) :
    c.Encloses (scan form limit strip depth c).diagnostics
      (scan form limit strip depth c).cursor := by
  fun_induction scan form limit strip depth c with
  | case1 depth c l hd => exact encloses_nil (route_advance (BlockLine.length_scan_le _ _ _))
  | case2 depth c l depth' hd hlast =>
    have hend := (encloses_nil (.refl c.lineEnd)).append_report .unterminatedComment
    exact hend.of_route (route_lineEnd c)
  | case3 depth c l depth' hd hlast more ih =>
    have hnext := encloses_nextLine (Bool.not_eq_true _ ▸ hlast) limit
    exact hnext.trans (ih.of_route (route_dropSpaces strip _))

theorem encloses_documentation (limit : Nat) (c : Cursor σ) :
    c.Encloses (documentation limit c).diagnostics (documentation limit c).cursor := by
  unfold documentation
  dsimp only
  split
  · rename_i hempty
    have hnext := encloses_nextLine (by simpa using hempty.2) limit
    exact hnext.trans ((encloses_scan _ _ _ _ _).of_route (route_leadingSpaces _))
  · exact (encloses_scan _ _ _ _ _).of_route (route_leadingSpaces c)

end BlockComment

namespace Comment

theorem encloses_documentationLines (limit strip : Nat) (c : Cursor σ) :
    c.Encloses (documentationLines limit strip c).diagnostics
      (documentationLines limit strip c).cursor := by
  fun_induction documentationLines limit strip c with
  | case1 c hlast => exact encloses_nil (route_lineEnd c)
  | case2 c hlast indent next hdoc more ih =>
    have hnext := encloses_nextLine (Bool.not_eq_true _ ▸ hlast) limit
    have hmark : Route c.nextLine (next.advance 2) :=
      (route_leadingSpaces _).trans (route_advance (two_le_of_isDocumentation hdoc))
    exact hnext.trans (ih.of_route (hmark.trans (BlockComment.route_dropSpaces strip _)))
  | case3 c hlast indent next hdoc =>
    have hnext := encloses_nextLine (Bool.not_eq_true _ ▸ hlast) limit
    have hindent := hnext.trans (encloses_nil (route_leadingSpaces c.nextLine))
    rwa [List.append_nil] at hindent

theorem encloses_scan (limit : Nat) (c : Cursor σ) :
    c.Encloses (scan limit c).diagnostics (scan limit c).cursor := by
  unfold scan
  split
  · rename_i ho
    have hopen := route_advance (List.isPrefixOf_iff_prefix.1 ho).length_le
    exact (BlockComment.encloses_documentation limit _).of_route hopen
  · split
    · rename_i hd
      have hmark := two_le_of_isDocumentation hd
      have hspaces := leadingSpaces_le (c.rest.drop 2)
      rw [List.length_drop] at hspaces
      exact (encloses_documentationLines limit _ _).of_route (route_advance (by omega))
    · split
      · rename_i ho
        have hopen := route_advance (List.isPrefixOf_iff_prefix.1 ho).length_le
        exact (BlockComment.encloses_scan _ limit _ _ _).of_route hopen
      · exact encloses_nil (route_lineEnd c)

end Comment

namespace TripleString

theorem encloses_contents (limit : Nat) (c : Cursor σ) :
    c.Encloses (contents limit c).diagnostics (contents limit c).cursor := by
  fun_induction contents limit c with
  | case1 c l hl => exact encloses_nil (route_advance (TripleLine.length_scan_le c.rest))
  | case2 c l hl hlast => exact encloses_nil (route_lineEnd c)
  | case3 c l hl hlast more ih =>
    exact (encloses_nextLine (Bool.not_eq_true _ ▸ hlast) limit).trans ih

theorem encloses_scan (limit : Nat) (c : Cursor σ) :
    c.Encloses (scan limit c).diagnostics (scan limit c).cursor := by
  unfold scan
  split
  · rename_i hblank
    have hnext := encloses_nextLine (by simpa using hblank.2) limit
    exact hnext.trans (encloses_contents limit _)
  · exact encloses_contents limit c

end TripleString

/-! ## Blanks -/

theorem BlankRun.le_length_scan (options : Options) (offset spaces : Nat) (line : List UInt8) :
    offset ≤ (scan options offset spaces line).length := by
  obtain ⟨blanks, rest, -, hlen, -⟩ := covers_scan options offset spaces line
  omega

/-- Tabs are complained about where they stand. -/
theorem BlankRun.foundWithin_scan (options : Options) (offset spaces : Nat) (line : List UInt8) :
    FoundWithin (scan options offset spaces line).length
      (scan options offset spaces line).findings := by
  fun_induction scan options offset spaces line with
  | case1 offset spaces => exact .nil
  | case2 offset spaces b rest hb ih => exact ih
  | case3 offset spaces b rest hb ht run hallow ih => exact ih
  | case4 offset spaces b rest hb ht run hallow ih =>
    exact ih.cons (Nat.le_trans (Nat.le_succ _) (le_length_scan options _ _ _))
  | case5 offset spaces b rest hb ht hh hend => exact .nil
  | case6 offset spaces b rest hb ht hh hend => exact .nil
  | case7 offset spaces b rest hb ht hh => exact .nil

theorem Blank.Leads.encloses {options : Options} {c d : Cursor σ} {ds : List Diagnostic}
    (h : Leads options c ds d) : c.Encloses ds d := by
  have hrun : ∀ c : Cursor σ, c.Encloses ((run options 0 c).findings.map c.locate)
      (c.advance (run options 0 c).length) :=
    fun c => encloses_found (length_run_le options 0 c)
      (BlankRun.foundWithin_scan options 0 0 c.rest)
  induction h with
  | @token c _ => exact hrun c
  | @last c _ _ => exact hrun c
  | @block c d ds hend _ ih =>
    have hstop := stopsAt_run options 0 c
    rw [hend] at hstop
    have hblock := BlockComment.encloses_scan .ordinary options.maxLineLength 0 0
      ((c.advance (run options 0 c).length).advance 2)
    have hopen := hblock.of_route (route_advance hstop.length_le)
    exact ((hrun c).trans hopen).trans ih
  | @line c d ds hend hlast _ ih =>
    have hline := encloses_nextLine (c := c.advance (run options 0 c).length) hlast
      options.maxLineLength
    rw [nextLine_advance hlast, lengthHint_advance (length_run_le options 0 c)] at hline
    exact ((hrun c).trans hline).trans ih

end Lexeme
