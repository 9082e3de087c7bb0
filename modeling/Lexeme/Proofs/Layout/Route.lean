import Lexeme.Proofs.Layout.Blank
import Lexeme.Literal.TripleString

/-!
# Routes of the scanners

Whatever a scanner finds, its cursor only goes along a line and over terminators. `Cursor.Route`
is made of these two steps, and every scanner that runs over lines follows one, also where a
comment or a string is never closed. So what the two steps preserve holds wherever a scan ends.
-/

set_option autoImplicit false

namespace Lexeme

variable {σ : Type} [LineSource σ]

namespace Cursor

inductive Route : Cursor σ → Cursor σ → Prop
  | refl (c : Cursor σ) : Route c c
  | advance {c d : Cursor σ} (h : Route c d) {n : Nat} (hn : n ≤ d.rest.length) :
      Route c (d.advance n)
  | nextLine {c d : Cursor σ} (h : Route c d) : Route c d.nextLine

theorem Route.trans {c d e : Cursor σ} (hcd : Route c d) (hde : Route d e) : Route c e := by
  induction hde with
  | refl => exact hcd
  | advance _ hn ih => exact ih.advance hn
  | nextLine _ ih => exact ih.nextLine

theorem route_advance {c : Cursor σ} {n : Nat} (hn : n ≤ c.rest.length) : Route c (c.advance n) :=
  (Route.refl c).advance hn

theorem route_lineEnd (c : Cursor σ) : Route c c.lineEnd :=
  route_advance (Nat.le_refl _)

theorem route_nextLine (c : Cursor σ) : Route c c.nextLine :=
  (Route.refl c).nextLine

theorem route_leadingSpaces (c : Cursor σ) : Route c (c.advance (leadingSpaces c.rest)) :=
  route_advance (leadingSpaces_le _)

omit [LineSource σ] in
theorem advance_advance (c : Cursor σ) (m n : Nat) :
    (c.advance m).advance n = c.advance (m + n) := by
  rw [advance, advance, advance, Nat.add_assoc]

/-- Of the bytes of a line some may be passed first. -/
theorem route_between {c : Cursor σ} {m n : Nat} (hm : m ≤ n) (hn : n ≤ c.rest.length) :
    Route (c.advance m) (c.advance n) := by
  obtain ⟨k, rfl⟩ := Nat.exists_eq_add_of_le hm
  have hk : k ≤ (c.advance m).rest.length := by
    rw [rest_advance, List.length_drop]
    omega
  rw [← advance_advance]
  exact route_advance hk

theorem Route.file_eq {c d : Cursor σ} (h : Route c d) : d.file = c.file := by
  induction h with
  | refl => rfl
  | advance _ _ ih => exact ih
  | nextLine _ ih =>
    rw [Cursor.nextLine]
    split
    · exact ih
    · exact ih

end Cursor

open Cursor

/-! ## How much of a line a scanner takes -/

theorem BlockLine.length_scan_le (form : BlockForm) (depth : UInt32) (line : List UInt8) :
    (scan form depth line).length ≤ line.length := by
  fun_induction scan form depth line with
  | case1 depth => exact Nat.le_refl _
  | case2 depth b rest ho ih => exact Nat.succ_le_succ ih
  | case3 b rest ho hc => exact (List.isPrefixOf_iff_prefix.1 hc).length_le
  | case4 depth b rest ho hc hne ih => exact Nat.succ_le_succ ih
  | case5 depth b rest ho hc ih => exact Nat.succ_le_succ ih

theorem TripleLine.three_le_of_closes {line : List UInt8} (h : closes line = true) :
    3 ≤ line.length := by
  unfold closes at h
  split at h
  · exact Nat.le_refl 3
  · exact Nat.le_add_left 3 _
  · cases h

theorem TripleLine.length_scan_le (line : List UInt8) : (scan line).length ≤ line.length := by
  fun_induction scan line with
  | case1 => exact Nat.le_refl _
  | case2 b rest h => exact three_le_of_closes h
  | case3 b rest h ih => exact Nat.succ_le_succ ih

theorem Comment.two_le_of_isDocumentation {line : List UInt8} (h : isDocumentation line = true) :
    2 ≤ line.length := by
  unfold isDocumentation at h
  split at h
  · exact Nat.le_add_left 2 _
  · cases h

/-! ## Comments and strings -/

theorem BlockComment.route_dropSpaces (count : Nat) (c : Cursor σ) :
    Route c (dropSpaces count c) :=
  route_advance (Nat.le_trans (Nat.min_le_right _ _) (leadingSpaces_le _))

theorem BlockComment.route_scan (form : BlockForm) (limit strip : Nat) (depth : UInt32)
    (c : Cursor σ) :
    Route c (scan form limit strip depth c).cursor := by
  fun_induction scan form limit strip depth c with
  | case1 depth c l hd => exact route_advance (BlockLine.length_scan_le form depth c.rest)
  | case2 depth c l depth' hd hlast => exact route_lineEnd c
  | case3 depth c l depth' hd hlast more ih =>
    exact ((route_nextLine c).trans (route_dropSpaces strip _)).trans ih

theorem BlockComment.route_documentation (limit : Nat) (c : Cursor σ) :
    Route c (documentation limit c).cursor := by
  unfold documentation
  dsimp only
  split
  · exact ((route_nextLine c).trans (route_leadingSpaces _)).trans (route_scan _ _ _ _ _)
  · exact (route_leadingSpaces c).trans (route_scan _ _ _ _ _)

theorem Comment.route_documentationLines (limit strip : Nat) (c : Cursor σ) :
    Route c (documentationLines limit strip c).cursor := by
  fun_induction documentationLines limit strip c with
  | case1 c hlast => exact route_lineEnd c
  | case2 c hlast indent next hdoc more ih =>
    have hindent : Route c next := (route_nextLine c).trans (route_leadingSpaces _)
    have hmark := hindent.trans (route_advance (two_le_of_isDocumentation hdoc))
    exact (hmark.trans (BlockComment.route_dropSpaces strip _)).trans ih
  | case3 c hlast indent next hdoc => exact (route_nextLine c).trans (route_leadingSpaces _)

/-- A comment takes the mark it starts with. -/
theorem Comment.route_scan (limit : Nat) {c : Cursor σ} (hrest : c.rest ≠ []) :
    Route (c.advance 1) (scan limit c).cursor := by
  unfold scan
  split
  · rename_i ho
    have hopen := route_between (m := 1) (by decide) (List.isPrefixOf_iff_prefix.1 ho).length_le
    exact hopen.trans (BlockComment.route_documentation limit _)
  · split
    · rename_i hd
      have hmark := two_le_of_isDocumentation hd
      have hspaces := leadingSpaces_le (c.rest.drop 2)
      rw [List.length_drop] at hspaces
      have hstart : Route (c.advance 1) (c.advance (2 + leadingSpaces (c.rest.drop 2))) :=
        route_between (by omega) (by omega)
      exact hstart.trans (route_documentationLines limit _ _)
    · split
      · rename_i ho
        have hopen := route_between (m := 1) (by decide) (List.isPrefixOf_iff_prefix.1 ho).length_le
        exact hopen.trans (BlockComment.route_scan _ limit _ _ _)
      · exact route_between (List.length_pos_iff.2 hrest) (Nat.le_refl _)

theorem TripleString.route_contents (limit : Nat) (c : Cursor σ) :
    Route c (contents limit c).cursor := by
  fun_induction contents limit c with
  | case1 c l hl => exact route_advance (TripleLine.length_scan_le c.rest)
  | case2 c l hl hlast => exact route_lineEnd c
  | case3 c l hl hlast more ih => exact (route_nextLine c).trans ih

theorem TripleString.route_scan (limit : Nat) (c : Cursor σ) :
    Route c (scan limit c).cursor := by
  unfold scan
  split
  · exact (route_nextLine c).trans (route_contents limit _)
  · exact route_contents limit c

/-! ## Blanks -/

theorem Indentation.route_scan (options : Options) (width : Nat) (c : Cursor σ) :
    Route c (scan options width c).cursor := by
  fun_induction scan options width c with
  | case1 width c spaces start h block more ih =>
    have hstart : Route c start := route_leadingSpaces c
    have hopen := hstart.trans (route_advance (List.isPrefixOf_iff_prefix.1 h.1).length_le)
    exact (hopen.trans (BlockComment.route_scan _ _ _ _ _)).trans ih
  | case2 width c spaces start h => exact route_leadingSpaces c

namespace Blank

theorem length_run_le (options : Options) (spaces : Nat) (c : Cursor σ) :
    (run options spaces c).length ≤ c.rest.length := by
  obtain ⟨blanks, rest, hsplit, hlen, -⟩ := BlankRun.covers_scan options 0 spaces c.rest
  rw [run, hlen, hsplit, List.length_append]
  omega

theorem route_scan (options : Options) (spaces : Nat) (c : Cursor σ) :
    Route c (scan options spaces c).cursor := by
  induction spaces, c using scanCases (σ := σ) options with
  | token spaces c hend =>
    rw [scan_of_token hend]
    exact route_advance (length_run_le options spaces c)
  | last spaces c hend hlast =>
    rw [scan_of_isLast hend hlast]
    exact route_advance (length_run_le options spaces c)
  | start spaces c hend hlast hstart =>
    rw [scan_of_lineEnd hend hlast, if_pos hstart]
    exact (route_nextLine c).trans (Indentation.route_scan options 0 _)
  | comment spaces c hend ih =>
    have hstop := stopsAt_run options spaces c
    rw [hend] at hstop
    have hrun := route_advance (length_run_le options spaces c)
    have hopen := hrun.trans (route_advance hstop.length_le)
    rw [scan_of_block hend]
    exact (hopen.trans (BlockComment.route_scan _ _ _ _ _)).trans ih
  | line spaces c hend hlast hstart ih =>
    rw [scan_of_lineEnd hend hlast, if_neg (by simp [hstart])]
    exact ((route_nextLine c).trans (Indentation.route_scan options 0 _)).trans ih

end Blank

end Lexeme
