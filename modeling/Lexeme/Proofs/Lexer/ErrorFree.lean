import Lexeme.Proofs.Literal.WellFormed
import Lexeme.Proofs.Lexer.Progress

/-!
# Calls without an error

A call that reports no error gives a well-formed token, wherever the lexer stands and whatever has
gone wrong before: every way to read a token reports what it makes do with.
-/

set_option autoImplicit false

namespace Lexeme

/-- None of the diagnostics is an error. -/
def Diagnostic.ErrorFree (ds : List Diagnostic) : Prop := ∀ d ∈ ds, d.isError = false

namespace Diagnostic.ErrorFree

theorem append_iff {ds ds' : List Diagnostic} :
    ErrorFree (ds ++ ds') ↔ ErrorFree ds ∧ ErrorFree ds' :=
  List.forall_mem_append

theorem map_locate_iff {σ : Type} {c : Cursor σ} {fs : List Finding} :
    ErrorFree (fs.map c.locate) ↔ Lexeme.ErrorFree fs := by
  rw [ErrorFree, List.forall_mem_map]
  exact forall₂_congr fun _ _ => beq_eq_false_iff_ne

/-- Hints about long lines are no errors. -/
theorem of_lineTooLong {ds : List Diagnostic} (h : ∀ d ∈ ds, d.message = .lineTooLong) :
    ErrorFree ds := by
  intro d hd
  rw [Diagnostic.isError, Diagnostic.severity, h d hd]
  rfl

end Diagnostic.ErrorFree

section Sources

variable {σ : Type} [LineSource σ]

theorem TokenRead.wellFormed_scan (options : Options) (c : Cursor σ) (table : IdentTable)
    (h : Diagnostic.ErrorFree (scan options c table).diagnostics) :
    (scan options c table).token.WellFormed := by
  cases way c with
  | nil hrest =>
    rw [scan_of_nil options hrest]
    exact .of_kind rfl
  | comment rest hrest =>
    rw [scan_of_hash options hrest]
    exact .of_kind rfl
  | triple o ho ht =>
    rw [scan_of_triple options ho ht]
    exact .of_kind rfl
  | string o ho ht =>
    rw [scan_of_string options ho ht] at h ⊢
    exact Piece.isSound_ofString _ o c.rest (Diagnostic.ErrorFree.map_locate_iff.1 h) table
  | bytes b rest hrest hb ho =>
    rw [scan_of_bytes options hrest hb ho] at h ⊢
    exact Piece.isSound_ofBytes _ b rest (Diagnostic.ErrorFree.map_locate_iff.1 h) table

theorem Lexer.wellFormed_next (l : Lexer σ) (table : IdentTable)
    (h : Diagnostic.ErrorFree (l.next table).diagnostics) : (l.next table).token.WellFormed := by
  have hread : Diagnostic.ErrorFree (TokenRead.scan l.options l.blank.cursor table).diagnostics :=
    fun d hd => h d (List.mem_append_right _ hd)
  obtain ⟨hkind, hliteral, hint⟩ := TokenRead.wellFormed_scan _ _ _ hread
  exact ⟨hkind, hliteral, hint⟩

end Sources

namespace Lexer

/-- On every stream, whatever the options and whichever tables the calls are made with, a call that
reports no error gives a well-formed token. -/
theorem open?_wellFormed (file : FileId) (stream : ByteStream) (options : Options)
    (h : 0 < options.bufferSize) :
    ∃ l, open? file stream options = .ok l ∧
      ∀ tables k, Diagnostic.ErrorFree (l.turn tables k).diagnostics →
        (l.turn tables k).token.WellFormed :=
  ⟨_, open?_eq_ok file stream options h, fun tables k => wellFormed_next _ (tables k)⟩

/-- A stray byte and a pattern of eight bits with the sign bit set. -/
def signedPattern : ByteStream :=
  ⟨[.chunk 1 [32, 48, 120], .interruption, .chunk 102 [70, 39, 105, 56]], .closed⟩

/-- The first call reports an error, and the second one does not. -/
theorem open?_wellFormed_signedPattern :
    0 < 1 ∧ ∃ l, open? {} signedPattern (Options.withWindow {} 1) = .ok l ∧
      ¬Diagnostic.ErrorFree (l.turn (fun _ => .fresh) 0).diagnostics ∧
      Diagnostic.ErrorFree (l.turn (fun _ => .fresh) 1).diagnostics ∧
      (l.turn (fun _ => .fresh) 1).token.WellFormed ∧
      (l.turn (fun _ => .fresh) 1).token.kind = .intLit .int8 ∧
      (l.turn (fun _ => .fresh) 1).token.int = -1 := by
  have hwindow : 0 < (Options.withWindow {} 1).bufferSize := by decide
  obtain ⟨l, hopen, hcalls⟩ := open?_wellFormed {} signedPattern (Options.withWindow {} 1) hwindow
  obtain rfl := Except.ok.inj ((open?_eq_ok _ _ _ hwindow).symm.trans hopen)
  have hcall := hcalls (fun _ => .fresh) 1
  rw [diagnostics_turn_ofStream, token_turn_ofStream] at hcall
  have hfree : Diagnostic.ErrorFree ((ofText {} (Options.withWindow {} 1)
      signedPattern.bytes).turn (fun _ => .fresh) 1).diagnostics := by
    rw [Diagnostic.ErrorFree]
    decide +kernel
  refine ⟨by decide, _, hopen, ?_⟩
  simp only [diagnostics_turn_ofStream, token_turn_ofStream]
  refine ⟨?_, hfree, hcall hfree, ?_, ?_⟩
  · rw [Diagnostic.ErrorFree]
    decide +kernel
  · decide +kernel
  · decide +kernel

end Lexer
end Lexeme
