import Lexeme.Proofs.Layout.Leads
import Lexeme.Proofs.Lexer.Positions

/-!
# Whole runs

A run to the end of the input is the step at hand and, unless that one found the end, the run of
the lexer it left. The bound on the number of steps never shows: each token leaves fewer bytes
unread. `runCases` is the induction along a whole run.
-/

set_option autoImplicit false

namespace Lexeme

theorem Cursor.Route.unread_le {σ : Type} [LineSource σ] {c d : Cursor σ} (h : Route c d) :
    d.unread ≤ c.unread := by
  induction h with
  | refl => exact Nat.le_refl _
  | advance _ _ ih => exact Nat.le_trans (unread_advance_le _ _) ih
  | nextLine _ ih => exact Nat.le_trans (unread_nextLine_le _) ih

/-- The token without what it tells of the blanks in front of it. -/
def Token.withoutLayout (t : Token) : Token := { t with indent := none, spaceBefore := 0 }

namespace Lexer

section Runs

variable {σ : Type} [LineSource σ]

theorem blank_eq_of_leads {l : Lexer σ} {ds : List Diagnostic} {d : Cursor σ}
    (h : Blank.Leads l.options l.cursor ds d) :
    l.blank.diagnostics = ds ∧ l.blank.cursor = d :=
  (Blank.leads_scan l.options 0 l.cursor).unique h

/-- Blanks complain about the layout only. -/
theorem about_blank (l : Lexer σ) {message : Message} (hm : message.isLayout = false) :
    Diagnostic.about message l.blank.diagnostics = [] :=
  Diagnostic.about_eq_nil_of_class hm (Blank.leads_scan l.options 0 l.cursor).isLayout

theorem unread_next_lt {l : Lexer σ} {table : IdentTable}
    (h : (l.next table).token.kind ≠ .eof) :
    (l.next table).lexer.cursor.unread < l.cursor.unread := by
  have hrest : l.blank.cursor.rest ≠ [] := fun hnil => h ((kind_next_eq_eof_iff l table).2 hnil)
  have htoken := (TokenRead.route_scan l.options l.blank.cursor table hrest).unread_le
  have hfirst := Cursor.unread_advance_lt Nat.zero_lt_one hrest
  have hblank := (route_blank l).unread_le
  exact Nat.lt_of_le_of_lt htoken (Nat.lt_of_lt_of_le hfirst hblank)

/-- Induction along a whole run. -/
theorem runCases {motive : Lexer σ → IdentTable → Prop}
    (eof : ∀ l table, (l.next table).token.kind = .eof → motive l table)
    (token : ∀ l table, (l.next table).token.kind ≠ .eof →
      motive (l.next table).lexer (l.next table).table → motive l table)
    (l : Lexer σ) (table : IdentTable) : motive l table := by
  induction hn : l.cursor.unread using Nat.strongRecOn generalizing l table with
  | ind n ih =>
    by_cases h : (l.next table).token.kind = .eof
    · exact eof l table h
    · exact token l table h (ih _ (hn ▸ unread_next_lt h) _ _ rfl)

/-- More steps than bytes unread make no difference. -/
theorem steps_eq {l : Lexer σ} {count : Nat} (h : l.cursor.unread < count) (table : IdentTable) :
    l.steps count table = l.toEnd table := by
  rw [toEnd]
  induction l, table using runCases generalizing count with
  | eof l table heof =>
    obtain ⟨n, rfl⟩ := Nat.exists_eq_succ_of_ne_zero (Nat.ne_zero_of_lt h)
    rw [steps, steps, if_pos heof, if_pos heof]
  | token l table hne ih =>
    obtain ⟨n, rfl⟩ := Nat.exists_eq_succ_of_ne_zero (Nat.ne_zero_of_lt h)
    have hlt := unread_next_lt hne
    have hn : (l.next table).lexer.cursor.unread < n := by omega
    rw [steps, steps, if_neg hne, if_neg hne, ih hn, ih hlt]

theorem toEnd_of_eof {l : Lexer σ} {table : IdentTable}
    (h : (l.next table).token.kind = .eof) : l.toEnd table = [l.next table] := by
  rw [toEnd, steps, if_pos h]

theorem toEnd_of_ne_eof {l : Lexer σ} {table : IdentTable}
    (h : (l.next table).token.kind ≠ .eof) :
    l.toEnd table = l.next table :: (l.next table).lexer.toEnd (l.next table).table := by
  rw [toEnd, steps, if_neg h, steps_eq (unread_next_lt h)]

/-- The tokens of a whole run, the end of the input being the last one. -/
def tokens (l : Lexer σ) (table : IdentTable) : List Token :=
  (l.toEnd table).map LexerStep.token

/-- The diagnostics of a whole run. -/
def diagnostics (l : Lexer σ) (table : IdentTable) : List Diagnostic :=
  (l.toEnd table).flatMap LexerStep.diagnostics

/-- The tokens of a whole run, each with the offset it starts at. -/
def placedTokens (l : Lexer σ) (table : IdentTable) : List (Nat × Token) :=
  ((l :: (l.toEnd table).map LexerStep.lexer).map tokenOffset).zip (l.tokens table)

section Equations

variable {l : Lexer σ} {table : IdentTable}

theorem tokens_of_eof (h : (l.next table).token.kind = .eof) :
    l.tokens table = [(l.next table).token] := by
  rw [tokens, toEnd_of_eof h]
  rfl

theorem tokens_of_ne_eof (h : (l.next table).token.kind ≠ .eof) :
    l.tokens table =
      (l.next table).token :: (l.next table).lexer.tokens (l.next table).table := by
  rw [tokens, toEnd_of_ne_eof h]
  rfl

theorem diagnostics_of_eof (h : (l.next table).token.kind = .eof) :
    l.diagnostics table = (l.next table).diagnostics := by
  rw [diagnostics, toEnd_of_eof h, List.flatMap_singleton]

theorem diagnostics_of_ne_eof (h : (l.next table).token.kind ≠ .eof) :
    l.diagnostics table =
      (l.next table).diagnostics ++ (l.next table).lexer.diagnostics (l.next table).table := by
  rw [diagnostics, toEnd_of_ne_eof h, List.flatMap_cons]
  rfl

theorem placedTokens_of_eof (h : (l.next table).token.kind = .eof) :
    l.placedTokens table = [(l.tokenOffset, (l.next table).token)] := by
  rw [placedTokens, tokens_of_eof h, toEnd_of_eof h]
  rfl

theorem placedTokens_of_ne_eof (h : (l.next table).token.kind ≠ .eof) :
    l.placedTokens table =
      (l.tokenOffset, (l.next table).token) ::
        (l.next table).lexer.placedTokens (l.next table).table := by
  rw [placedTokens, tokens_of_ne_eof h, toEnd_of_ne_eof h]
  rfl

end Equations

end Runs

/-! ## Runs side by side -/

section InStep

variable {σ τ α : Type} [LineSource σ] [LineSource τ]

/-- A call keeps the relation, reads tokens of one kind, enters the same identifiers, and shows the
same on both sides. -/
def InStep (R : Lexer σ → Lexer τ → Prop) (view : LexerStep σ → α) (view' : LexerStep τ → α) :
    Prop :=
  ∀ l l', R l l' → ∀ table,
    R (l.next table).lexer (l'.next table).lexer ∧
      (l'.next table).token.kind = (l.next table).token.kind ∧
      (l'.next table).table = (l.next table).table ∧
      view' (l'.next table) = view (l.next table)

variable {R : Lexer σ → Lexer τ → Prop} {view : LexerStep σ → α} {view' : LexerStep τ → α}
  {l : Lexer σ} {l' : Lexer τ}

theorem InStep.toEnd_eq (h : InStep R view view') (hl : R l l') (table : IdentTable) :
    (l'.toEnd table).map view' = (l.toEnd table).map view := by
  induction l, table using runCases generalizing l' with
  | eof l table heof =>
    obtain ⟨-, hkind, -, hview⟩ := h l l' hl table
    rw [toEnd_of_eof heof, toEnd_of_eof (hkind.trans heof), List.map_singleton,
      List.map_singleton, hview]
  | token l table hne ih =>
    obtain ⟨hnext, hkind, htable, hview⟩ := h l l' hl table
    have hne' : (l'.next table).token.kind ≠ .eof := by rwa [hkind]
    rw [toEnd_of_ne_eof hne, toEnd_of_ne_eof hne', List.map_cons, List.map_cons, hview, htable,
      ih hnext]

theorem InStep.call_eq (h : InStep R view view') (hl : R l l') (table : IdentTable) (k : Nat) :
    view' (l'.call table k) = view (l.call table k) := by
  have hafter : R (l.after table k).1 (l'.after table k).1 ∧
      (l'.after table k).2 = (l.after table k).2 := by
    induction k with
    | zero => exact ⟨hl, rfl⟩
    | succ k ih =>
      obtain ⟨hnext, -, htable, -⟩ := h _ _ ih.1 (l.after table k).2
      rw [after_succ, after_succ, call, call, ih.2]
      exact ⟨hnext, htable⟩
  obtain ⟨-, -, -, hview⟩ := h _ _ hafter.1 (l.after table k).2
  rw [call, call, hafter.2]
  exact hview

end InStep

/-! ## Sources that read alike -/

section Transport

variable {σ τ : Type} [LineSource σ] [LineSource τ] (f : LineSource.Hom σ τ)

theorem toEnd_map (l : Lexer σ) (table : IdentTable) :
    (l.map f).toEnd table = (l.toEnd table).map (LexerStep.map f) := by
  induction l, table using runCases with
  | eof l table h =>
    have hmap : ((l.map f).next table).token.kind = .eof := by rw [next_map]; exact h
    rw [toEnd_of_eof h, toEnd_of_eof hmap, next_map]
    rfl
  | token l table h ih =>
    have hmap : ((l.map f).next table).token.kind ≠ .eof := by rw [next_map]; exact h
    rw [toEnd_of_ne_eof h, toEnd_of_ne_eof hmap, next_map, List.map_cons, ← ih]
    rfl

theorem tokens_map (l : Lexer σ) (table : IdentTable) :
    (l.map f).tokens table = l.tokens table := by
  rw [tokens, toEnd_map, List.map_map]
  rfl

theorem diagnostics_map (l : Lexer σ) (table : IdentTable) :
    (l.map f).diagnostics table = l.diagnostics table := by
  rw [diagnostics, toEnd_map, List.flatMap_map]
  rfl

theorem placedTokens_map (l : Lexer σ) (table : IdentTable) :
    (l.map f).placedTokens table = l.placedTokens table := by
  have hstarts : ((l.map f) :: ((l.map f).toEnd table).map LexerStep.lexer).map tokenOffset =
      (l :: (l.toEnd table).map LexerStep.lexer).map tokenOffset := by
    rw [toEnd_map, List.map_map]
    simp only [List.map_cons, tokenOffset_map, List.map_map, List.cons.injEq, true_and]
    exact List.map_congr_left fun step _ => tokenOffset_map f step.lexer
  rw [placedTokens, placedTokens, tokens_map, hstarts]

variable (file : FileId) (stream : ByteStream) (options : Options) (h : 0 < options.bufferSize)
  (table : IdentTable)

theorem tokens_ofStream :
    ((ofStream file stream options h).map SoundReader.toReader).tokens table =
      (ofText file options stream.bytes).tokens table := by
  rw [← map_toText_ofStream file stream options h, tokens_map, tokens_map]

theorem diagnostics_ofStream :
    ((ofStream file stream options h).map SoundReader.toReader).diagnostics table =
      (ofText file options stream.bytes).diagnostics table := by
  rw [← map_toText_ofStream file stream options h, diagnostics_map, diagnostics_map]

theorem placedTokens_ofStream :
    ((ofStream file stream options h).map SoundReader.toReader).placedTokens table =
      (ofText file options stream.bytes).placedTokens table := by
  rw [← map_toText_ofStream file stream options h, placedTokens_map, placedTokens_map]

end Transport

end Lexer
end Lexeme
