import Lexeme.Lexer.Piece

/-!
# Literals seen through a view of findings

Two contexts may decode every escape to the same bytes and of the same length, and differ only in
what they complain about. Then whatever holds escapes differs in complaints only: a view that does
not tell the escapes' findings apart does not tell those of strings, characters and pieces apart.
-/

set_option autoImplicit false

namespace Lexeme

/-- What is looked at of findings, wherever they stand. -/
structure FindingView where
  view : List Finding → List Finding
  append (fs gs : List Finding) : view (fs ++ gs) = view fs ++ view gs
  shift (n : Nat) (fs : List Finding) :
    view (fs.map (Finding.shift n)) = (view fs).map (Finding.shift n)

namespace FindingView

/-- Escapes in the two contexts look alike. -/
def Agree (v : FindingView) (ctx ctx' : Escape.Context) : Prop :=
  ∀ bytes, (Escape.scan ctx' bytes).bytes = (Escape.scan ctx bytes).bytes ∧
    (Escape.scan ctx' bytes).length = (Escape.scan ctx bytes).length ∧
    v.view (Escape.scan ctx' bytes).findings = v.view (Escape.scan ctx bytes).findings

def quoted (v : FindingView) (q : Quoted) : Quoted := { q with findings := v.view q.findings }

def piece (v : FindingView) (p : Piece) : Piece := { p with findings := v.view p.findings }

section Pieces

variable {v : FindingView} {ctx ctx' : Escape.Context}

theorem quoted_prepend (bytes : List UInt8) (findings : List Finding) (q : Quoted) :
    v.quoted (q.prepend bytes findings) = (v.quoted q).prepend bytes (v.view findings) := by
  simp only [quoted, Quoted.prepend, v.append]

theorem Agree.plain (h : v.Agree ctx ctx') (offset : Nat) (bytes : List UInt8) :
    v.quoted (Quoted.plain ctx' offset bytes) = v.quoted (Quoted.plain ctx offset bytes) := by
  fun_induction Quoted.plain ctx offset bytes with
  | case1 offset => rw [Quoted.plain]
  | case2 offset b rest hq => rw [Quoted.plain, if_pos hq]
  | case3 offset b rest hq hb e ih =>
    obtain ⟨hbytes, hlength, hfindings⟩ := h rest
    rw [Quoted.plain, if_neg hq, if_pos hb]
    simp only [quoted_prepend, v.shift, hbytes, hlength, hfindings]
    rw [ih]
  | case4 offset b rest hq hb ih =>
    rw [Quoted.plain, if_neg hq, if_neg hb, quoted_prepend, quoted_prepend, ih]

theorem Agree.characterContents (h : v.Agree ctx ctx') (bytes : List UInt8) :
    v.quoted (Quoted.characterContents ctx' bytes) =
      v.quoted (Quoted.characterContents ctx bytes) := by
  cases bytes with
  | nil => rfl
  | cons b rest =>
    rw [Quoted.characterContents, Quoted.characterContents]
    split
    · rfl
    · split
      · rfl
      · split
        · obtain ⟨hbytes, hlength, hfindings⟩ := h rest
          simp only [quoted, v.shift, hbytes, hlength, hfindings]
        · rfl

theorem Agree.character (h : v.Agree ctx ctx') (bytes : List UInt8) :
    v.quoted (Quoted.character ctx' bytes) = v.quoted (Quoted.character ctx bytes) := by
  have hcontents := h.characterContents bytes
  simp only [quoted, Quoted.mk.injEq] at hcontents
  obtain ⟨hbytes, hstop, hfindings⟩ := hcontents
  unfold Quoted.character
  dsimp only
  rw [hstop]
  split
  · simp only [quoted, hbytes, hfindings]
  · simp only [quoted, v.append, hbytes, hfindings]

theorem Agree.ofString (h : v.Agree ctx ctx') (o : StringOpening) (line : List UInt8) :
    v.piece (.ofString ctx' o line) = v.piece (.ofString ctx o line) := by
  unfold Piece.ofString
  dsimp only
  split
  · have hplain := h.plain 1 (line.drop (o.lead + 1))
    simp only [quoted, Quoted.mk.injEq] at hplain
    obtain ⟨hbytes, hstop, hfindings⟩ := hplain
    simp only [piece, v.shift, hbytes, hstop, hfindings]
  · rfl

theorem Agree.ofCharacter
    (h : v.Agree { ctx with inCharacter := true } { ctx' with inCharacter := true })
    (line : List UInt8) : v.piece (.ofCharacter ctx' line) = v.piece (.ofCharacter ctx line) := by
  have hcharacter := h.character (line.drop 1)
  simp only [quoted, Quoted.mk.injEq] at hcharacter
  obtain ⟨hbytes, hstop, hfindings⟩ := hcharacter
  simp only [Piece.ofCharacter, piece, hbytes, hstop, hfindings]

/-- Strings apart, only characters have escapes. -/
theorem Agree.ofBytes
    (h : v.Agree { ctx with inCharacter := true } { ctx' with inCharacter := true })
    (b : UInt8) (rest : List UInt8) :
    v.piece (.ofBytes ctx' b rest) = v.piece (.ofBytes ctx b rest) := by
  unfold Piece.ofBytes
  dsimp only
  split
  · rfl
  · split
    · rfl
    · split
      · rfl
      · split
        · rfl
        · split
          · exact h.ofCharacter (b :: rest)
          · rfl

/-- Pieces that look alike make the same tokens. -/
theorem of_piece_eq {p p' : Piece} (h : v.piece p' = v.piece p) (table : IdentTable) :
    p'.toToken table = p.toToken table ∧ p'.length = p.length ∧
      v.view p'.findings = v.view p.findings := by
  change (v.piece p').toToken table = (v.piece p).toToken table ∧
    (v.piece p').length = (v.piece p).length ∧ (v.piece p').findings = (v.piece p).findings
  rw [h]
  exact ⟨rfl, rfl, rfl⟩

end Pieces
end FindingView
end Lexeme
