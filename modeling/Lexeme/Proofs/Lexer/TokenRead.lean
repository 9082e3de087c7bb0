import Lexeme.Proofs.Layout.Route
import Lexeme.Proofs.Literal.Extent
import Lexeme.Lexer.Basic

/-!
# Ways to read a token

The rest of a line decides how the token on it is read: there is nothing left, or a comment, a
string in triple quotes, a string on one line, or something else on one line. `TokenRead.Way`
lists the ways, and there is one equation for each. Whatever the way, a token takes the byte it
starts with.
-/

set_option autoImplicit false

namespace Lexeme

/-- The tokens that may go over lines. -/
def Kind.isMultiline : Kind → Bool
  | .strLit .triple | .strLit .generalizedTriple | .comment => true
  | _ => false

namespace StringOpening

theorem isMultiline_tripleForm (o : StringOpening) :
    (Kind.strLit o.tripleForm).isMultiline = true := by
  unfold tripleForm
  split
  · rfl
  · rfl

/-- A comment is no string. -/
theorem ofLine?_hash (before : Option UInt8) (rest : List UInt8) :
    ofLine? before (Byte.hash :: rest) = none := by
  rw [ofLine?, if_neg (by decide), if_neg]
  have hr : (Byte.toLower Byte.hash == Byte.ofChar 'r') = false := by decide
  rw [hr]
  exact Bool.false_ne_true

/-- A string that is triple-quoted has its opening quotes on the line. -/
theorem lead_add_three_le {o : StringOpening} {line : List UInt8} (h : o.isTriple line = true)
    (hlead : o.lead < line.length) : o.lead + 3 ≤ line.length := by
  have hquotes := (List.isPrefixOf_iff_prefix.1 h).length_le
  rw [List.length_drop] at hquotes
  change 3 ≤ line.length - o.lead at hquotes
  omega

end StringOpening

namespace TokenRead

variable {σ : Type} [LineSource σ]

/-- What an escape in a token at a cursor depends on. -/
def context (options : Options) (c : Cursor σ) : Escape.Context :=
  ⟨options.legacyNewlineEscape, false, c.ending.byte⟩

inductive Way (c : Cursor σ) : Prop
  | nil (h : c.rest = [])
  | comment (rest : List UInt8) (h : c.rest = Byte.hash :: rest)
  | triple (o : StringOpening) (ho : StringOpening.ofLine? c.before? c.rest = some o)
      (ht : o.isTriple c.rest = true)
  | string (o : StringOpening) (ho : StringOpening.ofLine? c.before? c.rest = some o)
      (ht : o.isTriple c.rest = false)
  | bytes (b : UInt8) (rest : List UInt8) (h : c.rest = b :: rest) (hb : b ≠ Byte.hash)
      (ho : StringOpening.ofLine? c.before? c.rest = none)

theorem way (c : Cursor σ) : Way c := by
  cases hrest : c.rest with
  | nil => exact .nil hrest
  | cons b rest =>
    by_cases hb : b = Byte.hash
    · subst hb
      exact .comment rest hrest
    · cases ho : StringOpening.ofLine? c.before? c.rest with
      | none => exact .bytes b rest hrest hb ho
      | some o =>
        cases ht : o.isTriple c.rest with
        | true => exact .triple o ho ht
        | false => exact .string o ho ht

section Equations

variable (options : Options) {c : Cursor σ} {o : StringOpening}

theorem scan_of_nil (h : c.rest = []) (table : IdentTable) :
    scan options c table = ofEnd c table := by
  unfold scan
  simp only [h]

theorem scan_of_hash {rest : List UInt8} (h : c.rest = Byte.hash :: rest) (table : IdentTable) :
    scan options c table = ofComment options c table := by
  unfold scan
  simp only [h]
  exact if_pos (by decide)

theorem exists_cons_of_ofLine? (ho : StringOpening.ofLine? c.before? c.rest = some o) :
    ∃ b rest, c.rest = b :: rest ∧ b ≠ Byte.hash := by
  cases hrest : c.rest with
  | nil =>
    rw [hrest] at ho
    cases ho
  | cons b rest =>
    refine ⟨b, rest, rfl, ?_⟩
    rintro rfl
    rw [hrest, StringOpening.ofLine?_hash] at ho
    cases ho

theorem scan_of_triple (ho : StringOpening.ofLine? c.before? c.rest = some o)
    (ht : o.isTriple c.rest = true) (table : IdentTable) :
    scan options c table = ofTriple options o c table := by
  obtain ⟨b, rest, hrest, hb⟩ := exists_cons_of_ofLine? ho
  rw [hrest] at ho ht
  unfold scan
  simp only [hrest]
  rw [if_neg (by simpa using hb)]
  simp only [ho]
  exact if_pos ht

theorem scan_of_string (ho : StringOpening.ofLine? c.before? c.rest = some o)
    (ht : o.isTriple c.rest = false) (table : IdentTable) :
    scan options c table = ofPiece (.ofString (context options c) o c.rest) c table := by
  obtain ⟨b, rest, hrest, hb⟩ := exists_cons_of_ofLine? ho
  rw [hrest] at ho ht
  unfold scan
  simp only [hrest]
  rw [if_neg (by simpa using hb)]
  simp only [ho]
  exact if_neg (by simp [ht])

theorem scan_of_bytes {b : UInt8} {rest : List UInt8} (h : c.rest = b :: rest)
    (hb : b ≠ Byte.hash) (ho : StringOpening.ofLine? c.before? c.rest = none)
    (table : IdentTable) :
    scan options c table = ofPiece (.ofBytes (context options c) b rest) c table := by
  rw [h] at ho
  unfold scan
  simp only [h]
  rw [if_neg (by simpa using hb)]
  simp only [ho]
  rfl

end Equations

variable (options : Options) (c : Cursor σ) (table : IdentTable)

/-- Only where nothing is left and at a comment, a token is the end of the input or a comment. -/
theorem isPiece_scan {b : UInt8} {rest : List UInt8} (hrest : c.rest = b :: rest)
    (hb : b ≠ Byte.hash) : (scan options c table).token.kind.isPiece = true := by
  cases way c with
  | nil h =>
    rw [h] at hrest
    cases hrest
  | comment rest' h =>
    rw [h] at hrest
    exact absurd (List.cons.inj hrest).1.symm hb
  | triple o ho ht =>
    rw [scan_of_triple options ho ht]
    rfl
  | string o ho ht =>
    rw [scan_of_string options ho ht]
    exact Piece.isPiece_toToken (Piece.fits_ofString (context options c) ho).isPiece table
  | bytes b rest h hb ho =>
    rw [scan_of_bytes options h hb ho]
    exact Piece.isPiece_toToken (Piece.fits_ofBytes (context options c) b rest).isPiece table

/-- The opening of a string tells its form. -/
theorem exists_opening {form : StringForm}
    (h : (scan options c table).token.kind = .strLit form) :
    ∃ o, StringOpening.ofLine? c.before? c.rest = some o ∧
      form = if o.isTriple c.rest then o.tripleForm else o.form := by
  cases way c with
  | nil hrest => rw [scan_of_nil options hrest] at h; cases h
  | comment rest hrest => rw [scan_of_hash options hrest] at h; cases h
  | triple o ho ht =>
    rw [scan_of_triple options ho ht] at h
    exact ⟨o, ho, by rw [if_pos ht]; exact (Kind.strLit.inj h).symm⟩
  | string o ho ht =>
    rw [scan_of_string options ho ht] at h
    exact ⟨o, ho, by rw [ht]; exact (Kind.strLit.inj h).symm⟩
  | bytes b rest hrest hb ho =>
    rw [scan_of_bytes options hrest hb ho, ofPiece] at h
    have hcharacter := Piece.ofBytes_of_isQuoted (congrArg Kind.isQuoted h)
    rw [hcharacter] at h
    cases h

theorem scan_of_strLit_plain (h : (scan options c table).token.kind = .strLit .plain) :
    ∃ rest, c.rest = Byte.quote :: rest ∧ scan options c table =
      ofPiece (.ofString (context options c) ⟨.plain, 0⟩ (Byte.quote :: rest)) c table := by
  obtain ⟨o, ho, hform⟩ := exists_opening options c table h
  have htriple : o.isTriple c.rest = false := by
    rw [Bool.eq_false_iff]
    intro htriple
    rw [if_pos htriple, StringOpening.tripleForm] at hform
    split at hform <;> cases hform
  rw [htriple, if_neg Bool.false_ne_true] at hform
  have hread := scan_of_string options ho htriple table
  obtain ⟨rest, hrest, rfl⟩ | ⟨b, rest, -, -, rfl⟩ := StringOpening.ofLine?_cases ho
  · dsimp only at hform
    rw [← hform, hrest] at hread
    exact ⟨rest, hrest, hread⟩
  · cases hform

theorem scan_of_charLit (h : (scan options c table).token.kind = .charLit) :
    ∃ b rest, c.rest = b :: rest ∧
      scan options c table = ofPiece (.ofCharacter (context options c) (b :: rest)) c table := by
  cases way c with
  | nil hrest => rw [scan_of_nil options hrest] at h; cases h
  | comment rest hrest => rw [scan_of_hash options hrest] at h; cases h
  | triple o ho ht => rw [scan_of_triple options ho ht] at h; cases h
  | string o ho ht => rw [scan_of_string options ho ht] at h; cases h
  | bytes b rest hrest hb ho =>
    have hread := scan_of_bytes options hrest hb ho table
    rw [hread, ofPiece] at h
    have hcharacter := Piece.ofBytes_of_isQuoted (congrArg Kind.isQuoted h)
    rw [hcharacter] at hread
    exact ⟨b, rest, hrest, hread⟩

theorem kind_scan_eq_eof_iff : (scan options c table).token.kind = .eof ↔ c.rest = [] := by
  constructor
  · intro hkind
    cases hrest : c.rest with
    | nil => rfl
    | cons b rest =>
      by_cases hb : b = Byte.hash
      · subst hb
        rw [scan_of_hash options hrest] at hkind
        cases hkind
      · have hpiece := isPiece_scan options c table hrest hb
        rw [hkind] at hpiece
        cases hpiece
  · intro hrest
    rw [scan_of_nil options hrest]
    rfl

theorem kind_scan_eq_comment_iff :
    (scan options c table).token.kind = .comment ↔ c.rest.head? = some Byte.hash := by
  constructor
  · intro hkind
    cases hrest : c.rest with
    | nil =>
      rw [scan_of_nil options hrest] at hkind
      cases hkind
    | cons b rest =>
      by_cases hb : b = Byte.hash
      · rw [hb, List.head?_cons]
      · have hpiece := isPiece_scan options c table hrest hb
        rw [hkind] at hpiece
        cases hpiece
  · intro hhead
    obtain ⟨rest, hrest⟩ := List.head?_eq_some_iff.1 hhead
    rw [scan_of_hash options hrest]
    rfl

/-- Behind a token that does not go over lines, the cursor is on the same line. -/
theorem line_scan_eq (h : (scan options c table).token.kind.isMultiline = false) :
    (scan options c table).cursor.line = c.line := by
  cases way c with
  | nil hrest => rw [scan_of_nil options hrest]; rfl
  | comment rest hrest =>
    rw [scan_of_hash options hrest] at h
    cases h
  | triple o ho ht =>
    rw [scan_of_triple options ho ht] at h
    change (Kind.strLit o.tripleForm).isMultiline = false at h
    rw [o.isMultiline_tripleForm] at h
    cases h
  | string o ho ht => rw [scan_of_string options ho ht]; rfl
  | bytes b rest hrest hb ho => rw [scan_of_bytes options hrest hb ho]; rfl

open Cursor

/-- A token takes the byte it starts with. -/
theorem route_scan (hrest : c.rest ≠ []) : Route (c.advance 1) (scan options c table).cursor := by
  cases way c with
  | nil h => exact absurd h hrest
  | comment rest h =>
    rw [scan_of_hash options h]
    exact Comment.route_scan options.maxLineLength hrest
  | triple o ho ht =>
    rw [scan_of_triple options ho ht]
    have hlen := StringOpening.lead_add_three_le ht (StringOpening.lead_lt ho)
    have hopen := route_between (Nat.succ_pos _) hlen
    exact hopen.trans (TripleString.route_scan options.maxLineLength _)
  | string o ho ht =>
    have hfits := Piece.fits_ofString (context options c) ho
    rw [scan_of_string options ho ht]
    exact route_between hfits.pos hfits.le
  | bytes b rest h hb ho =>
    have hfits := Piece.fits_ofBytes (context options c) b rest
    rw [scan_of_bytes options h hb ho]
    rw [← h] at hfits
    exact route_between hfits.pos hfits.le

end TokenRead
end Lexeme
