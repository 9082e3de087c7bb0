import Lexeme.Token.Precedence

/-!
# Spaces outweigh levels

Every operator is on a level from 1 to 10, whatever it is written with, and a space is worth ten.
So with strong spaces the operator with fewer spaces in front, of which nine count, binds tighter,
and the levels only decide between operators with as many.
-/

set_option autoImplicit false

namespace Lexeme

/-- The tokens that bind as operators do: a plain operator, whatever its text, and the keywords and
marks with a level of their own. -/
def Token.IsOperator (t : Token) : Prop :=
  t.kind = .operator ∨ t.kind.fixedPrecedence?.isSome = true

instance (t : Token) : Decidable t.IsOperator := inferInstanceAs (Decidable (_ ∨ _))

/-! ## Levels -/

namespace Precedence

/-- The levels of operators. -/
def IsLevel (level : Nat) : Prop := 1 ≤ level ∧ level ≤ 10

instance (level : Nat) : Decidable (IsLevel level) := inferInstanceAs (Decidable (_ ∧ _))

theorem isLevel_levelOf (first : UInt8) : IsLevel (levelOf first).1 := by
  rw [levelOf]
  repeat' split
  all_goals decide

theorem isLevel_ofBytes (bytes : List UInt8) : IsLevel (ofBytes bytes) := by
  cases bytes with
  | nil => decide
  | cons first rest =>
    simp only [ofBytes]
    split
    · decide
    · split
      · decide
      · exact isLevel_levelOf first

theorem isLevel_ofText (text : String) : IsLevel (ofText text) := isLevel_ofBytes _

end Precedence

theorem Kind.isLevel_fixedPrecedence {kind : Kind} {level : Nat}
    (h : kind.fixedPrecedence? = some level) : Precedence.IsLevel level := by
  cases kind with
  | keyword k =>
    simp only [fixedPrecedence?] at h
    repeat' split at h
    all_goals cases h <;> decide
  | mark m =>
    cases m <;> cases h
    decide
  | _ => cases h

namespace Token

variable {t u : Token}

theorem level_eq (t : Token) : t.level? =
    if t.kind = .operator then some (Precedence.ofText t.identText)
    else t.kind.fixedPrecedence? := by
  cases hkind : t.kind <;> simp [level?, hkind]

theorem IsOperator.level (h : t.IsOperator) :
    ∃ level, t.level? = some level ∧ Precedence.IsLevel level := by
  rw [level_eq]
  split
  case isTrue => exact ⟨_, rfl, Precedence.isLevel_ofText _⟩
  case isFalse hkind =>
    obtain ⟨level, hlevel⟩ := Option.isSome_iff_exists.mp (h.resolve_left hkind)
    exact ⟨level, hlevel, Kind.isLevel_fixedPrecedence hlevel⟩

theorem level_eq_none (h : ¬ t.IsOperator) : t.level? = none := by
  have ⟨hkind, hfixed⟩ := not_or.mp h
  rw [level_eq, if_neg hkind]
  simpa using hfixed

/-! ## Strengths -/

/-- Strong spaces leave an operator its level and put it on one of ten steps, ten apart. -/
theorem IsOperator.precedence (h : t.IsOperator) : ∃ level, Precedence.IsLevel level ∧
    t.precedence false = level ∧
    t.precedence true = 100 - 10 * (min t.spaceBefore 9 : Nat) + level := by
  obtain ⟨level, heq, hlevel⟩ := h.level
  refine ⟨level, hlevel, ?_, ?_⟩ <;> simp [Token.precedence, heq]

theorem precedence_of_not_isOperator (h : ¬ t.IsOperator) (strongSpaces : Bool) :
    t.precedence strongSpaces = Precedence.notOperator := by
  rw [precedence, level_eq_none h]

/-- With strong spaces the spaces decide, and between operators with as many spaces the levels. -/
theorem IsOperator.precedence_lt (ht : t.IsOperator) (hu : u.IsOperator) :
    u.precedence true < t.precedence true ↔
      min t.spaceBefore 9 < min u.spaceBefore 9 ∨
      min t.spaceBefore 9 = min u.spaceBefore 9 ∧ u.precedence false < t.precedence false := by
  obtain ⟨level, hlevel, hfalse, htrue⟩ := ht.precedence
  obtain ⟨level', hlevel', hfalse', htrue'⟩ := hu.precedence
  have hnear : (level : Int) < level' + 10 ∧ (level' : Int) < level + 10 := by
    obtain ⟨hlow, hhigh⟩ := hlevel
    obtain ⟨hlow', hhigh'⟩ := hlevel'
    omega
  rw [hfalse, htrue, hfalse', htrue']
  generalize min t.spaceBefore 9 = spaces
  generalize min u.spaceBefore 9 = spaces'
  omega

theorem IsOperator.notOperator_lt (h : t.IsOperator) (strongSpaces : Bool) :
    Precedence.notOperator < t.precedence strongSpaces := by
  obtain ⟨level, hlevel, hfalse, htrue⟩ := h.precedence
  have hspaces : min t.spaceBefore 9 ≤ 9 := Nat.min_le_right _ _
  rw [Precedence.notOperator]
  cases strongSpaces with
  | false => rw [hfalse]; omega
  | true => rw [htrue]; omega

/-- The level of every operator text is from 1 to 10. With strong spaces, operators are compared by
the spaces in front of them, of which nine count, and then by their levels. With and without strong
spaces, the tokens that bind tighter than a token that is no operator are the operators. -/
theorem precedence_lexicographic :
    (∀ text : String, 1 ≤ Precedence.ofText text ∧ Precedence.ofText text ≤ 10) ∧
    (∀ t u : Token, t.IsOperator → u.IsOperator →
      (u.precedence true < t.precedence true ↔
        min t.spaceBefore 9 < min u.spaceBefore 9 ∨
        min t.spaceBefore 9 = min u.spaceBefore 9 ∧ u.precedence false < t.precedence false)) ∧
    ∀ (t : Token) (strongSpaces : Bool),
      (t.IsOperator → Precedence.notOperator < t.precedence strongSpaces) ∧
      (¬ t.IsOperator → t.precedence strongSpaces = Precedence.notOperator) :=
  ⟨Precedence.isLevel_ofText, fun _ _ ht hu => ht.precedence_lt hu,
    fun _ strongSpaces => ⟨fun h => h.notOperator_lt strongSpaces,
      fun h => precedence_of_not_isOperator h strongSpaces⟩⟩

/-- A product with two spaces in front of `*`. -/
def looseProduct : Token :=
  { kind := .operator, ident := some { id := 200, name := "*" }, spaceBefore := 2 }

/-- A conjunction with one space in front of `and`. -/
def tightConjunction : Token := { kind := .keyword .kwAnd, spaceBefore := 1 }

/-- The conjunction is on a lower level than the product and binds tighter with strong spaces. -/
theorem precedence_lexicographic_tightConjunction :
    looseProduct.IsOperator ∧ tightConjunction.IsOperator ∧ ¬ blank.IsOperator ∧
    tightConjunction.precedence false < looseProduct.precedence false ∧
    looseProduct.precedence true < tightConjunction.precedence true ∧
    Precedence.notOperator < looseProduct.precedence true ∧
    blank.precedence true = Precedence.notOperator := by
  have hproduct : looseProduct.IsOperator := by decide
  have hconjunction : tightConjunction.IsOperator := by decide
  have hblank : ¬ blank.IsOperator := by decide
  obtain ⟨-, hlt, hstrength⟩ := precedence_lexicographic
  refine ⟨hproduct, hconjunction, hblank, by decide +kernel, ?_,
    (hstrength looseProduct true).1 hproduct, (hstrength blank true).2 hblank⟩
  exact (hlt tightConjunction looseProduct hconjunction hproduct).mpr (.inl (by decide))

end Token
end Lexeme
