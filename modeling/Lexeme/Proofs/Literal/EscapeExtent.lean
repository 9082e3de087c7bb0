import Mathlib.Data.List.TakeWhile
import Lexeme.Proofs.Literal.Extent

/-!
# What an escape leaves alone

An escape may be malformed in many ways: digits are missing, a brace is not closed, a code point is
too large. Whatever it makes of them, it complains about the escape only, and but for the byte right
behind the backslash it takes no quote and no apostrophe, so that the literal it stands in is closed
where it seems to be.
-/

set_option autoImplicit false

namespace Lexeme

/-- Whether a message is about an escape. -/
def Message.isEscape : Message → Bool
  | .escapeNotAllowedInChar _ | .expectedHexDigit _ | .emptyCodePoint | .codePointTooLarge _
  | .invalidCharConstant | .octalEscape => true
  | _ => false

namespace Escape

variable (stop : UInt8)

/-! ## Complaints -/

theorem isEscape_hexDigits (count offset value : Nat) (bytes : List UInt8) :
    ∀ f ∈ (hexDigits stop count offset value bytes).findings, f.message.isEscape = true := by
  fun_induction hexDigits stop count offset value bytes with
  | case1 offset value bytes => exact List.forall_mem_nil _
  | case2 count offset value ih => exact List.forall_mem_cons.2 ⟨rfl, ih⟩
  | case3 count offset value b rest digit hd ih => exact ih
  | case4 count offset value b rest hd hq ih => exact List.forall_mem_cons.2 ⟨rfl, ih⟩
  | case5 count offset value b rest hd hq ih => exact List.forall_mem_cons.2 ⟨rfl, ih⟩

theorem isEscape_bracedDigits (offset value : Nat) (bytes : List UInt8) :
    ∀ f ∈ (bracedDigits stop offset value bytes).findings, f.message.isEscape = true := by
  fun_induction bracedDigits stop offset value bytes with
  | case1 offset value => exact List.forall_mem_singleton.2 rfl
  | case2 offset value b rest hb => exact List.forall_mem_nil _
  | case3 offset value b rest hb hq => exact List.forall_mem_singleton.2 rfl
  | case4 offset value b rest hb hq digit hd ih => exact ih
  | case5 offset value b rest hb hq hd ih => exact List.forall_mem_cons.2 ⟨rfl, ih⟩

theorem isEscape_braced (body : List UInt8) :
    ∀ f ∈ (braced stop body).findings, f.message.isEscape = true := by
  have hdigits := isEscape_bracedDigits stop 0 0 body
  unfold braced
  dsimp only
  split
  · exact List.forall_mem_append.2 ⟨hdigits, List.forall_mem_singleton.2 rfl⟩
  · refine List.forall_mem_append.2 ⟨hdigits, ?_⟩
    split
    · exact List.forall_mem_singleton.2 rfl
    · exact List.forall_mem_nil _

theorem isEscape_codePoint (rest : List UInt8) :
    ∀ f ∈ (codePoint stop rest).findings, f.message.isEscape = true := by
  unfold codePoint
  split
  · exact List.forall_mem_map.2 (isEscape_braced stop _)
  · exact isEscape_hexDigits stop 4 1 0 _

theorem isEscape_decimalByte (bytes : List UInt8) :
    ∀ f ∈ (decimalByte bytes).findings, f.message.isEscape = true := by
  rw [decimalByte]
  split
  · dsimp only
    split
    · exact List.forall_mem_singleton.2 rfl
    · exact List.forall_mem_nil _
  · refine List.forall_mem_append.2 ⟨?_, List.forall_mem_singleton.2 rfl⟩
    split
    · exact List.forall_mem_singleton.2 rfl
    · exact List.forall_mem_nil _

/-- An escape is all that an escape complains about. -/
theorem isEscape_scan (ctx : Context) (bytes : List UInt8) :
    ∀ f ∈ (scan ctx bytes).findings, f.message.isEscape = true := by
  have hrefused : ∀ letter : Char, ∀ f ∈
      (if ctx.inCharacter then [⟨0, .escapeNotAllowedInChar letter⟩] else [] : List Finding),
      f.message.isEscape = true := by
    intro letter
    split
    · exact List.forall_mem_singleton.2 rfl
    · exact List.forall_mem_nil _
  cases bytes with
  | nil => exact List.forall_mem_singleton.2 rfl
  | cons b rest =>
    rw [scan]
    dsimp only
    split
    · exact List.forall_mem_nil _
    · split
      · dsimp only
        split
        · exact hrefused 'n'
        · exact List.forall_mem_nil _
      · split
        · exact hrefused 'p'
        · split
          · exact isEscape_hexDigits ctx.stop 2 1 0 rest
          · split
            · exact List.forall_mem_append.2 ⟨hrefused 'u', isEscape_codePoint ctx.stop rest⟩
            · split
              · exact isEscape_decimalByte (b :: rest)
              · exact List.forall_mem_singleton.2 rfl

/-! ## Quotes and apostrophes -/

/-- The first `n` bytes may all be taken: none of them can close a literal. -/
def Spares (n : Nat) (bytes : List UInt8) : Prop := ∀ b ∈ bytes.take n, closesLiteral b = false

theorem spares_zero (bytes : List UInt8) : Spares 0 bytes := fun _ => nofun

theorem Spares.cons {n : Nat} {bytes : List UInt8} (h : Spares n bytes) {b : UInt8}
    (hb : closesLiteral b = false) : Spares (1 + n) (b :: bytes) := by
  rw [Spares, Nat.add_comm, List.take_succ_cons]
  exact List.forall_mem_cons.2 ⟨hb, h⟩

theorem closesLiteral_of_hexValue? {b : UInt8} {digit : Nat} (h : Byte.hexValue? b = some digit) :
    closesLiteral b = false := by
  rw [closesLiteral, Bool.or_eq_false_iff, beq_eq_false_iff_ne, beq_eq_false_iff_ne]
  constructor
  · rintro rfl
    cases h
  · rintro rfl
    cases h

theorem closesLiteral_of_isDigit {b : UInt8} (h : Byte.isDigit b = true) :
    closesLiteral b = false :=
  closesLiteral_of_hexValue? (if_pos h)

theorem spares_hexDigits (count offset value : Nat) (bytes : List UInt8) :
    ∃ n, (hexDigits stop count offset value bytes).stop = offset + n ∧ Spares n bytes := by
  fun_induction hexDigits stop count offset value bytes with
  | case1 offset value bytes => exact ⟨0, rfl, spares_zero _⟩
  | case2 count offset value ih => exact ih
  | case3 count offset value b rest digit hd ih =>
    obtain ⟨n, hstop, hspares⟩ := ih
    exact ⟨1 + n, hstop.trans (Nat.add_assoc _ _ _), hspares.cons (closesLiteral_of_hexValue? hd)⟩
  | case4 count offset value b rest hd hq ih => exact ih
  | case5 count offset value b rest hd hq ih =>
    obtain ⟨n, hstop, hspares⟩ := ih
    exact ⟨1 + n, hstop.trans (Nat.add_assoc _ _ _), hspares.cons (Bool.eq_false_iff.2 hq)⟩

theorem spares_bracedDigits (offset value : Nat) (bytes : List UInt8) :
    ∃ n, (bracedDigits stop offset value bytes).stop = offset + n ∧ Spares n bytes := by
  fun_induction bracedDigits stop offset value bytes with
  | case1 offset value => exact ⟨0, rfl, spares_zero _⟩
  | case2 offset value b rest hb => exact ⟨0, rfl, spares_zero _⟩
  | case3 offset value b rest hb hq => exact ⟨0, rfl, spares_zero _⟩
  | case4 offset value b rest hb hq digit hd ih =>
    obtain ⟨n, hstop, hspares⟩ := ih
    exact ⟨1 + n, hstop.trans (Nat.add_assoc _ _ _), hspares.cons (Bool.eq_false_iff.2 hq)⟩
  | case5 offset value b rest hb hq hd ih =>
    obtain ⟨n, hstop, hspares⟩ := ih
    exact ⟨1 + n, hstop.trans (Nat.add_assoc _ _ _), hspares.cons (Bool.eq_false_iff.2 hq)⟩

/-- The closing brace is taken too. -/
theorem spares_braced (body : List UInt8) : Spares (braced stop body).length body := by
  obtain ⟨n, hstop, hspares⟩ := spares_bracedDigits stop 0 0 body
  rw [Nat.zero_add] at hstop
  have hlen : (braced stop body).length =
      n + if (body.drop n).head? = some Byte.braceRight then 1 else 0 := by
    rw [braced, hstop]
    dsimp only
    split
    · rfl
    · rfl
  rw [hlen]
  split
  · rename_i hbrace
    rw [List.head?_drop] at hbrace
    rw [Spares, List.take_add_one, hbrace]
    exact List.forall_mem_append.2 ⟨hspares, List.forall_mem_singleton.2 (by decide)⟩
  · exact hspares

theorem spares_codePoint (rest : List UInt8) : Spares ((codePoint stop rest).length - 1) rest := by
  unfold codePoint
  split
  · rename_i body
    have hlen : 2 + (braced stop body).length - 1 = 1 + (braced stop body).length := by omega
    dsimp only
    rw [hlen]
    exact (spares_braced stop body).cons (by decide)
  · obtain ⟨n, hstop, hspares⟩ := spares_hexDigits stop 4 1 0 rest
    dsimp only
    rw [hstop, Nat.add_sub_cancel_left]
    exact hspares

theorem spares_decimalByte (b : UInt8) (rest : List UInt8) :
    Spares ((decimalByte (b :: rest)).length - 1) rest := by
  have hlen : (decimalByte (b :: rest)).length =
      (((b :: rest).take 3).takeWhile Byte.isDigit).length := by
    unfold decimalByte
    dsimp only
    split
    · rfl
    · rfl
  have hprefix : ((b :: rest).take 3).takeWhile Byte.isDigit <+: b :: rest :=
    (List.takeWhile_prefix _).trans (List.take_prefix _ _)
  have htake := List.prefix_iff_eq_take.1 hprefix
  rw [← hlen] at htake
  intro c hc
  have hmem : c ∈ (b :: rest).take (decimalByte (b :: rest)).length := by
    cases hn : (decimalByte (b :: rest)).length with
    | zero =>
      rw [hn] at hc
      exact absurd hc List.not_mem_nil
    | succ n =>
      rw [hn] at hc
      exact List.mem_cons_of_mem _ hc
  rw [← htake] at hmem
  exact closesLiteral_of_isDigit (List.mem_takeWhile_imp hmem)

/-- But for its first byte, an escape takes nothing that may close the literal. -/
theorem spares_scan (ctx : Context) (b : UInt8) (rest : List UInt8) :
    Spares ((scan ctx (b :: rest)).length - 1) rest := by
  rw [scan]
  dsimp only
  split
  · exact spares_zero rest
  · split
    · exact spares_zero rest
    · split
      · exact spares_zero rest
      · split
        · obtain ⟨n, hstop, hspares⟩ := spares_hexDigits ctx.stop 2 1 0 rest
          rw [hexByte]
          dsimp only
          rw [hstop, Nat.add_sub_cancel_left]
          exact hspares
        · split
          · exact spares_codePoint ctx.stop rest
          · split
            · exact spares_decimalByte b rest
            · exact spares_zero rest

end Escape
end Lexeme
