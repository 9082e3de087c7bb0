import Lexeme.Text.Utf8

/-!
# Well-formed bytes survive being read as text

Bytes without an ill-formed part are the UTF-8 form of the text they are shown as. A lead byte
opens a sequence, every further byte lies in the range that is asked for, and the ranges keep the
code point within those that have a form of just this length.
-/

set_option autoImplicit false

namespace Lexeme.Utf8

/-! ## Sequences -/

section Pending

variable {p : Pending} {bytes : List UInt8}

/-- A sequence is continued where no ill-formed part is to be shown. -/
theorem exists_continuation (h : (decodeFrom (some p) bytes).all Option.isSome = true) :
    ∃ b rest, bytes = b :: rest ∧ p.low.toNat ≤ b.toNat ∧ b.toNat ≤ p.high.toNat := by
  cases bytes with
  | nil => cases h
  | cons b rest =>
    refine ⟨b, rest, rfl, ?_⟩
    rw [decodeFrom, step, Pending.step] at h
    split at h
    · rename_i hrange
      rw [Bool.and_eq_true, decide_eq_true_eq, decide_eq_true_eq] at hrange
      exact hrange
    · simp at h

theorem Pending.step_of_range {b : UInt8} (hlow : p.low.toNat ≤ b.toNat)
    (hhigh : b.toNat ≤ p.high.toNat) :
    p.step b =
      if p.missing ≤ 1 then ⟨[some (Char.ofNat (p.value * 64 + (b.toNat - 0x80)))], none⟩
      else ⟨[], some ⟨p.value * 64 + (b.toNat - 0x80), p.missing - 1, 0x80, 0xBF⟩⟩ := by
  have hrange : (p.low ≤ b && b ≤ p.high) = true := by
    rw [Bool.and_eq_true, decide_eq_true_eq, decide_eq_true_eq]
    exact ⟨hlow, hhigh⟩
  rw [Pending.step, if_pos hrange]

variable {value missing : Nat} {low high b : UInt8} (rest : List UInt8)

theorem decodeFrom_more (hlow : low.toNat ≤ b.toNat) (hhigh : b.toNat ≤ high.toNat) :
    decodeFrom (some ⟨value, missing + 2, low, high⟩) (b :: rest) =
      decodeFrom (some ⟨value * 64 + (b.toNat - 0x80), missing + 1, 0x80, 0xBF⟩) rest := by
  rw [decodeFrom, step, Pending.step_of_range hlow hhigh, if_neg (by simp)]
  rfl

theorem decodeFrom_last (hlow : low.toNat ≤ b.toNat) (hhigh : b.toNat ≤ high.toNat) :
    decodeFrom (some ⟨value, 1, low, high⟩) (b :: rest) =
      some (Char.ofNat (value * 64 + (b.toNat - 0x80))) :: decodeFrom none rest := by
  rw [decodeFrom, step, Pending.step_of_range hlow hhigh, if_pos (Nat.le_refl 1)]
  rfl

end Pending

/-- What a lead byte opens, by the number of missing bytes. -/
theorem ofLead?_cases {b : UInt8} {p : Pending} (h : Pending.ofLead? b = some p) :
    (p.missing = 1 ∧ p.value = b.toNat - 0xC0 ∧ 0xC2 ≤ b.toNat ∧ b.toNat ≤ 0xDF ∧
      0x80 ≤ p.low.toNat ∧ p.high.toNat ≤ 0xBF) ∨
    (p.missing = 2 ∧ p.value = b.toNat - 0xE0 ∧ 0xE0 ≤ b.toNat ∧ b.toNat ≤ 0xEF ∧
      0x80 ≤ p.low.toNat ∧ p.high.toNat ≤ 0xBF ∧ (b.toNat = 0xE0 → 0xA0 ≤ p.low.toNat) ∧
      (b.toNat = 0xED → p.high.toNat ≤ 0x9F)) ∨
    (p.missing = 3 ∧ p.value = b.toNat - 0xF0 ∧ 0xF0 ≤ b.toNat ∧ b.toNat ≤ 0xF4 ∧
      0x80 ≤ p.low.toNat ∧ p.high.toNat ≤ 0xBF ∧ (b.toNat = 0xF0 → 0x90 ≤ p.low.toNat) ∧
      (b.toNat = 0xF4 → p.high.toNat ≤ 0x8F)) := by
  have hrange : ∀ {low high : UInt8}, (low ≤ b && b ≤ high) = true →
      low.toNat ≤ b.toNat ∧ b.toNat ≤ high.toNat := by
    intro low high hb
    rw [Bool.and_eq_true, decide_eq_true_eq, decide_eq_true_eq] at hb
    exact hb
  have hne : ∀ {a : UInt8}, ¬(b == a) = true → b.toNat ≠ a.toNat := by
    intro a hb heq
    exact hb (beq_iff_eq.2 (UInt8.toNat_inj.1 heq))
  unfold Pending.ofLead? at h
  split at h
  · rename_i hb
    obtain rfl := Option.some.inj h
    exact .inl ⟨rfl, rfl, (hrange hb).1, (hrange hb).2, Nat.le_refl _, Nat.le_refl _⟩
  split at h
  · rename_i hb
    obtain rfl := Option.some.inj h
    obtain rfl := beq_iff_eq.1 hb
    exact .inr (.inl (by decide))
  split at h
  · rename_i hb
    obtain rfl := Option.some.inj h
    obtain rfl := beq_iff_eq.1 hb
    exact .inr (.inl (by decide))
  split at h
  · rename_i h0 hd hb
    obtain rfl := Option.some.inj h
    have hlead := hrange hb
    have hlow : (0xE1 : UInt8).toNat = 0xE1 := rfl
    refine .inr (.inl ⟨rfl, rfl, by omega, hlead.2, Nat.le_refl _, Nat.le_refl _, ?_, ?_⟩)
    · intro heq
      exact absurd heq (hne h0)
    · intro heq
      exact absurd heq (hne hd)
  split at h
  · rename_i hb
    obtain rfl := Option.some.inj h
    obtain rfl := beq_iff_eq.1 hb
    exact .inr (.inr (by decide))
  split at h
  · rename_i hb
    obtain rfl := Option.some.inj h
    obtain rfl := beq_iff_eq.1 hb
    exact .inr (.inr (by decide))
  split at h
  · rename_i h0 h4 hb
    obtain rfl := Option.some.inj h
    have hlead := hrange hb
    have hlow : (0xF1 : UInt8).toNat = 0xF1 := rfl
    have hhigh : (0xF3 : UInt8).toNat = 0xF3 := rfl
    refine .inr (.inr ⟨rfl, rfl, by omega, by omega, Nat.le_refl _, Nat.le_refl _, ?_, ?_⟩)
    · intro heq
      exact absurd heq (hne h0)
    · intro heq
      exact absurd heq (hne h4)
  · cases h

/-! ## Forms -/

theorem toNat_val_ofNat {n : Nat} (h : n.isValidChar) : (Char.ofNat n).val.toNat = n := by
  rw [Char.ofNat, dif_pos h]
  rfl

/-- A byte is told by its value. -/
theorem ofNat_eq {n : Nat} {b : UInt8} (h : n = b.toNat) : UInt8.ofNat n = b := by
  rw [h, UInt8.ofNat_toNat]

theorem utf8EncodeChar_one {b : UInt8} (h : b.toNat < 0x80) :
    String.utf8EncodeChar (Char.ofNat b.toNat) = [b] := by
  have hvalid : b.toNat.isValidChar := .inl (by omega)
  rw [String.utf8EncodeChar, toNat_val_ofNat hvalid, if_pos (by omega), UInt8.ofNat_toNat]

theorem utf8EncodeChar_two {a b : UInt8} (ha : 0xC2 ≤ a.toNat) (ha' : a.toNat ≤ 0xDF)
    (hb : 0x80 ≤ b.toNat) (hb' : b.toNat ≤ 0xBF) :
    String.utf8EncodeChar (Char.ofNat ((a.toNat - 0xC0) * 64 + (b.toNat - 0x80))) = [a, b] := by
  have hvalid : ((a.toNat - 0xC0) * 64 + (b.toNat - 0x80)).isValidChar := .inl (by omega)
  rw [String.utf8EncodeChar, toNat_val_ofNat hvalid, if_neg (by omega), if_pos (by omega),
    ofNat_eq (show _ = a.toNat by omega), ofNat_eq (show _ = b.toNat by omega)]

theorem utf8EncodeChar_three {a b c : UInt8} (ha : 0xE0 ≤ a.toNat) (ha' : a.toNat ≤ 0xEF)
    (hb : 0x80 ≤ b.toNat) (hb' : b.toNat ≤ 0xBF) (hc : 0x80 ≤ c.toNat) (hc' : c.toNat ≤ 0xBF)
    (hlong : a.toNat = 0xE0 → 0xA0 ≤ b.toNat) (hsurrogate : a.toNat = 0xED → b.toNat ≤ 0x9F) :
    String.utf8EncodeChar (Char.ofNat
      (((a.toNat - 0xE0) * 64 + (b.toNat - 0x80)) * 64 + (c.toNat - 0x80))) = [a, b, c] := by
  have hvalid : (((a.toNat - 0xE0) * 64 + (b.toNat - 0x80)) * 64 +
      (c.toNat - 0x80)).isValidChar := by
    rw [Nat.isValidChar]
    omega
  rw [String.utf8EncodeChar, toNat_val_ofNat hvalid, if_neg (by omega), if_neg (by omega),
    if_pos (by omega), ofNat_eq (show _ = a.toNat by omega), ofNat_eq (show _ = b.toNat by omega),
    ofNat_eq (show _ = c.toNat by omega)]

theorem utf8EncodeChar_four {a b c d : UInt8} (ha : 0xF0 ≤ a.toNat) (ha' : a.toNat ≤ 0xF4)
    (hb : 0x80 ≤ b.toNat) (hb' : b.toNat ≤ 0xBF) (hc : 0x80 ≤ c.toNat) (hc' : c.toNat ≤ 0xBF)
    (hd : 0x80 ≤ d.toNat) (hd' : d.toNat ≤ 0xBF) (hlong : a.toNat = 0xF0 → 0x90 ≤ b.toNat)
    (hlarge : a.toNat = 0xF4 → b.toNat ≤ 0x8F) :
    String.utf8EncodeChar (Char.ofNat
      ((((a.toNat - 0xF0) * 64 + (b.toNat - 0x80)) * 64 + (c.toNat - 0x80)) * 64 +
        (d.toNat - 0x80))) = [a, b, c, d] := by
  have hvalid : ((((a.toNat - 0xF0) * 64 + (b.toNat - 0x80)) * 64 + (c.toNat - 0x80)) * 64 +
      (d.toNat - 0x80)).isValidChar := .inr (by omega)
  rw [String.utf8EncodeChar, toNat_val_ofNat hvalid, if_neg (by omega), if_neg (by omega),
    if_neg (by omega), ofNat_eq (show _ = a.toNat by omega),
    ofNat_eq (show _ = b.toNat by omega), ofNat_eq (show _ = c.toNat by omega),
    ofNat_eq (show _ = d.toNat by omega)]

/-- A sequence without an ill-formed part is the form of its character. -/
theorem exists_char_of_lead {a : UInt8} {p : Pending} {bytes : List UInt8}
    (hp : Pending.ofLead? a = some p)
    (h : (decodeFrom (some p) bytes).all Option.isSome = true) :
    ∃ read rest char, bytes = read ++ rest ∧
      decodeFrom (some p) bytes = some char :: decodeFrom none rest ∧
      String.utf8EncodeChar char = a :: read := by
  obtain ⟨value, missing, low, high⟩ := p
  obtain ⟨b, rest, rfl, hb, hb'⟩ := exists_continuation h
  have hlow : (0x80 : UInt8).toNat = 0x80 := rfl
  have hhigh : (0xBF : UInt8).toNat = 0xBF := rfl
  have hlead := ofLead?_cases hp
  dsimp only at hb hb' hlead
  rcases hlead with ⟨rfl, hv, ha⟩ | ⟨rfl, hv, ha⟩ | ⟨rfl, hv, ha⟩
  · refine ⟨[b], rest, _, rfl, decodeFrom_last rest hb hb', ?_⟩
    rw [hv]
    exact utf8EncodeChar_two (by omega) (by omega) (by omega) (by omega)
  · rw [decodeFrom_more rest hb hb'] at h ⊢
    obtain ⟨c, rest, rfl, hc, hc'⟩ := exists_continuation h
    dsimp only at hc hc'
    refine ⟨[b, c], rest, _, rfl, decodeFrom_last rest hc hc', ?_⟩
    rw [hv]
    exact utf8EncodeChar_three (by omega) (by omega) (by omega) (by omega) (by omega) (by omega)
      (by omega) (by omega)
  · rw [decodeFrom_more rest hb hb'] at h ⊢
    obtain ⟨c, rest, rfl, hc, hc'⟩ := exists_continuation h
    rw [decodeFrom_more rest hc hc'] at h ⊢
    obtain ⟨d, rest, rfl, hd, hd'⟩ := exists_continuation h
    dsimp only at hc hc' hd hd'
    refine ⟨[b, c, d], rest, _, rfl, decodeFrom_last rest hd hd', ?_⟩
    rw [hv]
    exact utf8EncodeChar_four (by omega) (by omega) (by omega) (by omega) (by omega) (by omega)
      (by omega) (by omega) (by omega) (by omega)

/-! ## Whole texts -/

/-- The UTF-8 form of decoded parts. -/
def encodeParts (parts : List (Option Char)) : List UInt8 :=
  parts.flatMap fun part => String.utf8EncodeChar (part.getD replacement)

theorem encodeParts_decodeFrom {bytes : List UInt8}
    (h : (decodeFrom none bytes).all Option.isSome = true) :
    encodeParts (decodeFrom none bytes) = bytes := by
  induction hn : bytes.length using Nat.strongRecOn generalizing bytes with
  | ind n ih =>
    cases bytes with
    | nil => rfl
    | cons a rest =>
      rw [decodeFrom, step, start] at h ⊢
      split at h
      · rename_i ha
        have hrest := ih rest.length (by rw [← hn]; exact Nat.lt_succ_self _) h rfl
        rw [if_pos ha]
        change String.utf8EncodeChar (Char.ofNat a.toNat) ++
          encodeParts (decodeFrom none rest) = _
        rw [utf8EncodeChar_one ha, hrest]
        rfl
      · rename_i ha
        rw [if_neg ha]
        split at h
        · rename_i p hp
          obtain ⟨read, rest', char, rfl, hdecode, hform⟩ := exists_char_of_lead hp h
          rw [List.length_cons, List.length_append] at hn
          change (decodeFrom (some p) (read ++ rest')).all Option.isSome = true at h
          rw [hdecode] at h
          have hrest := ih rest'.length (by omega) h rfl
          change encodeParts (decodeFrom (some p) (read ++ rest')) = _
          rw [hdecode]
          change String.utf8EncodeChar char ++ encodeParts _ = _
          rw [hform, hrest]
          rfl
        · cases h

/-- Well-formed bytes are the UTF-8 form of the text they are shown as. -/
theorem encode_lossy {bytes : List UInt8} (h : isValid bytes = true) :
    encode (lossy bytes) = bytes := by
  rw [encode, lossy, String.toList_ofList, List.flatMap_map]
  exact encodeParts_decodeFrom h

/-- ASCII bytes are characters of their own. -/
theorem isValid_of_ascii {bytes : List UInt8} (h : ∀ b ∈ bytes, b < 0x80) :
    isValid bytes = true := by
  rw [isValid, decode]
  induction bytes with
  | nil => rfl
  | cons b rest ih =>
    obtain ⟨hb, hrest⟩ := List.forall_mem_cons.1 h
    rw [decodeFrom, step, start, if_pos hb]
    exact ih hrest

/-! ## Bytes that read as a given text -/

/-- The text is read back from its bytes, and nothing in it stands for ill-formed bytes. -/
structure Plain (text : String) : Prop where
  lossy_encode : lossy (encode text) = text
  not_mem : replacement ∉ text.toList

instance (text : String) : Decidable (Plain text) :=
  decidable_of_iff (lossy (encode text) = text ∧ replacement ∉ text.toList)
    ⟨fun h => ⟨h.1, h.2⟩, fun h => ⟨h.lossy_encode, h.not_mem⟩⟩

/-- Every ill-formed part shows as a replacement character. -/
theorem isValid_of_not_mem {bytes : List UInt8} (h : replacement ∉ (lossy bytes).toList) :
    isValid bytes = true := by
  rw [isValid, List.all_eq_true]
  intro part hpart
  cases part with
  | some c => rfl
  | none =>
    rw [lossy, String.toList_ofList] at h
    exact absurd (List.mem_map.2 ⟨none, hpart, rfl⟩) h

theorem lossy_eq_iff {bytes : List UInt8} {text : String} (htext : Plain text) :
    lossy bytes = text ↔ bytes = encode text := by
  constructor
  · rintro rfl
    exact (encode_lossy (isValid_of_not_mem htext.not_mem)).symm
  · rintro rfl
    exact htext.lossy_encode

end Lexeme.Utf8
