import Mathlib.Data.Bool.AllAny
import Lexeme.Text.CodePoint
import Lexeme.Text.Utf8

/-!
# Forms of code points

A lead byte tells how many continuation bytes follow it and holds the highest bits of a value; each
continuation byte holds six more. `CodePoint.decode?` reads a value by these rules alone, and so a
value can be read from several forms. The one that `encode` gives is the shortest, and the only one
of its length; for a character it is the UTF-8 form.
-/

set_option autoImplicit false

namespace Lexeme.CodePoint

/-- What a lead byte tells: how many continuation bytes follow, and the bits it holds itself. -/
def lead? (b : UInt8) : Option (Nat × Nat) :=
  if b < 0x80 then some (0, b.toNat)
  else if b < 0xC0 then none
  else if b < 0xE0 then some (1, b.toNat - 0xC0)
  else if b < 0xF0 then some (2, b.toNat - 0xE0)
  else if b < 0xF8 then some (3, b.toNat - 0xF0)
  else if b < 0xFC then some (4, b.toNat - 0xF8)
  else if b < 0xFE then some (5, b.toNat - 0xFC)
  else none

/-- The value with the bits of `count` continuation bytes behind it, and what follows these. -/
def continue? : Nat → Nat → List UInt8 → Option (Nat × List UInt8)
  | 0, value, bytes => some (value, bytes)
  | _ + 1, _, [] => none
  | count + 1, value, b :: bytes =>
    if 0x80 ≤ b ∧ b < 0xC0 then continue? count (value * 64 + (b.toNat - 0x80)) bytes else none

/-- The value at the front of some bytes, and what follows its form. -/
def decode? : List UInt8 → Option (Nat × List UInt8)
  | [] => none
  | b :: bytes => (lead? b).bind fun lead => continue? lead.1 lead.2 bytes

/-- Bytes that a value is read from, and no fewer bytes would do. -/
structure Shortest (value : Nat) (bytes : List UInt8) : Prop where
  decode?_eq : decode? bytes = some (value, [])
  length_le (other : List UInt8) : decode? other = some (value, []) → bytes.length ≤ other.length

/-- The largest value that has a form. -/
def limit : Nat := 0x7FFFFFFF

/-! ## Lead bytes and continuation bytes -/

/-- A lead byte is made of a mark and bits that have `room` values. -/
structure Form where
  count : Nat
  mark : Nat
  room : Nat
deriving DecidableEq

def forms : List Form :=
  [⟨0, 0, 0x80⟩, ⟨1, 0xC0, 0x20⟩, ⟨2, 0xE0, 0x10⟩, ⟨3, 0xF0, 8⟩, ⟨4, 0xF8, 4⟩, ⟨5, 0xFC, 2⟩]

theorem lead?_of_mem {f : Form} (h : f ∈ forms) {bits : Nat} (hbits : bits < f.room) :
    lead? (UInt8.ofNat (f.mark + bits)) = some (f.count, bits) := by
  have hall : ∀ f ∈ forms, ∀ bits < f.room,
      lead? (UInt8.ofNat (f.mark + bits)) = some (f.count, bits) :=
    List.all_iff_forall_prop.1 (by decide)
  exact hall f h bits hbits

theorem exists_form_of_lead? {b : UInt8} {count bits : Nat} (h : lead? b = some (count, bits)) :
    ∃ f ∈ forms, f.count = count ∧ bits < f.room ∧ b = UInt8.ofNat (f.mark + bits) := by
  have hall : ∀ n < 256, (lead? (UInt8.ofNat n)).all fun lead =>
      forms.any fun f => f.count = lead.1 ∧ lead.2 < f.room ∧
        UInt8.ofNat n = UInt8.ofNat (f.mark + lead.2) := by
    decide +kernel
  have hb := hall b.toNat b.toNat_lt
  rw [UInt8.ofNat_toNat, h, Option.all_some, List.any_eq_true] at hb
  obtain ⟨f, hf, hfits⟩ := hb
  exact ⟨f, hf, of_decide_eq_true hfits⟩

theorem toNat_continuation (value : Nat) : (continuation value).toNat = 0x80 + value % 64 := by
  rw [continuation, UInt8.toNat_ofNat']
  omega

/-- A value is read back from its highest bits and its continuation bytes. -/
theorem continue?_tail (value count : Nat) (rest : List UInt8) :
    continue? count (value >>> (6 * count)) (tail value count ++ rest) = some (value, rest) := by
  induction count with
  | zero => rfl
  | succ count ih =>
    have hbyte := toNat_continuation (value >>> (6 * count))
    have hrange : 0x80 ≤ continuation (value >>> (6 * count)) ∧
        continuation (value >>> (6 * count)) < 0xC0 := by
      rw [UInt8.le_iff_toNat_le, UInt8.lt_iff_toNat_lt, hbyte]
      have hlow : (0x80 : UInt8).toNat = 0x80 := rfl
      have hhigh : (0xC0 : UInt8).toNat = 0xC0 := rfl
      omega
    have hbits : value >>> (6 * (count + 1)) = value >>> (6 * count) / 64 := by
      rw [Nat.mul_succ, Nat.shiftRight_add, Nat.shiftRight_eq_div_pow _ 6]
    have hvalue : value >>> (6 * (count + 1)) * 64 +
        ((continuation (value >>> (6 * count))).toNat - 0x80) = value >>> (6 * count) := by
      rw [hbits, hbyte]
      omega
    rw [tail, List.cons_append, continue?, if_pos hrange, hvalue]
    exact ih

/-- Only the continuation bytes of a value complete its highest bits to it. -/
theorem eq_tail_of_continue? {count bits value : Nat} {bytes rest : List UInt8}
    (h : continue? count bits bytes = some (value, rest)) :
    bytes = tail value count ++ rest ∧ value >>> (6 * count) = bits := by
  induction count generalizing bits bytes with
  | zero =>
    obtain ⟨rfl, rfl⟩ := Prod.mk.inj (Option.some.inj h)
    exact ⟨rfl, rfl⟩
  | succ count ih =>
    cases bytes with
    | nil => cases h
    | cons b bytes =>
      rw [continue?] at h
      split at h
      · rename_i hrange
        rw [UInt8.le_iff_toNat_le, UInt8.lt_iff_toNat_lt] at hrange
        have hlow : (0x80 : UInt8).toNat = 0x80 := rfl
        have hhigh : (0xC0 : UInt8).toNat = 0xC0 := rfl
        obtain ⟨rfl, hbits⟩ := ih h
        constructor
        · have hb : b = continuation (value >>> (6 * count)) := by
            apply UInt8.toNat_inj.1
            rw [toNat_continuation, hbits]
            omega
          rw [tail, ← hb]
          rfl
        · rw [Nat.mul_succ, Nat.shiftRight_add, hbits, Nat.shiftRight_eq_div_pow]
          omega
      · cases h

/-! ## Values -/

theorem length_tail (value count : Nat) : (tail value count).length = count := by
  induction count with
  | zero => rfl
  | succ count ih => rw [tail, List.length_cons, ih]

theorem length_form (mark count value : Nat) : (form mark count value).length = count + 1 := by
  rw [form, List.length_cons, length_tail]

/-- A value can be read from the forms whose lead byte has room for its highest bits, and from
nothing else. -/
theorem decode?_eq_some_iff {bytes rest : List UInt8} {value : Nat} :
    decode? bytes = some (value, rest) ↔
      ∃ f ∈ forms, value >>> (6 * f.count) < f.room ∧
        bytes = form f.mark f.count value ++ rest := by
  constructor
  · intro h
    cases bytes with
    | nil => cases h
    | cons b bytes =>
      obtain ⟨⟨count, bits⟩, hlead, hcontinue⟩ := Option.bind_eq_some_iff.1 h
      obtain ⟨f, hf, rfl, hroom, rfl⟩ := exists_form_of_lead? hlead
      obtain ⟨htail, hbits⟩ := eq_tail_of_continue? hcontinue
      dsimp only at htail hbits
      subst hbits htail
      exact ⟨f, hf, hroom, rfl⟩
  · rintro ⟨f, hf, hroom, rfl⟩
    change (lead? _).bind _ = _
    rw [lead?_of_mem hf hroom]
    exact continue?_tail value f.count rest

theorem lt_room_iff (f : Form) (value : Nat) :
    value >>> (6 * f.count) < f.room ↔ value < f.room <<< (6 * f.count) := by
  rw [Nat.shiftRight_eq_div_pow, Nat.shiftLeft_eq, Nat.div_lt_iff_lt_mul (Nat.two_pow_pos _)]

/-- `encode` takes the first of the forms that have room. -/
theorem exists_form_encode {value : Nat} (h : value ≤ limit) :
    ∃ f ∈ forms, value >>> (6 * f.count) < f.room ∧ encode value = form f.mark f.count value ∧
      ∀ g ∈ forms, value >>> (6 * g.count) < g.room → f.count ≤ g.count := by
  rw [limit] at h
  simp only [lt_room_iff]
  have hleast : ∀ n, (∀ g ∈ forms, g.count < n → g.room <<< (6 * g.count) ≤ value) →
      ∀ g ∈ forms, value < g.room <<< (6 * g.count) → n ≤ g.count := by
    intro n hn g hg hlt
    refine Nat.le_of_not_lt fun hless => ?_
    exact Nat.not_lt.2 (hn g hg hless) hlt
  rw [encode]
  split
  · exact ⟨⟨0, 0, 0x80⟩, by decide, by dsimp; omega, rfl, hleast _ (by simp [forms])⟩
  split
  · exact ⟨⟨1, 0xC0, 0x20⟩, by decide, by dsimp; omega, rfl, hleast _ (by simp [forms]; omega)⟩
  split
  · exact ⟨⟨2, 0xE0, 0x10⟩, by decide, by dsimp; omega, rfl, hleast _ (by simp [forms]; omega)⟩
  split
  · exact ⟨⟨3, 0xF0, 8⟩, by decide, by dsimp; omega, rfl, hleast _ (by simp [forms]; omega)⟩
  split
  · exact ⟨⟨4, 0xF8, 4⟩, by decide, by dsimp; omega, rfl, hleast _ (by simp [forms]; omega)⟩
  · exact ⟨⟨5, 0xFC, 2⟩, by decide, by dsimp; omega, rfl, hleast _ (by simp [forms]; omega)⟩

/-- A value is read back from its encoding, whatever follows. -/
theorem decode?_encode {value : Nat} (h : value ≤ limit) (rest : List UInt8) :
    decode? (encode value ++ rest) = some (value, rest) := by
  obtain ⟨f, hf, hroom, hform, -⟩ := exists_form_encode h
  exact decode?_eq_some_iff.2 ⟨f, hf, hroom, by rw [hform]⟩

/-- The encoding of a value is the one shortest form of it. -/
theorem shortest_iff {value : Nat} (h : value ≤ limit) {bytes : List UInt8} :
    Shortest value bytes ↔ bytes = encode value := by
  obtain ⟨f, hf, hroom, hencode, hleast⟩ := exists_form_encode h
  have hdecode : decode? (encode value) = some (value, []) := by
    have hread := decode?_encode h []
    rwa [List.append_nil] at hread
  have hforms : ∀ g ∈ forms, f.count = g.count → f.mark = g.mark := by
    have hall : ∀ f ∈ forms, forms.all fun g => f.count = g.count → f.mark = g.mark :=
      List.all_eq_true.1 (by decide)
    intro g hg
    exact of_decide_eq_true (List.all_eq_true.1 (hall f hf) g hg)
  constructor
  · rintro ⟨hbytes, hshort⟩
    obtain ⟨g, hg, hroom', rfl⟩ := decode?_eq_some_iff.1 hbytes
    have hlen := hshort _ hdecode
    rw [hencode, List.append_nil, length_form, length_form] at hlen
    have hcount := hleast g hg hroom'
    have heq : f.count = g.count := by omega
    rw [hencode, List.append_nil, heq, hforms g hg heq]
  · rintro rfl
    refine ⟨hdecode, fun other hother => ?_⟩
    obtain ⟨g, hg, hroom', rfl⟩ := decode?_eq_some_iff.1 hother
    have hcount := hleast g hg hroom'
    rw [hencode, List.append_nil, length_form, length_form]
    omega

/-- A value above the limit has no form. -/
theorem encode_of_limit_lt {value : Nat} (h : limit < value) : encode value = [] := by
  rw [limit] at h
  rw [encode, if_neg (by omega), if_neg (by omega), if_neg (by omega), if_neg (by omega),
    if_neg (by omega), if_neg (by omega)]

/-- Characters are encoded in UTF-8. -/
theorem encode_toNat (c : Char) : encode c.toNat = String.utf8EncodeChar c := by
  have hvalid := c.valid
  simp only [UInt32.isValidChar, Nat.isValidChar] at hvalid
  rw [String.utf8EncodeChar]
  change encode c.val.toNat = _
  generalize c.val.toNat = n at hvalid ⊢
  have hbyte : ∀ {i j : Nat}, i % 256 = j % 256 → UInt8.ofNat i = UInt8.ofNat j := by
    intro i j h
    apply UInt8.toNat_inj.1
    rw [UInt8.toNat_ofNat', UInt8.toNat_ofNat']
    exact h
  simp only [encode, form, tail, continuation, Nat.shiftRight_eq_div_pow, Nat.reduceMul,
    Nat.reducePow, Nat.div_one]
  split
  · rw [Nat.zero_add]
  split
  · exact List.cons_eq_cons.2 ⟨hbyte (by omega), List.cons_eq_cons.2 ⟨hbyte (by omega), rfl⟩⟩
  split
  · exact List.cons_eq_cons.2 ⟨hbyte (by omega), List.cons_eq_cons.2 ⟨hbyte (by omega),
      List.cons_eq_cons.2 ⟨hbyte (by omega), rfl⟩⟩⟩
  · rw [if_pos (by omega)]
    exact List.cons_eq_cons.2 ⟨hbyte (by omega), List.cons_eq_cons.2 ⟨hbyte (by omega),
      List.cons_eq_cons.2 ⟨hbyte (by omega), List.cons_eq_cons.2 ⟨hbyte (by omega), rfl⟩⟩⟩⟩

theorem toNat_le_limit (c : Char) : c.toNat ≤ limit := by
  have hvalid := c.valid
  simp only [UInt32.isValidChar, Nat.isValidChar] at hvalid
  change c.val.toNat ≤ _
  rw [limit]
  omega

/-- A character's UTF-8 form is the shortest form of its number. -/
theorem shortest_toNat_iff (c : Char) {bytes : List UInt8} :
    Shortest c.toNat bytes ↔ bytes = String.utf8EncodeChar c := by
  rw [shortest_iff (toNat_le_limit c), encode_toNat]

/-- A character is read back from its UTF-8 form, whatever follows. -/
theorem decode?_utf8EncodeChar (c : Char) (rest : List UInt8) :
    decode? (String.utf8EncodeChar c ++ rest) = some (c.toNat, rest) := by
  rw [← encode_toNat]
  exact decode?_encode (toNat_le_limit c) rest

end Lexeme.CodePoint

/-- Texts with the same UTF-8 form are the same. -/
theorem Lexeme.Utf8.encode_injective : Function.Injective encode := by
  have hchars : ∀ cs ds : List Char,
      cs.flatMap String.utf8EncodeChar = ds.flatMap String.utf8EncodeChar → cs = ds := by
    intro cs
    induction cs with
    | nil =>
      intro ds h
      cases ds with
      | nil => rfl
      | cons d ds =>
        have hread := CodePoint.decode?_utf8EncodeChar d (ds.flatMap String.utf8EncodeChar)
        rw [← List.flatMap_cons, ← h] at hread
        cases hread
    | cons c cs ih =>
      intro ds h
      have hread := CodePoint.decode?_utf8EncodeChar c (cs.flatMap String.utf8EncodeChar)
      rw [← List.flatMap_cons, h] at hread
      cases ds with
      | nil => cases hread
      | cons d ds =>
        rw [List.flatMap_cons, CodePoint.decode?_utf8EncodeChar] at hread
        obtain ⟨hchar, hrest⟩ := Prod.mk.inj (Option.some.inj hread)
        rw [Char.toNat_inj.1 hchar, ih ds hrest.symm]
  intro s t h
  exact String.toList_inj.1 (hchars _ _ h)
