import Lexeme.Source.Reader
import Lexeme.Proofs.Text.CodePoint
import Lexeme.Proofs.Text.Utf8

/-!
# Texts survive being written as bytes

The bytes of a text are shown as that text again. What a scan does with the bytes it does with the
text: small letters come to the same on either side, and a byte order mark in front of the bytes is
the first character of the text.
-/

set_option autoImplicit false

namespace Lexeme.Utf8

/-! ## One character -/

/-- What the lead bytes open: how much is missing, and the range of the next byte. -/
theorem ofLead?_ofNat {n : Nat} (hlow : 0xC2 ≤ n) (hhigh : n ≤ 0xF4) :
    Pending.ofLead? (UInt8.ofNat n) = some (
      if n < 0xE0 then ⟨n - 0xC0, 1, 0x80, 0xBF⟩
      else if n < 0xF0 then
        ⟨n - 0xE0, 2, if n = 0xE0 then 0xA0 else 0x80, if n = 0xED then 0x9F else 0xBF⟩
      else ⟨n - 0xF0, 3, if n = 0xF0 then 0x90 else 0x80, if n = 0xF4 then 0x8F else 0xBF⟩) := by
  have hall : ∀ n < 0xF5, 0xC2 ≤ n → Pending.ofLead? (UInt8.ofNat n) = some (
      if n < 0xE0 then ⟨n - 0xC0, 1, 0x80, 0xBF⟩
      else if n < 0xF0 then
        ⟨n - 0xE0, 2, if n = 0xE0 then 0xA0 else 0x80, if n = 0xED then 0x9F else 0xBF⟩
      else ⟨n - 0xF0, 3, if n = 0xF0 then 0x90 else 0x80, if n = 0xF4 then 0x8F else 0xBF⟩) := by
    decide +kernel
  exact hall n (Nat.lt_succ_of_le hhigh) hlow

section Steps

variable {n : Nat} (rest : List UInt8)

theorem decodeFrom_ascii (h : n ≤ 0x7F) :
    decodeFrom none (UInt8.ofNat n :: rest) = some (Char.ofNat n) :: decodeFrom none rest := by
  have hvalue : (UInt8.ofNat n).toNat = n := UInt8.toNat_ofNat_of_lt' (by change n < 256; omega)
  have hb : UInt8.ofNat n < 0x80 := by
    rw [UInt8.lt_iff_toNat_lt, hvalue]
    exact Nat.lt_succ_of_le h
  rw [decodeFrom, step, start, if_pos hb, hvalue]
  rfl

theorem decodeFrom_lead {p : Pending} {b : UInt8} (h : Pending.ofLead? b = some p) :
    decodeFrom none (b :: rest) = decodeFrom (some p) rest := by
  have hb : ¬b < 0x80 := by
    have hlead := ofLead?_cases h
    have hvalue : (0x80 : UInt8).toNat = 0x80 := rfl
    rw [UInt8.lt_iff_toNat_lt]
    omega
  rw [decodeFrom, step, start, if_neg hb, h]
  rfl

variable {value missing : Nat} {low high : UInt8}

/-- Six bits of a value, with the mark of a continuation byte. -/
theorem toNat_bits (n : Nat) : (UInt8.ofNat (n % 64 + 0x80)).toNat = n % 64 + 0x80 :=
  UInt8.toNat_ofNat_of_lt' (by change _ < 256; omega)

theorem decodeFrom_bits (hlow : low.toNat ≤ n % 64 + 0x80) (hhigh : n % 64 + 0x80 ≤ high.toNat) :
    decodeFrom (some ⟨value, missing + 2, low, high⟩) (UInt8.ofNat (n % 64 + 0x80) :: rest) =
      decodeFrom (some ⟨value * 64 + n % 64, missing + 1, 0x80, 0xBF⟩) rest := by
  have hvalue := toNat_bits n
  rw [decodeFrom_more rest (by omega) (by omega), hvalue, Nat.add_sub_cancel]

theorem decodeFrom_lastBits (hlow : low.toNat ≤ n % 64 + 0x80)
    (hhigh : n % 64 + 0x80 ≤ high.toNat) :
    decodeFrom (some ⟨value, 1, low, high⟩) (UInt8.ofNat (n % 64 + 0x80) :: rest) =
      some (Char.ofNat (value * 64 + n % 64)) :: decodeFrom none rest := by
  have hvalue := toNat_bits n
  rw [decodeFrom_last rest (by omega) (by omega), hvalue, Nat.add_sub_cancel]

end Steps

/-- A character is read from its form, whatever follows. -/
theorem decodeFrom_utf8EncodeChar (c : Char) (rest : List UInt8) :
    decodeFrom none (String.utf8EncodeChar c ++ rest) = some c :: decodeFrom none rest := by
  have hvalid := c.valid
  simp only [UInt32.isValidChar, Nat.isValidChar] at hvalid
  have hchar : ∀ n, n = c.val.toNat → Char.ofNat n = c := by
    rintro n rfl
    exact Char.ofNat_toNat c
  have hlow : (0x80 : UInt8).toNat = 0x80 ∧ (0x90 : UInt8).toNat = 0x90 ∧
      (0xA0 : UInt8).toNat = 0xA0 := by decide
  have hhigh : (0x8F : UInt8).toNat = 0x8F ∧ (0x9F : UInt8).toNat = 0x9F ∧
      (0xBF : UInt8).toNat = 0xBF := by decide
  rw [String.utf8EncodeChar]
  generalize c.val.toNat = n at hvalid hchar ⊢
  split
  · rw [List.singleton_append, decodeFrom_ascii rest (by omega), hchar n rfl]
  split
  · have hlead := ofLead?_ofNat (n := n / 64 % 32 + 192) (by omega) (by omega)
    rw [if_pos (by omega)] at hlead
    rw [List.cons_append, decodeFrom_lead _ hlead, List.singleton_append,
      decodeFrom_lastBits _ (by omega) (by omega), hchar _ (by omega)]
  split
  · have hlead := ofLead?_ofNat (n := n / 4096 % 16 + 224) (by omega) (by omega)
    rw [if_neg (by omega), if_pos (by omega)] at hlead
    rw [List.cons_append, decodeFrom_lead _ hlead, List.cons_append,
      decodeFrom_bits _ (by split <;> omega) (by split <;> omega), List.singleton_append,
      decodeFrom_lastBits _ (by omega) (by omega), hchar _ (by omega)]
  · have hlead := ofLead?_ofNat (n := n / 262144 % 8 + 240) (by omega) (by omega)
    rw [if_neg (by omega), if_neg (by omega)] at hlead
    rw [List.cons_append, decodeFrom_lead _ hlead, List.cons_append,
      decodeFrom_bits _ (by split <;> omega) (by split <;> omega), List.cons_append,
      decodeFrom_bits _ (by omega) (by omega), List.singleton_append,
      decodeFrom_lastBits _ (by omega) (by omega), hchar _ (by omega)]

/-- Beyond ASCII, every byte of a form has its highest bit set. -/
theorem le_of_mem_utf8EncodeChar {c : Char} (hc : 0x7F < c.val.toNat) :
    ∀ b ∈ String.utf8EncodeChar c, 0x80 ≤ b.toNat := by
  have hbyte : ∀ {n : Nat}, 0x80 ≤ n → n < 0x100 → 0x80 ≤ (UInt8.ofNat n).toNat := by
    intro n hlow hhigh
    rw [UInt8.toNat_ofNat_of_lt' hhigh]
    exact hlow
  rw [String.utf8EncodeChar, if_neg (Nat.not_le.2 hc)]
  generalize c.val.toNat = n
  intro b hb
  split at hb
  · simp only [List.mem_cons, List.not_mem_nil, or_false] at hb
    rcases hb with rfl | rfl
    all_goals exact hbyte (by omega) (by omega)
  split at hb
  · simp only [List.mem_cons, List.not_mem_nil, or_false] at hb
    rcases hb with rfl | rfl | rfl
    all_goals exact hbyte (by omega) (by omega)
  · simp only [List.mem_cons, List.not_mem_nil, or_false] at hb
    rcases hb with rfl | rfl | rfl | rfl
    all_goals exact hbyte (by omega) (by omega)

theorem toLower_of_le {b : UInt8} (h : 0x80 ≤ b.toNat) : Byte.toLower b = b := by
  refine if_neg ?_
  rw [Byte.isUpper, Bool.and_eq_true, decide_eq_true_eq, decide_eq_true_eq]
  rintro ⟨-, hle⟩
  have hle' : b.toNat ≤ 90 := hle
  omega

/-- Small letters are told byte by byte as they are told character by character. -/
theorem map_toLower_utf8EncodeChar (c : Char) :
    (String.utf8EncodeChar c).map Byte.toLower = String.utf8EncodeChar c.toLower := by
  by_cases hc : c.val.toNat ≤ 0x7F
  · have hascii : ∀ n < 0x80, (String.utf8EncodeChar (Char.ofNat n)).map Byte.toLower =
        String.utf8EncodeChar (Char.ofNat n).toLower := by
      decide +kernel
    have hchar := hascii c.toNat (Nat.lt_succ_of_le hc)
    rwa [Char.ofNat_toNat] at hchar
  · have hlower : c.toLower = c := by
      refine dif_neg ?_
      rintro ⟨-, hle⟩
      have hle' : c.val.toNat ≤ 90 := hle
      omega
    have hbytes : ∀ b ∈ String.utf8EncodeChar c, Byte.toLower b = id b :=
      fun b hb => toLower_of_le (le_of_mem_utf8EncodeChar (Nat.lt_of_not_le hc) b hb)
    rw [hlower, List.map_congr_left hbytes, List.map_id]

/-! ## Whole texts -/

theorem decode_encode (text : String) : decode (encode text) = text.toList.map some := by
  rw [decode, encode]
  induction text.toList with
  | nil => rfl
  | cons c cs ih => rw [List.flatMap_cons, decodeFrom_utf8EncodeChar, ih, List.map_cons]

/-- The bytes of a text are shown as that text. -/
theorem lossy_encode (text : String) : lossy (encode text) = text := by
  rw [lossy, decode_encode, List.map_map]
  exact (congrArg String.ofList (List.map_id text.toList)).trans String.ofList_toList

theorem map_toLower_encode (text : String) :
    (encode text).map Byte.toLower = encode text.toLower := by
  have hchars : text.toLower.toList = text.toList.map Char.toLower := String.toList_map
  rw [encode, encode, hchars, List.map_flatMap, List.flatMap_map]
  exact congrArg text.toList.flatMap (funext map_toLower_utf8EncodeChar)

/-- A byte order mark in front of a text is its first character. -/
theorem byteOrderMark_prefix_encode_iff {text : String} :
    Reader.byteOrderMark <+: encode text ↔ text.toList.head? = some '\uFEFF' := by
  have hread := CodePoint.decode?_utf8EncodeChar '\uFEFF'
  rw [encode]
  constructor
  · rintro ⟨more, hmore⟩
    cases hchars : text.toList with
    | nil =>
      rw [hchars] at hmore
      cases hmore
    | cons c cs =>
      have hfirst := CodePoint.decode?_utf8EncodeChar c (cs.flatMap String.utf8EncodeChar)
      rw [← List.flatMap_cons, ← hchars, ← hmore] at hfirst
      have hmark := (hread more).symm.trans hfirst
      rw [List.head?_cons, Char.toNat_inj.1 (Prod.mk.inj (Option.some.inj hmark)).1]
  · intro hhead
    obtain ⟨cs, hchars⟩ := List.head?_eq_some_iff.1 hhead
    rw [hchars, List.flatMap_cons]
    exact List.prefix_append _ _

end Lexeme.Utf8
