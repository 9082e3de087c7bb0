import Lexeme.Proofs.Text.CodePoint

/-!
# Code points one behind the other

A form tells where it ends, so nothing has to stand between two of them: whoever reads a value, and
then the next one behind its form, gets back all the values that were written, whatever the lengths
of their forms.
-/

set_option autoImplicit false

namespace Lexeme.CodePoint

/-- Reading a value takes a byte at least. -/
theorem length_lt_of_decode? {bytes rest : List UInt8} {value : Nat}
    (h : decode? bytes = some (value, rest)) : rest.length < bytes.length := by
  obtain ⟨f, -, -, rfl⟩ := decode?_eq_some_iff.1 h
  rw [List.length_append, length_form]
  omega

/-- The values whose forms stand one behind the other, if the bytes are such forms to their end. -/
def decodeAll? (bytes : List UInt8) : Option (List Nat) :=
  if bytes = [] then some []
  else
    match _h : decode? bytes with
    | none => none
    | some (value, rest) => (decodeAll? rest).map (value :: ·)
termination_by bytes.length
decreasing_by exact length_lt_of_decode? _h

theorem decodeAll?_nil : decodeAll? [] = some [] := by
  rw [decodeAll?, if_pos rfl]

theorem decodeAll?_of_decode? {bytes rest : List UInt8} {value : Nat}
    (h : decode? bytes = some (value, rest)) :
    decodeAll? bytes = (decodeAll? rest).map (value :: ·) := by
  have hne : bytes ≠ [] := by
    rintro rfl
    cases h
  rw [decodeAll?, if_neg hne]
  split
  · rename_i hnone
    rw [hnone] at h
    cases h
  · rename_i value' rest' hsome
    rw [hsome] at h
    obtain ⟨rfl, rfl⟩ := Prod.mk.inj (Option.some.inj h)
    rfl

theorem decodeAll?_flatMap_encode {values : List Nat} (h : ∀ value ∈ values, value ≤ limit) :
    decodeAll? (values.flatMap encode) = some values := by
  induction values with
  | nil => exact decodeAll?_nil
  | cons value values ih =>
    obtain ⟨hvalue, hvalues⟩ := List.forall_mem_cons.1 h
    rw [List.flatMap_cons, decodeAll?_of_decode? (decode?_encode hvalue _), ih hvalues]
    rfl

/-- Values up to the limit are read back from what is written if one is appended after the other.
Each value takes its shortest form, the only one of that length, and a character is written in
UTF-8. -/
theorem decodeAll?_foldl_encode (values : List Nat) (h : ∀ value ∈ values, value ≤ limit) :
    decodeAll? (values.foldl (fun out value => out ++ encode value) []) = some values ∧
      (∀ value ∈ values, ∀ bytes, Shortest value bytes ↔ bytes = encode value) ∧
      ∀ c : Char, encode c.toNat = String.utf8EncodeChar c := by
  refine ⟨?_, ?_, encode_toNat⟩
  · rw [← List.flatMap_eq_foldl]
    exact decodeAll?_flatMap_encode h
  · intro value hvalue bytes
    exact shortest_iff (h value hvalue)

/-- Values at both ends of the six forms, and a surrogate. -/
def boundaryValues : List Nat :=
  [0x7FFFFFFF, 0, 0x7F, 0x80, 0x7FF, 0x800, 0xD800, 0xFFFF, 0x10000, 0x1FFFFF, 0x200000, 0x3FFFFFF,
    0x4000000]

theorem decodeAll?_foldl_encode_boundaryValues :
    (∀ value ∈ boundaryValues, value ≤ limit) ∧
      decodeAll? (boundaryValues.foldl (fun out value => out ++ encode value) []) =
        some boundaryValues ∧
      ∀ bytes, Shortest 0xD800 bytes ↔ bytes = [0xED, 0xA0, 0x80] := by
  obtain ⟨hread, hshortest, -⟩ := decodeAll?_foldl_encode boundaryValues (by decide)
  exact ⟨by decide, hread, hshortest 0xD800 (by decide)⟩

end Lexeme.CodePoint
