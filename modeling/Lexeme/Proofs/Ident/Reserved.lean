import Lexeme.Proofs.Ident.Table

/-!
# The reserved numbers

A table that grew from the fresh one has the empty text, the keywords and the operator marks under
the numbers reserved for them. So a reserved number tells the text, and in a table that holds each
text once the text tells the number: kinds that are decided by numbers are decided by spellings.
-/

set_option autoImplicit false

namespace Lexeme

theorem Keyword.mem_all (k : Keyword) : k ∈ Keyword.all := by
  cases k <;> decide

theorem Keyword.plain_spelling (k : Keyword) : Utf8.Plain k.spelling := by
  cases k <;> decide +kernel

theorem Mark.plain_spelling (m : Mark) : Utf8.Plain m.spelling := by
  cases m <;> decide +kernel

namespace Ident

theorem keywordOf?_eq_some_iff {id : Nat} {k : Keyword} :
    keywordOf? id = some k ↔ ∃ j, id = 1 + j ∧ Keyword.all[j]? = some k := by
  rw [keywordOf?, firstKeyword]
  constructor
  · intro h
    split at h
    · rename_i hle
      exact ⟨id - 1, by omega, h⟩
    · cases h
  · rintro ⟨j, rfl, hj⟩
    rw [if_pos (Nat.le_add_right 1 j), Nat.add_sub_cancel_left, hj]

theorem markOf?_eq_some_iff {id : Nat} {m : Mark} :
    markOf? id = some m ↔ ∃ j, id = 67 + j ∧ Mark.operators[j]? = some m := by
  have hfirst : firstOperator = 67 := rfl
  rw [markOf?, hfirst]
  constructor
  · intro h
    split at h
    · rename_i hle
      exact ⟨id - 67, by omega, h⟩
    · cases h
  · rintro ⟨j, rfl, hj⟩
    rw [if_pos (Nat.le_add_right 67 j), Nat.add_sub_cancel_left, hj]

end Ident

namespace IdentTable

theorem getElem?_seeds_keyword {j : Nat} {k : Keyword} (h : Keyword.all[j]? = some k) :
    seeds[1 + j]? = some k.spelling := by
  have hlt := (List.getElem?_eq_some_iff.1 h).1
  have hlt' : j < (Keyword.all.map Keyword.spelling).length := by rwa [List.length_map]
  rw [seeds, Nat.add_comm, List.cons_append, List.getElem?_cons_succ,
    List.getElem?_append_left hlt', List.getElem?_map, h]
  rfl

theorem getElem?_seeds_mark {j : Nat} {m : Mark} (h : Mark.operators[j]? = some m) :
    seeds[67 + j]? = some m.spelling := by
  have hseeds : seeds = ("" :: Keyword.all.map Keyword.spelling) ++
    Mark.operators.map Mark.spelling := rfl
  have hlen : ("" :: Keyword.all.map Keyword.spelling).length = 67 := rfl
  rw [hseeds, List.getElem?_append_right (by rw [hlen]; exact Nat.le_add_right _ _), hlen,
    Nat.add_sub_cancel_left, List.getElem?_map, h]
  rfl

section Grown

variable {t : IdentTable} (h : fresh.Extends t)
include h

theorem Extends.get?_seed {id : Nat} {name : String} (hname : seeds[id]? = some name) :
    t.get? id = some ⟨id, name⟩ := by
  have hfresh : fresh.get? id = some ⟨id, name⟩ := by
    rw [represents_fresh.get?_eq, seedPairs, List.getElem?_map, hname]
    rfl
  exact h.get? hfresh

theorem Extends.get?_keyword {id : Nat} {k : Keyword} (hk : Ident.keywordOf? id = some k) :
    t.get? id = some ⟨id, k.spelling⟩ := by
  obtain ⟨j, rfl, hj⟩ := Ident.keywordOf?_eq_some_iff.1 hk
  exact h.get?_seed (getElem?_seeds_keyword hj)

theorem Extends.get?_mark {id : Nat} {m : Mark} (hm : Ident.markOf? id = some m) :
    t.get? id = some ⟨id, m.spelling⟩ := by
  obtain ⟨j, rfl, hj⟩ := Ident.markOf?_eq_some_iff.1 hm
  exact h.get?_seed (getElem?_seeds_mark hj)

/-- An identifier with the number of a mark has its spelling. -/
theorem Extends.name_of_markOf? {i : Ident} (hi : t.get? i.id = some i) {m : Mark}
    (hm : Ident.markOf? i.id = some m) : i.name = m.spelling := by
  rw [h.get?_mark hm] at hi
  exact congrArg Ident.name (Option.some.inj hi).symm

end Grown

section Sound

variable {t : IdentTable} (h : t.Sound) {i : Ident} (hi : t.get? i.id = some i)
include h hi

/-- In a sound table, a number belongs to a keyword exactly if its text is the spelling. -/
theorem Sound.keywordOf?_eq_some_iff {k : Keyword} :
    Ident.keywordOf? i.id = some k ↔ i.name = k.spelling := by
  constructor
  · intro hk
    rw [h.reserved.get?_keyword hk] at hi
    exact congrArg Ident.name (Option.some.inj hi).symm
  · intro hname
    obtain ⟨j, hj⟩ := List.mem_iff_getElem?.1 k.mem_all
    have hk : Ident.keywordOf? (1 + j) = some k := Ident.keywordOf?_eq_some_iff.2 ⟨j, rfl, hj⟩
    have hid := h.id_eq_iff (j := ⟨1 + j, k.spelling⟩) hi (h.reserved.get?_keyword hk)
    rwa [hid.2 hname]

theorem Sound.markOf?_eq_some_iff {m : Mark} :
    Ident.markOf? i.id = some m ↔ m ∈ Mark.operators ∧ i.name = m.spelling := by
  constructor
  · intro hm
    obtain ⟨j, -, hj⟩ := Ident.markOf?_eq_some_iff.1 hm
    exact ⟨List.mem_of_getElem? hj, h.reserved.name_of_markOf? hi hm⟩
  · rintro ⟨hmem, hname⟩
    obtain ⟨j, hj⟩ := List.mem_iff_getElem?.1 hmem
    have hm : Ident.markOf? (67 + j) = some m := Ident.markOf?_eq_some_iff.2 ⟨j, rfl, hj⟩
    have hid := h.id_eq_iff (j := ⟨67 + j, m.spelling⟩) hi (h.reserved.get?_mark hm)
    rwa [hid.2 hname]

end Sound

end IdentTable
end Lexeme
