import Mathlib.Data.List.TakeWhile
import Lexeme.Proofs.Literal.Extent
import Lexeme.Spelling.Identifier

/-!
# What a piece is spelled with

The name of a piece is the bytes it takes of the line, capitals made small: words begin with a
letter or are a lone underscore, operators are made of operator bytes. Of the pieces without a name,
brackets and separators are written as their kind says. `Piece.Spells` puts this together.
-/

set_option autoImplicit false

namespace Lexeme

theorem Byte.toLower_of_isOperator {b : UInt8} (h : isOperator b = true) : toLower b = b := by
  have hall : operators.all (fun b => toLower b == b) = true := by decide
  exact beq_iff_eq.1 (List.all_eq_true.1 hall b (List.contains_iff_mem.1 h))

theorem Byte.map_toLower_of_isOperator {bytes : List UInt8}
    (h : ∀ b ∈ bytes, isOperator b = true) : bytes.map toLower = bytes := by
  have hid : bytes.map toLower = bytes.map id :=
    List.map_congr_left fun b hb => toLower_of_isOperator (h b hb)
  rw [hid, List.map_id]

namespace Spelling

/-- Whether bytes begin as a word does. -/
def startsWord : List UInt8 → Bool
  | [] => false
  | b :: _ => Byte.isSymbolStart b || b == Byte.underscore

/-- Whether bytes are an operator. -/
def isOperatorBytes (bytes : List UInt8) : Bool := !bytes.isEmpty && bytes.all Byte.isOperator

theorem isOperator_of_mem {bytes : List UInt8} (h : isOperatorBytes bytes = true) :
    ∀ b ∈ bytes, Byte.isOperator b = true := by
  rw [isOperatorBytes, Bool.and_eq_true, List.all_eq_true] at h
  exact h.2

/-- No operator begins as a word. -/
theorem startsWord_of_isOperatorBytes {bytes : List UInt8} (h : isOperatorBytes bytes = true) :
    startsWord bytes = false := by
  cases bytes with
  | nil => rfl
  | cons b rest =>
    have hall : Byte.operators.all (fun b => !startsWord [b]) = true := by decide
    have hb := List.contains_iff_mem.1 (isOperator_of_mem h b List.mem_cons_self)
    exact Bool.not_eq_true' _ ▸ List.all_eq_true.1 hall b hb

/-- A symbol is known by the bytes it takes, capitals made small. -/
theorem Symbol.bytes_scan (hash : IdentHash) (line : List UInt8) :
    (scan hash line).bytes = (line.take (scan hash line).bytes.length).map Byte.toLower := by
  fun_induction scan hash line with
  | case1 hash => rfl
  | case2 hash b rest hb ih => exact congrArg (Byte.toLower b :: ·) ih
  | case3 hash b rest hb hu hc ih =>
    obtain rfl := beq_iff_eq.1 hu
    exact congrArg (Byte.underscore :: ·) ih
  | case4 hash b rest hb hu hc => rfl
  | case5 hash b rest hb hu => rfl

/-! ## Identifiers -/

section Identifier

variable {tail rest word : List UInt8}

theorem Symbol.scan_cons {b : UInt8} (h : Byte.isSymbol b = true) (hash : IdentHash)
    (line : List UInt8) :
    scan hash (b :: line) = cons (Byte.toLower b) (scan (hash.push (Byte.toLower b)) line) := by
  rw [scan, if_pos h]

/-- Letters, digits and the underscores between them are scanned to their end. -/
theorem Symbol.scan_tail (h : isIdentifierTail tail = true) (hrest : meetsSymbol rest = false)
    (hash : IdentHash) :
    ∃ hash', scan hash (tail ++ rest) = ⟨tail.map Byte.toLower, hash', false⟩ := by
  have hend : ∀ hash, scan hash rest = ⟨[], hash, false⟩ := by
    intro hash
    cases rest with
    | nil => rfl
    | cons b rest =>
      obtain ⟨hsymbol, hunderscore⟩ := Bool.or_eq_false_iff.1 hrest
      rw [scan, hsymbol, hunderscore]
      rfl
  fun_induction isIdentifierTail tail generalizing hash with
  | case1 => exact ⟨hash, hend hash⟩
  | case2 b =>
    refine ⟨hash.push (Byte.toLower b), ?_⟩
    rw [List.singleton_append, scan_cons h, hend]
    rfl
  | case3 b c tail hb ih =>
    obtain rfl := beq_iff_eq.1 hb
    obtain ⟨hc, htail⟩ := Bool.and_eq_true_iff.1 h
    obtain ⟨hash', hscan⟩ := ih htail (hash.push (Byte.toLower c))
    refine ⟨hash', ?_⟩
    have hdash : scan hash (Byte.underscore :: c :: (tail ++ rest)) =
        cons Byte.underscore (scan hash (c :: (tail ++ rest))) :=
      (if_neg (by decide)).trans ((if_pos rfl).trans (if_pos hc))
    rw [List.cons_append, List.cons_append, hdash, scan_cons hc, hscan]
    rfl
  | case4 b c tail hb ih =>
    obtain ⟨hb', htail⟩ := Bool.and_eq_true_iff.1 h
    obtain ⟨hash', hscan⟩ := ih htail (hash.push (Byte.toLower b))
    refine ⟨hash', ?_⟩
    rw [List.cons_append, scan_cons hb', hscan]
    rfl

/-- What is scanned to its end is letters, digits and underscores between them. -/
theorem isIdentifierTail_of_length_scan {hash : IdentHash}
    (h : (Symbol.scan hash tail).bytes.length = tail.length) : isIdentifierTail tail = true := by
  fun_induction isIdentifierTail tail generalizing hash with
  | case1 => rfl
  | case2 b =>
    cases hb : Byte.isSymbol b with
    | true => rfl
    | false =>
      rw [Symbol.scan, hb, if_neg Bool.false_ne_true] at h
      split at h
      all_goals cases h
  | case3 b c tail hb ih =>
    have hsymbol : Byte.isSymbol b = false := by
      rw [beq_iff_eq.1 hb]
      decide
    rw [Symbol.scan, hsymbol, if_neg Bool.false_ne_true, if_pos hb, Symbol.continues] at h
    split at h
    · rename_i hc
      rw [Symbol.scan_cons hc] at h
      rw [hc, ih (Nat.succ.inj (Nat.succ.inj h))]
      rfl
    · cases h
  | case4 b c tail hb ih =>
    rw [Symbol.scan, if_neg hb] at h
    split at h
    · rename_i hb'
      rw [hb', ih (Nat.succ.inj h)]
      rfl
    · cases h

/-- Behind a letter or a digit, an identifier ends with one. -/
theorem getLast?_tail {b : UInt8} (hb : Byte.isSymbol b = true)
    (h : isIdentifierTail tail = true) : (b :: tail).getLast?.any Byte.isSymbol = true := by
  fun_induction isIdentifierTail tail generalizing b with
  | case1 => exact hb
  | case2 c => exact h
  | case3 c d tail hc ih =>
    obtain ⟨hd, htail⟩ := Bool.and_eq_true_iff.1 h
    exact ih hd htail
  | case4 c d tail hc ih =>
    obtain ⟨hc', htail⟩ := Bool.and_eq_true_iff.1 h
    exact ih hc' htail

theorem meetsSymbol_of_mem_tail (h : isIdentifierTail tail = true) :
    ∀ b ∈ tail, (Byte.isSymbol b || b == Byte.underscore) = true := by
  fun_induction isIdentifierTail tail with
  | case1 => exact fun _ => nofun
  | case2 b => exact List.forall_mem_singleton.2 (by rw [h]; rfl)
  | case3 b c tail hb ih =>
    obtain ⟨hc, htail⟩ := Bool.and_eq_true_iff.1 h
    refine List.forall_mem_cons.2 ⟨by rw [hb, Bool.or_true], List.forall_mem_cons.2 ⟨?_, ih htail⟩⟩
    rw [hc]
    rfl
  | case4 b c tail hb ih =>
    obtain ⟨hb', htail⟩ := Bool.and_eq_true_iff.1 h
    exact List.forall_mem_cons.2 ⟨by rw [hb']; rfl, ih htail⟩

/-- An identifier: its letter, and what follows. -/
theorem exists_cons_of_isIdentifierBytes (h : isIdentifierBytes word = true) :
    ∃ b tail, word = b :: tail ∧ Byte.isSymbolStart b = true ∧ Byte.isSymbol b = true ∧
      isIdentifierTail tail = true := by
  cases word with
  | nil => cases h
  | cons b tail =>
    obtain ⟨hb, htail⟩ := Bool.and_eq_true_iff.1 h
    exact ⟨b, tail, rfl, hb, by rw [Byte.isSymbol, hb]; rfl, htail⟩

end Identifier

end Spelling

/-- Where an identifier ends, the symbol ends that starts with it. -/
theorem Piece.ofSymbol_append {word rest : List UInt8}
    (h : Spelling.isIdentifierBytes word = true) (hrest : Spelling.meetsSymbol rest = false) :
    ∃ hash, ofSymbol (word ++ rest) =
      { kind := .symbol
        length := word.length
        name := some ⟨.word, word.map Byte.toLower, hash⟩ } := by
  obtain ⟨b, tail, rfl, -, hsymbol, htail⟩ := Spelling.exists_cons_of_isIdentifierBytes h
  obtain ⟨hash, hscan⟩ := Spelling.Symbol.scan_tail htail hrest
    (IdentHash.empty.push (Byte.toLower b))
  have hlength : (b :: tail).length = ((b :: tail).map Byte.toLower).length :=
    (List.length_map Byte.toLower).symm
  refine ⟨hash.finish, ?_⟩
  rw [List.cons_append, ofSymbol, Spelling.Symbol.scan_cons hsymbol, hscan, hlength]
  rfl

/-- The bytes that a name of the role is read from. -/
def NameRole.Reads : NameRole → List UInt8 → Prop
  | word, source => Spelling.startsWord source = true
  | operator, source => Spelling.isOperatorBytes source = true

/-- What the kind of a piece without a name tells of its bytes. -/
def Kind.Depicts : Kind → List UInt8 → Prop
  | mark m, source => m ∉ Mark.operators ∧ source = Utf8.encode m.spelling
  | accent, source => source = [Byte.backtick]
  | symbol, _ | keyword _, _ | operator, _ => False
  | _, _ => True

namespace Piece

/-- The piece is spelled with the bytes. -/
structure Spells (source : List UInt8) (p : Piece) : Prop where
  named : ∀ n, p.name = some n → n.bytes = source.map Byte.toLower ∧ n.role.Reads source
  unnamed : p.name = none → p.kind.Depicts source

theorem spells_of_name {source : List UInt8} {p : Piece} {n : Name} (hname : p.name = some n)
    (hbytes : n.bytes = source.map Byte.toLower) (hreads : n.role.Reads source) :
    p.Spells source where
  named n' hn' := by
    rw [hname] at hn'
    obtain rfl := Option.some.inj hn'
    exact ⟨hbytes, hreads⟩
  unnamed hnone := by
    rw [hname] at hnone
    cases hnone

theorem spells_of_none {source : List UInt8} {p : Piece} (hname : p.name = none)
    (hkind : p.kind.Depicts source) : p.Spells source where
  named n hn := by
    rw [hname] at hn
    cases hn
  unnamed _ := hkind

theorem spells_ofSymbol {b : UInt8} (h : Byte.isSymbolStart b = true) (rest : List UInt8) :
    (ofSymbol (b :: rest)).Spells ((b :: rest).take (ofSymbol (b :: rest)).length) := by
  refine spells_of_name rfl (Spelling.Symbol.bytes_scan _ _) ?_
  obtain ⟨n, hn⟩ := Nat.exists_eq_succ_of_ne_zero (Nat.ne_of_gt (fits_ofSymbol h rest).pos)
  rw [hn]
  change (Byte.isSymbolStart b || b == Byte.underscore) = true
  rw [h]
  rfl

/-- A run of operator bytes is an operator. -/
theorem spells_ofSpelling {bytes source : List UInt8} (hsource : source = bytes)
    (h : Spelling.isOperatorBytes bytes = true) (spaceAfter : Option Nat) :
    (ofSpelling bytes spaceAfter).Spells source := by
  refine spells_of_name rfl ?_ ?_
  · rw [hsource, Byte.map_toLower_of_isOperator (Spelling.isOperator_of_mem h)]
  · rw [hsource]
    exact h

theorem spells_ofOperator {b : UInt8} (h : Byte.isOperator b = true) (rest : List UInt8) :
    (ofOperator (b :: rest)).Spells ((b :: rest).take (ofOperator (b :: rest)).length) := by
  refine spells_ofSpelling ?_ ?_ _
  · exact (List.prefix_iff_eq_take.1 (List.takeWhile_prefix Byte.isOperator)).symm
  · have hall : (Spelling.operatorRun (b :: rest)).all Byte.isOperator = true :=
      List.all_eq_true.2 fun c hc => List.mem_takeWhile_imp hc
    rw [Spelling.isOperatorBytes, hall, Spelling.operatorRun, List.takeWhile_cons_of_pos h]
    rfl

theorem spells_export {line : List UInt8} (h : Spelling.isExportMark line = true) :
    (ofSpelling [Byte.star] (some 0)).Spells (line.take 1) := by
  refine spells_ofSpelling ?_ (by decide) _
  unfold Spelling.isExportMark at h
  split at h
  · rfl
  · rfl
  · cases h

theorem spells_ofUnderscore (rest : List UInt8) :
    (ofUnderscore rest).Spells ((Byte.underscore :: rest).take (ofUnderscore rest).length) := by
  unfold ofUnderscore
  split
  · exact spells_of_none rfl trivial
  · exact spells_of_name rfl rfl rfl

theorem spells_punctuation? {b : UInt8} {rest : List UInt8} {p : Piece}
    (h : punctuation? b rest = some p) : p.Spells ((b :: rest).take p.length) := by
  obtain ⟨rfl, rfl⟩ | ⟨m, hm, hprefix, rfl⟩ := punctuation?_cases h
  · exact spells_of_none rfl rfl
  · exact spells_of_none rfl ⟨hm, (List.prefix_iff_eq_take.1 hprefix).symm⟩

theorem spells_number (line source : List UInt8) : (Number.scan line).Spells source := by
  refine spells_of_none rfl ?_
  have hkind := isNumber_scan line
  cases hk : (Number.scan line).kind with
  | symbol => rw [hk] at hkind; cases hkind
  | keyword k => rw [hk] at hkind; cases hkind
  | operator => rw [hk] at hkind; cases hkind
  | mark m => rw [hk] at hkind; cases hkind
  | accent => rw [hk] at hkind; cases hkind
  | _ => trivial

/-- Every piece is spelled with the bytes it takes. -/
theorem spells_ofBytes (ctx : Escape.Context) (b : UInt8) (rest : List UInt8) :
    (ofBytes ctx b rest).Spells ((b :: rest).take (ofBytes ctx b rest).length) := by
  cases way ctx b rest with
  | symbol hb h => rw [h]; exact spells_ofSymbol hb rest
  | exportMark hm h => rw [h]; exact spells_export hm
  | punctuation p hp h => rw [h]; exact spells_punctuation? hp
  | underscore hb h =>
    rw [h, hb]
    exact spells_ofUnderscore rest
  | character h => rw [h]; exact spells_of_none rfl trivial
  | number hb h => rw [h]; exact spells_number _ _
  | operator hb h => rw [h]; exact spells_ofOperator hb rest
  | stray h => rw [h]; exact spells_of_none rfl trivial

end Piece
end Lexeme
