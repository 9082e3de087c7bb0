import Mathlib.Data.List.TakeWhile
import Lexeme.Proofs.Ident.Table
import Lexeme.Proofs.Lexer.TokenRead

/-!
# Names and tables

A scanner hands over every name with the hash of its bytes, computed on the way or not, so what a
lexer enters into a table keeps the table sound. In turn the table decides nothing about a token
but the number of its identifier.
-/

set_option autoImplicit false

namespace Lexeme

/-! ## Hashes of names -/

theorem Byte.toLower_ne_underscore {b : UInt8} (h : isSymbol b = true) :
    toLower b ≠ underscore := by
  intro heq
  rw [toLower] at heq
  split at heq
  · rename_i hupper
    have hb : b = 63 := by
      have hsub : b + 32 - 32 = underscore - 32 := by rw [heq]
      rwa [UInt8.add_sub_cancel] at hsub
    subst hb
    exact absurd hupper (by decide)
  · subst heq
    exact absurd h (by decide)

theorem IdentHash.ofBytes_of_not_mem {bytes : List UInt8} (h : Byte.underscore ∉ bytes) :
    ofBytes bytes = (empty.pushAll bytes).finish := by
  have hfilter : bytes.filter (· != Byte.underscore) = bytes := by
    rw [List.filter_eq_self]
    intro b hb
    rw [bne_iff_ne]
    rintro rfl
    exact h hb
  rw [ofBytes, hfilter]

namespace Spelling

/-- The hash computed along a symbol is that of its spelling without underscores. -/
theorem Symbol.hash_scan (hash : IdentHash) (line : List UInt8) :
    (scan hash line).hash =
      hash.pushAll ((scan hash line).bytes.filter (· != Byte.underscore)) := by
  fun_induction scan hash line with
  | case1 hash => rfl
  | case2 hash b rest hb ih =>
    have hne : (Byte.toLower b != Byte.underscore) = true :=
      bne_iff_ne.2 (Byte.toLower_ne_underscore hb)
    change (scan _ rest).hash = _
    rw [ih, cons]
    simp only [List.filter_cons, hne, if_true]
    rfl
  | case3 hash b rest hb hu hc ih =>
    obtain rfl := beq_iff_eq.1 hu
    exact ih
  | case4 hash b rest hb hu hc => rfl
  | case5 hash b rest hb hu => rfl

theorem underscore_not_mem_operatorRun (line : List UInt8) :
    Byte.underscore ∉ operatorRun line := by
  intro hmem
  have hop := List.mem_takeWhile_imp hmem
  exact absurd hop (by decide)

end Spelling

namespace Piece

/-- If the piece has a name, it comes with the hash of its bytes. -/
def Faithful (p : Piece) : Prop := ∀ n, p.name = some n → n.hash = IdentHash.ofBytes n.bytes

theorem faithful_of_none {p : Piece} (h : p.name = none) : p.Faithful := by
  intro n hn
  rw [h] at hn
  cases hn

theorem faithful_ofSymbol (line : List UInt8) : (ofSymbol line).Faithful := by
  intro n hn
  obtain rfl := Option.some.inj hn
  change (Spelling.Symbol.scan .empty line).hash.finish = _
  rw [Spelling.Symbol.hash_scan]
  rfl

theorem faithful_ofSpelling {bytes : List UInt8} (h : Byte.underscore ∉ bytes)
    (spaceAfter : Option Nat) : (ofSpelling bytes spaceAfter).Faithful := by
  intro n hn
  obtain rfl := Option.some.inj hn
  exact (IdentHash.ofBytes_of_not_mem h).symm

theorem faithful_ofUnderscore (rest : List UInt8) : (ofUnderscore rest).Faithful := by
  unfold ofUnderscore
  split
  · exact faithful_of_none rfl
  · intro n hn
    obtain rfl := Option.some.inj hn
    rfl

theorem name_punctuation? {b : UInt8} {rest : List UInt8} {p : Piece}
    (h : punctuation? b rest = some p) : p.name = none := by
  obtain ⟨-, rfl⟩ | ⟨m, -, -, rfl⟩ := punctuation?_cases h
  · rfl
  · rfl

theorem faithful_ofBytes (ctx : Escape.Context) (b : UInt8) (rest : List UInt8) :
    (ofBytes ctx b rest).Faithful := by
  cases way ctx b rest with
  | symbol hb h => rw [h]; exact faithful_ofSymbol _
  | exportMark hm h => rw [h]; exact faithful_ofSpelling (by decide) _
  | punctuation p hp h => rw [h]; exact faithful_of_none (name_punctuation? hp)
  | underscore hb h => rw [h]; exact faithful_ofUnderscore rest
  | character h => rw [h]; exact faithful_of_none rfl
  | number hb h => rw [h]; exact faithful_of_none rfl
  | operator hb h =>
    rw [h]
    exact faithful_ofSpelling (Spelling.underscore_not_mem_operatorRun _) _
  | stray h => rw [h]; exact faithful_of_none rfl

end Piece

/-! ## What is entered -/

open IdentTable

theorem IdentTable.internBytes_eq (t : IdentTable) {bytes : List UInt8} {hash : UInt32}
    (h : hash = IdentHash.ofBytes bytes) :
    t.internBytes bytes hash =
      t.intern (Utf8.lossy bytes) (IdentHash.ofText (Utf8.lossy bytes)) := by
  unfold internBytes
  dsimp only
  split
  · rename_i hvalid
    rw [h, IdentHash.ofText, Utf8.encode_lossy hvalid]
  · rfl

theorem Piece.enters_toToken {p : Piece} (hp : p.Faithful) {t : IdentTable} (ht : t.Sound) :
    t.Enters (p.toToken t).1.ident.toList (p.toToken t).2 := by
  unfold toToken
  dsimp only
  split
  · exact ht.enters_nil
  · rename_i n hn
    rw [internBytes_eq t (hp n hn)]
    exact ht.enters_intern _

theorem TokenRead.enters_scan {σ : Type} [LineSource σ] (options : Options) (c : Cursor σ)
    {t : IdentTable} (ht : t.Sound) :
    t.Enters (scan options c t).token.ident.toList (scan options c t).table := by
  cases way c with
  | nil h =>
    rw [scan_of_nil options h]
    exact ht.enters_nil
  | comment rest h =>
    rw [scan_of_hash options h]
    exact ht.enters_nil
  | triple o ho htriple =>
    rw [scan_of_triple options ho htriple]
    exact ht.enters_nil
  | string o ho htriple =>
    rw [scan_of_string options ho htriple]
    have hname : (Piece.ofString (context options c) o c.rest).name = none := rfl
    exact Piece.enters_toToken (Piece.faithful_of_none hname) ht
  | bytes b rest h hb ho =>
    rw [scan_of_bytes options h hb ho]
    exact Piece.enters_toToken (Piece.faithful_ofBytes _ _ _) ht

theorem Lexer.enters_next {σ : Type} [LineSource σ] (l : Lexer σ) {t : IdentTable}
    (ht : t.Sound) : t.Enters (l.next t).token.ident.toList (l.next t).table :=
  TokenRead.enters_scan l.options l.blank.cursor ht

/-! ## What the table decides -/

/-- The token without the number of its identifier. -/
def Token.unnumbered (t : Token) : Token :=
  { t with ident := t.ident.map fun i => { i with id := 0 } }

theorem Piece.unnumbered_toToken (p : Piece) {t : IdentTable} (h : fresh.Extends t) :
    (p.toToken t).1.unnumbered = (p.toToken fresh).1.unnumbered := by
  unfold toToken
  dsimp only
  split
  · rfl
  · rename_i n hn
    simp only [Token.unnumbered, kind_internBytes h, Option.map_some, name_internBytes]

namespace TokenRead

variable {σ : Type} [LineSource σ] (options : Options) (c : Cursor σ)

theorem scan_table (t t' : IdentTable) :
    (scan options c t).cursor = (scan options c t').cursor ∧
      (scan options c t).pendingIndent = (scan options c t').pendingIndent ∧
      (scan options c t).diagnostics = (scan options c t').diagnostics := by
  cases way c with
  | nil h =>
    rw [scan_of_nil options h, scan_of_nil options h]
    exact ⟨rfl, rfl, rfl⟩
  | comment rest h =>
    rw [scan_of_hash options h, scan_of_hash options h]
    exact ⟨rfl, rfl, rfl⟩
  | triple o ho ht =>
    rw [scan_of_triple options ho ht, scan_of_triple options ho ht]
    exact ⟨rfl, rfl, rfl⟩
  | string o ho ht =>
    rw [scan_of_string options ho ht, scan_of_string options ho ht]
    exact ⟨rfl, rfl, rfl⟩
  | bytes b rest h hb ho =>
    rw [scan_of_bytes options h hb ho, scan_of_bytes options h hb ho]
    exact ⟨rfl, rfl, rfl⟩

theorem unnumbered_scan {t : IdentTable} (h : fresh.Extends t) :
    (scan options c t).token.unnumbered = (scan options c fresh).token.unnumbered := by
  cases way c with
  | nil hrest => rw [scan_of_nil options hrest, scan_of_nil options hrest]; rfl
  | comment rest hrest => rw [scan_of_hash options hrest, scan_of_hash options hrest]; rfl
  | triple o ho ht => rw [scan_of_triple options ho ht, scan_of_triple options ho ht]; rfl
  | string o ho ht =>
    rw [scan_of_string options ho ht, scan_of_string options ho ht]
    exact (Piece.ofString (context options c) o c.rest).unnumbered_toToken h
  | bytes b rest hrest hb ho =>
    rw [scan_of_bytes options hrest hb ho, scan_of_bytes options hrest hb ho]
    exact (Piece.ofBytes (context options c) b rest).unnumbered_toToken h

end TokenRead

namespace Lexer

variable {σ : Type} [LineSource σ] (l : Lexer σ)

/-- A table changes nothing of a step but the token and the table left. -/
theorem next_table (t t' : IdentTable) :
    (l.next t).lexer = (l.next t').lexer ∧ (l.next t).diagnostics = (l.next t').diagnostics := by
  obtain ⟨hcursor, hpending, hdiags⟩ := TokenRead.scan_table l.options l.blank.cursor t t'
  simp only [next, hcursor, hpending, hdiags, and_self]

theorem unnumbered_next {t : IdentTable} (h : fresh.Extends t) :
    (l.next t).token.unnumbered = (l.next fresh).token.unnumbered := by
  have hread := TokenRead.unnumbered_scan l.options l.blank.cursor h
  simp only [Token.unnumbered, Token.mk.injEq] at hread
  simp only [next, Token.unnumbered, hread]

/-- The table a step starts with shows in the number of an identifier only. -/
theorem next_of_sound {t t' : IdentTable} (h : t.Sound) (h' : t'.Sound) :
    (l.next t').token.unnumbered = (l.next t).token.unnumbered ∧
      (l.next t').lexer = (l.next t).lexer ∧
      (l.next t').diagnostics = (l.next t).diagnostics :=
  ⟨(l.unnumbered_next h'.reserved).trans (l.unnumbered_next h.reserved).symm, l.next_table t' t⟩

end Lexer
end Lexeme
