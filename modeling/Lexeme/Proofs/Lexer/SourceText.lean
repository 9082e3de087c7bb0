import Lexeme.Proofs.Ident.Interning
import Lexeme.Proofs.Literal.Spelled
import Lexeme.Proofs.Lexer.Progress

/-!
# The bytes a token is read from

A token is read from the bytes between the offset it starts at and the one that its call leads to.
These bytes make up the name of its identifier, and brackets, separators and accents are written as
their kind says.
-/

set_option autoImplicit false

namespace Lexeme

theorem Cursor.Within.take_drop {input : List UInt8} {c : Cursor Text} (h : c.Within input)
    {n : Nat}
    (hn : n ≤ c.rest.length) : (input.drop c.offset).take n = c.rest.take n := by
  rw [h.drop_offset, List.take_append_of_le_length hn]

/-- What the bytes of a token tell of it: it has an identifier, named by the bytes and with a kind
by its number, or its kind depicts them. -/
inductive Token.SourceIs (source : List UInt8) (table : IdentTable) (t : Token) : Prop
  | unnamed (hident : t.ident = none) (hkind : t.kind.Depicts source)
  | named (i : Ident) (role : NameRole) (hident : t.ident = some i) (hkind : t.kind = role.kind i)
      (hname : i.name = Utf8.lossy (source.map Byte.toLower)) (hreads : role.Reads source)
      (hget : table.get? i.id = some i)

theorem Token.SourceIs.congr {source : List UInt8} {table : IdentTable} {t t' : Token}
    (h : t.SourceIs source table) (hident : t'.ident = t.ident) (hkind : t'.kind = t.kind) :
    t'.SourceIs source table := by
  cases h with
  | unnamed hnone hdepicts => exact .unnamed (hident.trans hnone) (hkind ▸ hdepicts)
  | named i role hsome hrole hname hreads hget =>
    exact .named i role (hident.trans hsome) (hkind.trans hrole) hname hreads hget

theorem Piece.Spells.sourceIs {source : List UInt8} {p : Piece} (h : p.Spells source)
    (table : IdentTable) : (p.toToken table).1.SourceIs source (p.toToken table).2 := by
  cases hname : p.name with
  | none =>
    have htoken : (p.toToken table).1.ident = none ∧ (p.toToken table).1.kind = p.kind := by
      rw [toToken, hname]
      exact ⟨rfl, rfl⟩
    refine .unnamed htoken.1 ?_
    rw [htoken.2]
    exact h.unnamed hname
  | some n =>
    obtain ⟨hbytes, hreads⟩ := h.named n hname
    rw [toToken, hname]
    refine .named (table.internBytes n.bytes n.hash).1 n.role rfl rfl ?_ hreads ?_
    · rw [IdentTable.name_internBytes, hbytes]
    · exact table.get?_internBytes n.bytes n.hash

namespace TokenRead

variable {σ : Type} [LineSource σ]

/-- A token that is no piece has no identifier and a kind that depicts nothing. -/
theorem sourceIs_scan (options : Options) (c : Cursor σ) (table : IdentTable) :
    (∀ source, (scan options c table).token.SourceIs source (scan options c table).table) ∨
      ∃ n, n ≤ c.rest.length ∧ (scan options c table).cursor = c.advance n ∧
        (scan options c table).token.SourceIs (c.rest.take n) (scan options c table).table := by
  cases way c with
  | nil h =>
    rw [scan_of_nil options h]
    exact .inl fun source => .unnamed rfl trivial
  | comment rest h =>
    rw [scan_of_hash options h]
    exact .inl fun source => .unnamed rfl trivial
  | triple o ho ht =>
    rw [scan_of_triple options ho ht]
    exact .inl fun source => .unnamed rfl trivial
  | string o ho ht =>
    rw [scan_of_string options ho ht]
    exact .inl fun source => .unnamed rfl trivial
  | bytes b rest h hb ho =>
    have hfits := Piece.fits_ofBytes (context options c) b rest
    have hspells := Piece.spells_ofBytes (context options c) b rest
    rw [← h] at hfits hspells
    rw [scan_of_bytes options h hb ho]
    exact .inr ⟨_, hfits.le, rfl, hspells.sourceIs table⟩

end TokenRead

namespace Lexer

/-- The bytes of the input that the token of a call is read from. -/
def sourceText {σ : Type} [LineSource σ] (input : List UInt8) (l : Lexer σ)
    (tables : Nat → IdentTable) (k : Nat) : List UInt8 :=
  (input.drop (l.reached tables k).tokenOffset).take
    ((l.reached tables (k + 1)).cursor.offset - (l.reached tables k).tokenOffset)

theorem sourceIs_turn {input : List UInt8} {l : Lexer Text} (h : l.cursor.Within input)
    (tables : Nat → IdentTable) (k : Nat) :
    (l.turn tables k).token.SourceIs (l.sourceText input tables k) (l.turn tables k).table := by
  have hblank := (passes_blank (within_reached h tables k)).within
  rcases TokenRead.sourceIs_scan (l.reached tables k).options (l.reached tables k).blank.cursor
    (tables k) with hall | ⟨n, hle, hcursor, hsource⟩
  · exact (hall _).congr rfl rfl
  · have hoffset : (l.reached tables (k + 1)).cursor.offset =
        (l.reached tables k).tokenOffset + n := by
      refine (congrArg Cursor.offset hcursor).trans ?_
      exact (Nat.add_assoc _ _ _).symm
    rw [sourceText, hoffset, Nat.add_sub_cancel_left, tokenOffset, hblank.take_drop hle]
    exact hsource.congr rfl rfl

section Sides

variable (file : FileId) (stream : ByteStream) (options : Options) (h : 0 < options.bufferSize)
  (tables : Nat → IdentTable) (k : Nat)

theorem table_turn_ofStream :
    (((ofStream file stream options h).map SoundReader.toReader).turn tables k).table =
      ((ofText file options stream.bytes).turn tables k).table := by
  rw [← map_toText_ofStream file stream options h, turn_map, turn_map]
  rfl

theorem sourceText_ofStream (input : List UInt8) :
    ((ofStream file stream options h).map SoundReader.toReader).sourceText input tables k =
      (ofText file options stream.bytes).sourceText input tables k := by
  rw [sourceText, sourceText, tokenOffset_reached_ofStream, offset_reached_ofStream]

end Sides

end Lexer
end Lexeme
