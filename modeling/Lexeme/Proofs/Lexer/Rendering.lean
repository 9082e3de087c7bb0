import Lexeme.Proofs.Lexer.SourceText

/-!
# Tokens as they were written

The text of a symbol, a keyword, an operator, a bracket, a separator or an accent is what it was
read from, capitals made small. There is one exception: the bracket with a colon behind it comes
last in the order of the marks, behind those that have an identifier, so that its text is taken from
an identifier it does not have.
-/

set_option autoImplicit false

namespace Lexeme

open IdentTable

/-- The kinds whose tokens are known by how they are written. -/
def Kind.isSpelled : Kind → Bool
  | symbol | keyword _ | operator | mark _ | accent => true
  | _ => false

/-! ## Tables grow -/

theorem IdentTable.extends_internBytes (t : IdentTable) (bytes : List UInt8) (hash : UInt32) :
    t.Extends (t.internBytes bytes hash).2 := by
  unfold internBytes
  dsimp only
  split
  · exact extends_intern t _ _
  · exact extends_intern t _ _

theorem Piece.extends_toToken (p : Piece) (t : IdentTable) : t.Extends (p.toToken t).2 := by
  unfold toToken
  dsimp only
  split
  · exact .refl t
  · exact t.extends_internBytes _ _

theorem TokenRead.extends_scan {σ : Type} [LineSource σ] (options : Options) (c : Cursor σ)
    (t : IdentTable) : t.Extends (scan options c t).table := by
  cases way c with
  | nil h =>
    rw [scan_of_nil options h]
    exact .refl t
  | comment rest h =>
    rw [scan_of_hash options h]
    exact .refl t
  | triple o ho ht =>
    rw [scan_of_triple options ho ht]
    exact .refl t
  | string o ho ht =>
    rw [scan_of_string options ho ht]
    exact (Piece.ofString (context options c) o c.rest).extends_toToken t
  | bytes b rest h hb ho =>
    rw [scan_of_bytes options h hb ho]
    exact (Piece.ofBytes (context options c) b rest).extends_toToken t

/-! ## One token -/

namespace Token

variable {t : Token}

theorem text_of_accent (h : t.kind = .accent) : t.text = "`" := by
  rw [text, h]
  rfl

theorem text_of_mark {m : Mark} (h : t.kind = .mark m) :
    t.text = if m.index ≤ Mark.colon.index then m.spelling else t.identText := by
  rw [text, h]

end Token

/-- Marks are written in bytes that have no capitals. -/
theorem Mark.lossy_spelling (m : Mark) :
    Utf8.lossy ((Utf8.encode m.spelling).map Byte.toLower) = m.spelling := by
  cases m <;> decide +kernel

namespace Token.SourceIs

variable {table : IdentTable} {source : List UInt8} {t : Token}

/-- Among the marks without an identifier, only those up to the single colon show their spelling. -/
theorem text_of_unnamed {m : Mark} (hident : t.ident = none) (hkind : t.kind = .mark m)
    (hm : m ∉ Mark.operators) (hsource : source = Utf8.encode m.spelling) :
    t.text = Utf8.lossy (source.map Byte.toLower) ↔ m ≠ .bracketLeftColon := by
  have hempty : t.identText = "" := by
    rw [identText, hident]
    rfl
  rw [text_of_mark hkind, hempty, hsource, m.lossy_spelling]
  revert hm
  cases m <;> decide

/-- A token with an identifier shows its name. -/
theorem text_of_named {i : Ident} {role : NameRole} (hident : t.ident = some i)
    (hkind : t.kind = role.kind i) (hget : table.get? i.id = some i)
    (htable : fresh.Extends table) : t.text = i.name ∧ t.kind ≠ .mark .bracketLeftColon := by
  have hname : t.identText = i.name := by
    rw [identText, hident]
    rfl
  cases role with
  | word =>
    rw [NameRole.kind] at hkind
    cases hk : Ident.keywordOf? i.id with
    | none =>
      rw [hk] at hkind
      rw [text, hkind]
      exact ⟨hname, Kind.noConfusion⟩
    | some k =>
      rw [hk] at hkind
      rw [text, hkind]
      exact ⟨hname, Kind.noConfusion⟩
  | operator =>
    rw [NameRole.kind] at hkind
    cases hm : Ident.markOf? i.id with
    | none =>
      rw [hm] at hkind
      rw [text, hkind]
      exact ⟨hname, Kind.noConfusion⟩
    | some m =>
      rw [hm] at hkind
      obtain ⟨j, -, hj⟩ := Ident.markOf?_eq_some_iff.1 hm
      constructor
      · rw [text_of_mark hkind, hname, htable.name_of_markOf? hget hm, ite_self]
      · rw [hkind]
        rintro ⟨⟩
        exact absurd (List.mem_of_getElem? hj) (by decide)

/-- Tokens show the bytes they are read from, but for one kind. -/
theorem text_eq_iff (h : t.SourceIs source table) (htable : fresh.Extends table)
    (hspelled : t.kind.isSpelled = true) :
    t.text = Utf8.lossy (source.map Byte.toLower) ↔ t.kind ≠ .mark .bracketLeftColon := by
  cases h with
  | unnamed hident hdepicts =>
    cases hk : t.kind with
    | symbol => rw [hk] at hdepicts; exact hdepicts.elim
    | keyword k => rw [hk] at hdepicts; exact hdepicts.elim
    | operator => rw [hk] at hdepicts; exact hdepicts.elim
    | mark m =>
      rw [hk] at hdepicts
      obtain ⟨hm, hsource⟩ := hdepicts
      rw [text_of_unnamed hident hk hm hsource, Ne, Ne, Kind.mark.injEq]
    | accent =>
      rw [hk] at hdepicts
      obtain rfl : source = [Byte.backtick] := hdepicts
      rw [text_of_accent hk]
      decide
    | _ => rw [hk] at hspelled; cases hspelled
  | named i role hident hkind hname hreads hget =>
    obtain ⟨htext, hne⟩ := text_of_named hident hkind hget htable
    exact iff_of_true (htext.trans hname) hne

/-- The bracket with a colon behind it shows nothing. -/
theorem text_of_bracketLeftColon (h : t.SourceIs source table) (htable : fresh.Extends table)
    (hkind : t.kind = .mark .bracketLeftColon) :
    source = Utf8.encode "[:" ∧ t.text = "" := by
  cases h with
  | unnamed hident hdepicts =>
    rw [hkind] at hdepicts
    refine ⟨hdepicts.2, ?_⟩
    rw [text_of_mark hkind, identText, hident]
    rfl
  | named i role hident hrole hname hreads hget =>
    exact absurd hkind (text_of_named hident hrole hget htable).2

end Token.SourceIs

/-! ## Runs -/

namespace Lexer

/-- In a run on an input, tokens show the bytes they are read from, but for one kind. -/
structure Renders {σ : Type} [LineSource σ] (input : List UInt8) (l : Lexer σ)
    (tables : Nat → IdentTable) : Prop where
  grows (k : Nat) : fresh.Extends (l.turn tables k).table
  text_eq_iff (k : Nat) : (l.turn tables k).token.kind.isSpelled = true →
    ((l.turn tables k).token.text =
        Utf8.lossy ((l.sourceText input tables k).map Byte.toLower) ↔
      (l.turn tables k).token.kind ≠ .mark .bracketLeftColon)
  /-- The kind that is left out shows nothing. -/
  exception (k : Nat) : (l.turn tables k).token.kind = .mark .bracketLeftColon →
    l.sourceText input tables k = Utf8.encode "[:" ∧ (l.turn tables k).token.text = ""

theorem renders_of_within {input : List UInt8} {l : Lexer Text} (h : l.cursor.Within input)
    {tables : Nat → IdentTable} (htables : ∀ k, fresh.Extends (tables k)) :
    l.Renders input tables := by
  have hgrows : ∀ k, fresh.Extends (l.turn tables k).table :=
    fun k => (htables k).trans (TokenRead.extends_scan _ _ (tables k))
  constructor
  · exact hgrows
  · exact fun k => (sourceIs_turn h tables k).text_eq_iff (hgrows k)
  · exact fun k => (sourceIs_turn h tables k).text_of_bracketLeftColon (hgrows k)

/-- On every stream, whatever the options and whatever has been entered in the tables: a symbol, a
keyword, an operator, a bracket, a separator or an accent shows the bytes it is read from, capitals
made small, exactly if it is not the bracket with a colon behind it, which shows nothing. -/
theorem open?_renders (file : FileId) (stream : ByteStream) (options : Options)
    (h : 0 < options.bufferSize) :
    ∃ l, open? file stream options = .ok l ∧ ∀ tables, (∀ k, fresh.Extends (tables k)) →
      l.Renders stream.bytes tables := by
  refine ⟨_, open?_eq_ok file stream options h, fun tables htables => ?_⟩
  have htext := renders_of_within (within_ofText file options stream.bytes) htables
  constructor
  · intro k
    rw [table_turn_ofStream]
    exact htext.grows k
  · intro k
    rw [token_turn_ofStream, sourceText_ofStream]
    exact htext.text_eq_iff k
  · intro k
    rw [token_turn_ofStream, sourceText_ofStream]
    exact htext.exception k

/-- A bracket with a dot, a keyword with capitals, a word that is no UTF-8, a range, an accent. -/
def dottedWords : ByteStream :=
  ⟨[.chunk 91 [46, 32, 86, 97], .interruption, .chunk 82 [32, 69, 255, 46, 46, 96]], .closed⟩

theorem open?_renders_dottedWords :
    0 < 1 ∧ (∀ _ : Nat, fresh.Extends fresh) ∧
      ∃ l, open? {} dottedWords (Options.withWindow {} 1) = .ok l ∧
        l.Renders dottedWords.bytes (fun _ => .fresh) ∧
        (List.range 5).map (fun k => (l.turn (fun _ => .fresh) k).token.text) =
          ["[.", "var", "e\uFFFD", "..", "`"] := by
  have hwindow : 0 < (Options.withWindow {} 1).bufferSize := by decide
  obtain ⟨l, hopen, hrenders⟩ := open?_renders {} dottedWords (Options.withWindow {} 1) hwindow
  obtain rfl := Except.ok.inj ((open?_eq_ok _ _ _ hwindow).symm.trans hopen)
  refine ⟨by decide, fun _ => .refl _, _, hopen, hrenders _ fun _ => .refl _, ?_⟩
  simp only [token_turn_ofStream]
  decide +kernel

/-- A bracket and a colon are one token, and it does not show them. -/
theorem open?_bracketLeftColon_text :
    ∃ l, open? {} (.ofBytes (Utf8.encode "[:")) {} = .ok l ∧
      (l.turn (fun _ => .fresh) 0).token.kind = .mark .bracketLeftColon ∧
      l.sourceText (Utf8.encode "[:") (fun _ => .fresh) 0 = Utf8.encode "[:" ∧
      (l.turn (fun _ => .fresh) 0).token.text = "" ∧
      (l.turn (fun _ => .fresh) 0).token.text ≠
        Utf8.lossy ((l.sourceText (Utf8.encode "[:") (fun _ => .fresh) 0).map Byte.toLower) := by
  refine ⟨_, open?_eq_ok {} _ {} (by decide), ?_⟩
  simp only [token_turn_ofStream, sourceText_ofStream]
  decide +kernel

end Lexer
end Lexeme
