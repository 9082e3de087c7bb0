import Lexeme.Proofs.Ident.Interning
import Lexeme.Proofs.Lexer.Naming
import Lexeme.Proofs.Lexer.SourceText

/-!
# Kinds are told by spellings

A lexer asks the table for the number of a name and takes the kind from that number. In a table
that was only ever given texts with their own hash, this comes to comparing spellings: a word is a
keyword if it is written like one, letter case apart, and an operator is a mark if it is written
like one.
-/

set_option autoImplicit false

namespace Lexeme

open IdentTable Spelling

/-- The kinds of the tokens with an identifier. -/
def Kind.isNamed : Kind → Bool
  | symbol | keyword _ | operator => true
  | mark m => m ∈ Mark.operators
  | _ => false

/-- The bytes that a token is read from tell its kind, the name of its identifier, and how strongly
it binds. -/
structure Token.Classified (source : List UInt8) (t : Token) (i : Ident) : Prop where
  name_eq : i.name = Utf8.lossy (source.map Byte.toLower)
  /-- It is a word or an operator. -/
  reads : startsWord source = true ∨ isOperatorBytes source = true
  keyword_iff (k : Keyword) :
    t.kind = .keyword k ↔ source.map Byte.toLower = Utf8.encode k.spelling
  symbol_iff : t.kind = .symbol ↔ startsWord source = true ∧
    ∀ k : Keyword, source.map Byte.toLower ≠ Utf8.encode k.spelling
  mark_iff (m : Mark) : t.kind = .mark m ↔ m ∈ Mark.operators ∧ source = Utf8.encode m.spelling
  operator_iff : t.kind = .operator ↔ isOperatorBytes source = true ∧
    ∀ m ∈ Mark.operators, source ≠ Utf8.encode m.spelling
  precedence_eq : t.kind ≠ .symbol → t.precedence false = i.precedence

/-! ## Spellings of keywords and marks -/

theorem Keyword.startsWord_spelling (k : Keyword) : startsWord (Utf8.encode k.spelling) = true := by
  cases k <;> rfl

theorem Mark.startsWord_spelling {m : Mark} (h : m ∈ Mark.operators) :
    startsWord (Utf8.encode m.spelling) = false := by
  have hall : ∀ m ∈ Mark.operators, startsWord (Utf8.encode m.spelling) = false := by decide
  exact hall m h

/-! ## Kinds of names -/

namespace NameRole

variable {i : Ident}

theorem word_eq_keyword_iff {k : Keyword} :
    word.kind i = .keyword k ↔ Ident.keywordOf? i.id = some k := by
  rw [kind]
  cases Ident.keywordOf? i.id <;> simp

theorem word_eq_symbol_iff : word.kind i = .symbol ↔ ∀ k, Ident.keywordOf? i.id ≠ some k := by
  rw [kind]
  cases Ident.keywordOf? i.id <;> simp

theorem word_ne_mark (m : Mark) : word.kind i ≠ .mark m := by
  rw [kind]
  cases Ident.keywordOf? i.id <;> exact Kind.noConfusion

theorem word_ne_operator : word.kind i ≠ .operator := by
  rw [kind]
  cases Ident.keywordOf? i.id <;> exact Kind.noConfusion

theorem operator_eq_mark_iff {m : Mark} :
    operator.kind i = .mark m ↔ Ident.markOf? i.id = some m := by
  rw [kind]
  cases Ident.markOf? i.id <;> simp

theorem operator_eq_operator_iff :
    operator.kind i = .operator ↔ ∀ m, Ident.markOf? i.id ≠ some m := by
  rw [kind]
  cases Ident.markOf? i.id <;> simp

theorem operator_ne_keyword (k : Keyword) : operator.kind i ≠ .keyword k := by
  rw [kind]
  cases Ident.markOf? i.id <;> exact Kind.noConfusion

theorem operator_ne_symbol : operator.kind i ≠ .symbol := by
  rw [kind]
  cases Ident.markOf? i.id <;> exact Kind.noConfusion

end NameRole

/-! ## Precedence -/

/-- Without strong spaces, the kind and the identifier decide. -/
theorem Token.precedence_congr {t t' : Token} (hkind : t.kind = t'.kind)
    (hident : t.ident = t'.ident) : t.precedence false = t'.precedence false := by
  have hlevel : t.level? = t'.level? := by rw [level?, level?, identText, identText, hkind, hident]
  rw [precedence, precedence, hlevel]
  rfl

/-- A keyword binds as its identifier does. -/
theorem Token.precedence_word {t : Token} {i : Ident} (hident : t.ident = some i)
    (hkind : t.kind = NameRole.word.kind i) (hne : t.kind ≠ .symbol) :
    t.precedence false = i.precedence := by
  rw [Ident.precedence]
  refine precedence_congr ?_ hident
  rw [hkind, NameRole.kind] at hne ⊢
  cases hk : Ident.keywordOf? i.id with
  | none =>
    rw [hk] at hne
    exact absurd rfl hne
  | some k => rfl

/-- An operator binds as its identifier does, if that is no keyword. -/
theorem Token.precedence_operator {t : Token} {i : Ident} (hident : t.ident = some i)
    (hkind : t.kind = NameRole.operator.kind i) (hnone : Ident.keywordOf? i.id = none) :
    t.precedence false = i.precedence := by
  rw [Ident.precedence, hnone]
  refine precedence_congr ?_ hident
  rw [hkind, NameRole.kind]
  cases Ident.markOf? i.id with
  | none => rfl
  | some m => rfl

/-! ## One token -/

section Names

variable {table : IdentTable} {source : List UInt8} {t : Token} {i : Ident}
  (hsound : table.Sound) (hi : table.get? i.id = some i)
  (hname : i.name = Utf8.lossy (source.map Byte.toLower)) (hident : t.ident = some i)
include hsound hi hname

theorem keywordOf?_iff_spelling (k : Keyword) :
    Ident.keywordOf? i.id = some k ↔ source.map Byte.toLower = Utf8.encode k.spelling := by
  rw [hsound.keywordOf?_eq_some_iff hi, hname, Utf8.lossy_eq_iff k.plain_spelling]

theorem markOf?_iff_spelling (m : Mark) :
    Ident.markOf? i.id = some m ↔
      m ∈ Mark.operators ∧ source.map Byte.toLower = Utf8.encode m.spelling := by
  rw [hsound.markOf?_eq_some_iff hi, hname, Utf8.lossy_eq_iff m.plain_spelling]

include hident

theorem classified_word (hreads : startsWord source = true)
    (hkind : t.kind = NameRole.word.kind i) : t.Classified source i where
  name_eq := hname
  reads := .inl hreads
  keyword_iff k := by
    rw [hkind, NameRole.word_eq_keyword_iff, keywordOf?_iff_spelling hsound hi hname]
  symbol_iff := by
    rw [hkind, NameRole.word_eq_symbol_iff]
    simp only [Ne, keywordOf?_iff_spelling hsound hi hname, hreads, true_and]
  mark_iff m := by
    refine iff_of_false (hkind ▸ NameRole.word_ne_mark m) ?_
    rintro ⟨hm, rfl⟩
    rw [Mark.startsWord_spelling hm] at hreads
    cases hreads
  operator_iff := by
    refine iff_of_false (hkind ▸ NameRole.word_ne_operator) ?_
    rintro ⟨hoperator, -⟩
    rw [startsWord_of_isOperatorBytes hoperator] at hreads
    cases hreads
  precedence_eq := Token.precedence_word hident hkind

theorem classified_operator (hreads : isOperatorBytes source = true)
    (hkind : t.kind = NameRole.operator.kind i) : t.Classified source i := by
  have hlower := Byte.map_toLower_of_isOperator (isOperator_of_mem hreads)
  have hstart := startsWord_of_isOperatorBytes hreads
  have hmark := markOf?_iff_spelling hsound hi hname
  rw [hlower] at hmark
  have hword : ∀ k : Keyword, source.map Byte.toLower ≠ Utf8.encode k.spelling := by
    intro k hk
    rw [← hlower, hk, k.startsWord_spelling] at hstart
    cases hstart
  have hnone : Ident.keywordOf? i.id = none := by
    cases hk : Ident.keywordOf? i.id with
    | none => rfl
    | some k => exact absurd ((keywordOf?_iff_spelling hsound hi hname k).1 hk) (hword k)
  constructor
  · exact hname
  · exact .inr hreads
  · intro k
    exact iff_of_false (hkind ▸ NameRole.operator_ne_keyword k) (hword k)
  · refine iff_of_false (hkind ▸ NameRole.operator_ne_symbol) ?_
    rintro ⟨htrue, -⟩
    rw [hstart] at htrue
    cases htrue
  · intro m
    rw [hkind, NameRole.operator_eq_mark_iff, hmark]
  · rw [hkind, NameRole.operator_eq_operator_iff]
    simp only [Ne, hmark, hreads, true_and, not_and]
  · intro _
    exact Token.precedence_operator hident hkind hnone

end Names

namespace Token.SourceIs

variable {table : IdentTable} {source : List UInt8} {t : Token}

/-- In a sound table, the bytes of a token with an identifier classify it. -/
theorem classified (h : t.SourceIs source table) (hsound : table.Sound) {i : Ident}
    (hi : t.ident = some i) : t.Classified source i := by
  cases h with
  | unnamed hident hdepicts =>
    rw [hident] at hi
    cases hi
  | named j role hident hkind hname hreads hget =>
    rw [hident] at hi
    obtain rfl := Option.some.inj hi
    cases role with
    | word => exact classified_word hsound hget hname hident hreads hkind
    | operator => exact classified_operator hsound hget hname hident hreads hkind

theorem isSome_ident (h : t.SourceIs source table) : t.ident.isSome = t.kind.isNamed := by
  cases h with
  | unnamed hident hdepicts =>
    rw [hident]
    cases hk : t.kind with
    | symbol => rw [hk] at hdepicts; exact hdepicts.elim
    | keyword k => rw [hk] at hdepicts; exact hdepicts.elim
    | operator => rw [hk] at hdepicts; exact hdepicts.elim
    | mark m =>
      rw [hk] at hdepicts
      exact (decide_eq_false hdepicts.1).symm
    | _ => rfl
  | named i role hident hkind hname hreads hget =>
    rw [hident, hkind]
    cases role with
    | word =>
      rw [NameRole.kind]
      cases Ident.keywordOf? i.id <;> rfl
    | operator =>
      rw [NameRole.kind]
      cases hm : Ident.markOf? i.id with
      | none => rfl
      | some m =>
        obtain ⟨j, -, hj⟩ := Ident.markOf?_eq_some_iff.1 hm
        exact (decide_eq_true (List.mem_of_getElem? hj)).symm

end Token.SourceIs

/-! ## Runs -/

namespace Lexer

/-- In a run on an input, every token with an identifier is classified by the bytes it is read
from, and these are the symbols, the keywords, the operators and their marks. -/
structure Classifies {σ : Type} [LineSource σ] (input : List UInt8) (l : Lexer σ)
    (tables : Nat → IdentTable) : Prop where
  ownHashed (k : Nat) : (l.turn tables k).table.OwnHashed
  isSome_ident (k : Nat) :
    (l.turn tables k).token.ident.isSome = (l.turn tables k).token.kind.isNamed
  classified (k : Nat) (i : Ident) : (l.turn tables k).token.ident = some i →
    (l.turn tables k).token.Classified (l.sourceText input tables k) i

theorem classifies_of_within {input : List UInt8} {l : Lexer Text} (h : l.cursor.Within input)
    {tables : Nat → IdentTable} (htables : ∀ k, (tables k).OwnHashed) :
    l.Classifies input tables where
  ownHashed k := (htables k).of_enters (enters_next _ (htables k).sound)
  isSome_ident k := (sourceIs_turn h tables k).isSome_ident
  classified k _ :=
    (sourceIs_turn h tables k).classified
      (enters_next _ (htables k).sound).sound

/-- On every stream and whatever the options, in calls with tables that were only ever given texts
with their own hash: the source bytes decide the kind of a symbol or an operator, its name and its
precedence, and the tables that the calls leave are again such tables. -/
theorem open?_classifies (file : FileId) (stream : ByteStream) (options : Options)
    (h : 0 < options.bufferSize) :
    ∃ l, open? file stream options = .ok l ∧ ∀ tables, (∀ k, (tables k).OwnHashed) →
      l.Classifies stream.bytes tables := by
  refine ⟨_, open?_eq_ok file stream options h, fun tables htables => ?_⟩
  have htext := classifies_of_within (within_ofText file options stream.bytes) htables
  constructor
  · intro k
    rw [table_turn_ofStream]
    exact htext.ownHashed k
  · intro k
    rw [token_turn_ofStream]
    exact htext.isSome_ident k
  · intro k i
    rw [token_turn_ofStream, sourceText_ofStream]
    exact htext.classified k i

/-- A keyword with a capital, a symbol that differs from a keyword by an underscore, and an export
mark in front of a colon. -/
def mixedNames : ByteStream :=
  ⟨[.chunk 73 [70, 32, 105, 95], .interruption, .chunk 102 [42, 58]], .closed⟩

theorem open?_classifies_mixedNames :
    0 < 1 ∧ (∀ _ : Nat, fresh.OwnHashed) ∧
      ∃ l, open? {} mixedNames (Options.withWindow {} 1) = .ok l ∧
        l.Classifies mixedNames.bytes (fun _ => .fresh) ∧
        (List.range 4).map (fun k => (l.sourceText mixedNames.bytes (fun _ => .fresh) k,
            (l.turn (fun _ => .fresh) k).token.kind)) =
          [([73, 70], .keyword .kwIf), ([105, 95, 102], .symbol), ([42], .operator),
            ([58], .mark .colon)] := by
  have hfresh : fresh.OwnHashed := ⟨[], rfl⟩
  have hwindow : 0 < (Options.withWindow {} 1).bufferSize := by decide
  obtain ⟨l, hopen, hclassifies⟩ :=
    open?_classifies {} mixedNames (Options.withWindow {} 1) hwindow
  obtain rfl := Except.ok.inj ((open?_eq_ok _ _ _ hwindow).symm.trans hopen)
  refine ⟨by decide, fun _ => hfresh, _, hopen, hclassifies _ fun _ => hfresh, ?_⟩
  simp only [sourceText_ofStream, token_turn_ofStream]
  decide +kernel

end Lexer
end Lexeme
