import Mathlib.Data.Bool.AllAny
import Lexeme.Proofs.Literal.Extent

/-!
# Digit runs and suffixes

The two ends of a number: digits in groups, and a suffix that declares a kind. What may be written
is stated as relations, on their own and not through the scanners; each scanner then takes exactly
the texts of its relation.
-/

set_option autoImplicit false

namespace Lexeme

/-- The line starts with one of the bytes, or it is empty. -/
def HeadIn (bytes line : List UInt8) : Prop := ∀ b, line.head? = some b → b ∈ bytes

theorem headIn_cons {bytes rest : List UInt8} {b : UInt8} (h : b ∈ bytes) :
    HeadIn bytes (b :: rest) := by
  rintro c hc
  obtain rfl := Option.some.inj hc
  exact h

theorem HeadIn.mono {bytes bytes' line : List UInt8} (h : HeadIn bytes line)
    (hsub : ∀ b ∈ bytes, b ∈ bytes') : HeadIn bytes' line :=
  fun b hb => hsub b (h b hb)

theorem append_prefix_of_drop {front more line : List UInt8} (h : front <+: line)
    (hmore : more <+: line.drop front.length) : front ++ more <+: line := by
  obtain ⟨rest, rfl⟩ := h
  rw [List.drop_left] at hmore
  exact (List.prefix_append_right_inj _).2 hmore

/-! ## Digit runs -/

namespace DigitRun

/-- Digits of a class, one at least, with single underscores between them. -/
inductive Grouped (isDigit : UInt8 → Bool) : List UInt8 → Prop
  | single {b : UInt8} (h : isDigit b = true) : Grouped isDigit [b]
  | digit {b : UInt8} {text : List UInt8} (h : isDigit b = true) (ht : Grouped isDigit text) :
      Grouped isDigit (b :: text)
  | group {b : UInt8} {text : List UInt8} (h : isDigit b = true) (ht : Grouped isDigit text) :
      Grouped isDigit (b :: Byte.underscore :: text)

/-- A run cannot go on with the line. -/
def Stops (isDigit : UInt8 → Bool) (line : List UInt8) : Prop :=
  ∀ b, line.head? = some b → isDigit b = false ∧ b ≠ Byte.underscore

variable {isDigit : UInt8 → Bool}

theorem Grouped.exists_cons {text : List UInt8} (h : Grouped isDigit text) :
    ∃ b rest, text = b :: rest ∧ isDigit b = true := by
  cases h with
  | single h => exact ⟨_, _, rfl, h⟩
  | digit h _ => exact ⟨_, _, rfl, h⟩
  | group h _ => exact ⟨_, _, rfl, h⟩

theorem scanFrom_of_stops {line : List UInt8} (h : Stops isDigit line) (afterDigit : Bool) :
    scanFrom isDigit afterDigit line = ⟨[], false⟩ := by
  cases line with
  | nil => rfl
  | cons b rest =>
    obtain ⟨hb, hu⟩ := h b rfl
    rw [scanFrom, if_neg (by simp [hb]), if_neg (by simp [hu])]

/-- A run of digits is scanned whole, if it cannot go on behind. -/
theorem Grouped.scanFrom_append (hunder : isDigit Byte.underscore = false) {text : List UInt8}
    (h : Grouped isDigit text) {line : List UInt8} (hline : Stops isDigit line)
    (afterDigit : Bool) : scanFrom isDigit afterDigit (text ++ line) = ⟨text, false⟩ := by
  induction h generalizing afterDigit with
  | single hb =>
    rw [List.singleton_append, scanFrom, if_pos hb, scanFrom_of_stops hline]
    rfl
  | digit hb ht ih =>
    rw [List.cons_append, scanFrom, if_pos hb, ih]
    rfl
  | group hb ht ih =>
    obtain ⟨c, rest, rfl, hc⟩ := ht.exists_cons
    rw [List.cons_append, List.cons_append, scanFrom, if_pos hb, scanFrom,
      if_neg (by simp [hunder]), if_pos (by simp), if_pos (by simpa [continues] using hc), ih]
    rfl

theorem Grouped.scan_append (hunder : isDigit Byte.underscore = false) {text : List UInt8}
    (h : Grouped isDigit text) {line : List UInt8} (hline : Stops isDigit line) :
    scan isDigit (text ++ line) = ⟨text, false⟩ :=
  h.scanFrom_append hunder hline false

/-- A scanned run is the front of its line. -/
theorem scanFrom_prefix (isDigit : UInt8 → Bool) (afterDigit : Bool) (line : List UInt8) :
    (scanFrom isDigit afterDigit line).text <+: line := by
  fun_induction scanFrom isDigit afterDigit line with
  | case1 afterDigit => exact List.nil_prefix
  | case2 afterDigit b rest hb ih => exact (List.prefix_cons_inj b).2 ih
  | case3 afterDigit b rest hb hu hc ih => exact (List.prefix_cons_inj b).2 ih
  | case4 afterDigit b rest hb hu hc => exact List.nil_prefix
  | case5 afterDigit b rest hb hu => exact List.nil_prefix

theorem scan_prefix (isDigit : UInt8 → Bool) (line : List UInt8) :
    (scan isDigit line).text <+: line :=
  scanFrom_prefix isDigit false line

/-- What a run takes is grouped: on its own if it starts with a digit, and else behind one. -/
theorem grouped_scanFrom (isDigit : UInt8 → Bool) (afterDigit : Bool) (line : List UInt8) :
    (continues isDigit line = true → Grouped isDigit (scanFrom isDigit afterDigit line).text) ∧
      ∀ b, isDigit b = true → afterDigit = true →
        Grouped isDigit (b :: (scanFrom isDigit afterDigit line).text) := by
  fun_induction scanFrom isDigit afterDigit line with
  | case1 afterDigit => exact ⟨Bool.noConfusion, fun b hb _ => .single hb⟩
  | case2 afterDigit c rest hc ih =>
    have hrun := ih.2 c hc rfl
    exact ⟨fun _ => hrun, fun b hb _ => .digit hb hrun⟩
  | case3 afterDigit c rest hc hu hcont ih =>
    obtain rfl : c = Byte.underscore := by simpa using (Bool.and_eq_true_iff.1 hu).1
    exact ⟨fun h => absurd h hc, fun b hb _ => .group hb (ih.1 hcont)⟩
  | case4 afterDigit c rest hc hu hcont => exact ⟨fun h => absurd h hc, fun b hb _ => .single hb⟩
  | case5 afterDigit c rest hc hu => exact ⟨fun h => absurd h hc, fun b hb _ => .single hb⟩

theorem grouped_scan {b : UInt8} (h : isDigit b = true) (rest : List UInt8) :
    Grouped isDigit (scan isDigit (b :: rest)).text :=
  (grouped_scanFrom isDigit false (b :: rest)).1 h

/-- A run that is not empty is grouped. -/
theorem grouped_scan_of_ne_nil {line : List UInt8} (h : (scan isDigit line).text ≠ []) :
    Grouped isDigit (scan isDigit line).text := by
  cases line with
  | nil => exact absurd rfl h
  | cons b rest =>
    by_cases hb : isDigit b = true
    · exact grouped_scan hb rest
    · rw [scan, scanFrom, if_neg hb] at h
      simp at h

/-- A scanned run takes all digits there are. -/
theorem head?_drop_scanFrom (isDigit : UInt8 → Bool) (afterDigit : Bool) (line : List UInt8)
    {b : UInt8} (h : (line.drop (scanFrom isDigit afterDigit line).text.length).head? = some b) :
    isDigit b = false := by
  fun_induction scanFrom isDigit afterDigit line with
  | case1 afterDigit => cases h
  | case2 afterDigit c rest hc ih => exact ih h
  | case3 afterDigit c rest hc hu hcont ih => exact ih h
  | case4 afterDigit c rest hc hu hcont =>
    obtain rfl := Option.some.inj h
    simpa using hc
  | case5 afterDigit c rest hc hu =>
    obtain rfl := Option.some.inj h
    simpa using hc

theorem eq_of_findings {run : DigitRun} {offset : Nat} (h : run.findings offset = []) :
    run = ⟨run.text, false⟩ := by
  obtain ⟨text, dangling⟩ := run
  cases dangling with
  | false => rfl
  | true => cases h

end DigitRun

/-! ## Suffixes -/

theorem Byte.toLower_eq {b c : UInt8} (h : toLower b = c) : b = c ∨ b = c - 32 := by
  rw [toLower] at h
  split at h
  · right
    rw [← h, UInt8.add_sub_cancel]
  · exact .inl h

namespace Suffix

/-- The widths that may stand behind a letter, and the kinds that the two declare. -/
def widths (letter : UInt8) : List (List UInt8 × Kind) :=
  if letter ∈ Byte.ofAscii "fF" then
    [([], .floatLit .float), (Byte.ofAscii "32", .floatLit .float32),
      (Byte.ofAscii "64", .floatLit .float64), (Byte.ofAscii "128", .floatLit .float128)]
  else if letter ∈ Byte.ofAscii "dD" then [([], .floatLit .float64)]
  else if letter ∈ Byte.ofAscii "iI" then
    [(Byte.ofAscii "8", .intLit .int8), (Byte.ofAscii "16", .intLit .int16),
      (Byte.ofAscii "32", .intLit .int32), (Byte.ofAscii "64", .intLit .int64)]
  else if letter ∈ Byte.ofAscii "uU" then
    [([], .intLit .uint), (Byte.ofAscii "8", .intLit .uint8), (Byte.ofAscii "16", .intLit .uint16),
      (Byte.ofAscii "32", .intLit .uint32), (Byte.ofAscii "64", .intLit .uint64)]
  else []

/-- A suffix and the kind it declares. -/
inductive Written : List UInt8 → Option Kind → Prop
  | absent : Written [] none
  | plain {letter : UInt8} {width : List UInt8} {kind : Kind} (h : (width, kind) ∈ widths letter) :
      Written (letter :: width) (some kind)
  | quoted {letter : UInt8} {width : List UInt8} {kind : Kind} (h : (width, kind) ∈ widths letter) :
      Written (Byte.apostrophe :: letter :: width) (some kind)

/-- The letters of suffixes. -/
def letters : List UInt8 := Byte.ofAscii "fFdDiIuU"

theorem mem_letters {letter : UInt8} {entry : List UInt8 × Kind} (h : entry ∈ widths letter) :
    letter ∈ letters := by
  by_cases hmem : letter ∈ letters
  · exact hmem
  · have hnot : ∀ bytes : List UInt8, (bytes.all fun b => b ∈ letters) = true → letter ∉ bytes :=
      fun bytes hsub hb => hmem (List.all_iff_forall_prop.1 hsub letter hb)
    rw [widths, if_neg (hnot _ (by decide)), if_neg (hnot _ (by decide)),
      if_neg (hnot _ (by decide)), if_neg (hnot _ (by decide))] at h
    cases h

/-- What may stand at the front of a suffix. -/
def heads : List UInt8 := Byte.apostrophe :: letters

theorem Written.headIn {text : List UInt8} {declared : Option Kind} (h : Written text declared) :
    HeadIn heads text := by
  cases h with
  | absent =>
    intro b hb
    cases hb
  | plain hmem => exact headIn_cons (List.mem_cons_of_mem _ (mem_letters hmem))
  | quoted hmem => exact headIn_cons List.mem_cons_self

/-- Every suffix declares something: none stands for the kind of a number without one. -/
theorem Written.ne_int {text : List UInt8} {kind : Kind} (h : Written text (some kind)) :
    kind ≠ .intLit .int := by
  have hall : ∀ b ∈ letters, ∀ entry ∈ widths b, entry.2 ≠ .intLit .int :=
    List.all_iff_forall_prop.1 (by decide)
  cases h with
  | plain hmem => exact hall _ (mem_letters hmem) _ hmem
  | quoted hmem => exact hall _ (mem_letters hmem) _ hmem

theorem ofLetter_of_mem {letter : UInt8} {width : List UInt8} {kind : Kind}
    (h : (width, kind) ∈ widths letter) :
    ofLetter (letter :: width) = ⟨some kind, 1 + width.length, true⟩ := by
  have hall : ∀ b ∈ letters, ∀ entry ∈ widths b,
      ofLetter (b :: entry.1) = ⟨some entry.2, 1 + entry.1.length, true⟩ :=
    List.all_iff_forall_prop.1 (by decide)
  exact hall letter (mem_letters h) _ h

/-- A suffix that ends the line is scanned whole. -/
theorem Written.scan_eq {text : List UInt8} {declared : Option Kind} (h : Written text declared) :
    scan text = ⟨declared, text.length, true⟩ := by
  cases h with
  | absent => rfl
  | @plain letter width kind hmem =>
    have hletter : ∀ b ∈ letters, b ≠ Byte.apostrophe ∧ isLetter b = true :=
      List.all_iff_forall_prop.1 (by decide)
    obtain ⟨hquote, hl⟩ := hletter letter (mem_letters hmem)
    rw [scan, if_neg (by simpa using hquote), if_pos hl, ofLetter_of_mem hmem, List.length_cons,
      Nat.add_comm]
  | @quoted letter width kind hmem =>
    rw [scan, if_pos (by decide), ofLetter_of_mem hmem, List.length_cons, List.length_cons]
    simp only [Suffix.mk.injEq, true_and, and_true]
    omega

section Tabled

variable {b : UInt8} {rest : List UInt8}

/-- If the suffix takes all that follows the letter, the table has the two. -/
def Tabled (b : UInt8) (rest : List UInt8) (s : Suffix) : Prop :=
  s.complete = true → s.length = 1 + rest.length →
    ∃ kind, s.kind = some kind ∧ (rest, kind) ∈ widths b

theorem tabled_of_prefix {word : List UInt8} {kind : Kind} (hword : word.isPrefixOf rest = true)
    (hmem : (word, kind) ∈ widths b) : Tabled b rest ⟨some kind, 1 + word.length, true⟩ := by
  intro _ hlen
  change 1 + word.length = 1 + rest.length at hlen
  have hrest := (List.isPrefixOf_iff_prefix.1 hword).eq_of_length (by omega)
  exact ⟨kind, rfl, hrest ▸ hmem⟩

theorem tabled_ofFloat (hb : b ∈ Byte.ofAscii "fF") : Tabled b rest (ofFloat rest) := by
  have htable : ∀ b ∈ Byte.ofAscii "fF", ([], .floatLit .float) ∈ widths b ∧
      (Byte.ofAscii "32", .floatLit .float32) ∈ widths b ∧
      (Byte.ofAscii "64", .floatLit .float64) ∈ widths b ∧
      (Byte.ofAscii "128", .floatLit .float128) ∈ widths b :=
    List.all_iff_forall_prop.1 (by decide)
  obtain ⟨hplain, h32, h64, h128⟩ := htable b hb
  unfold ofFloat
  split
  · exact tabled_of_prefix ‹_› h32
  · split
    · exact tabled_of_prefix ‹_› h64
    · split
      · exact tabled_of_prefix ‹_› h128
      · exact tabled_of_prefix rfl hplain

/-- The widths of integers. -/
def integerWidths : List (List UInt8 × Nat) :=
  [(Byte.ofAscii "64", 64), (Byte.ofAscii "32", 32), (Byte.ofAscii "16", 16), (Byte.ofAscii "8", 8)]

theorem width?_cases (line : List UInt8) :
    (∃ word width, word.isPrefixOf line = true ∧ (word, width) ∈ integerWidths ∧
      width? line = some (width, word.length)) ∨ width? line = none := by
  unfold width?
  split
  · exact .inl ⟨_, 64, ‹_›, by decide, rfl⟩
  · split
    · exact .inl ⟨_, 32, ‹_›, by decide, rfl⟩
    · split
      · exact .inl ⟨_, 16, ‹_›, by decide, rfl⟩
      · split
        · exact .inl ⟨_, 8, ‹_›, by decide, rfl⟩
        · exact .inr rfl

theorem tabled_ofSigned (hb : b ∈ Byte.ofAscii "iI") : Tabled b rest (ofSigned rest) := by
  have htable : ∀ b ∈ Byte.ofAscii "iI", ∀ entry ∈ integerWidths,
      (entry.1, .intLit (signedType entry.2)) ∈ widths b :=
    List.all_iff_forall_prop.1 (by decide)
  rw [ofSigned]
  rcases width?_cases rest with ⟨word, width, hword, hmem, heq⟩ | heq
  · rw [heq]
    exact tabled_of_prefix hword (htable b hb _ hmem)
  · rw [heq]
    exact fun h => Bool.noConfusion h

theorem tabled_ofUnsigned (hb : b ∈ Byte.ofAscii "uU") : Tabled b rest (ofUnsigned rest) := by
  have htable : ∀ b ∈ Byte.ofAscii "uU", ([], .intLit .uint) ∈ widths b ∧
      ∀ entry ∈ integerWidths, (entry.1, .intLit (unsignedType entry.2)) ∈ widths b :=
    List.all_iff_forall_prop.1 (by decide)
  rw [ofUnsigned]
  rcases width?_cases rest with ⟨word, width, hword, hmem, heq⟩ | heq
  · rw [heq]
    exact tabled_of_prefix hword ((htable b hb).2 _ hmem)
  · rw [heq]
    exact tabled_of_prefix rfl (htable b hb).1

theorem tabled_ofLetter (b : UInt8) (rest : List UInt8) : Tabled b rest (ofLetter (b :: rest)) := by
  have hcase : ∀ c : UInt8, (Byte.toLower b == c) = true → b ∈ [c, c - 32] := by
    intro c hc
    rcases Byte.toLower_eq (beq_iff_eq.1 hc) with rfl | rfl
    · exact List.mem_cons_self
    · exact List.mem_cons_of_mem _ List.mem_cons_self
  rw [ofLetter]
  split
  · exact tabled_ofFloat (hcase _ ‹_›)
  · split
    · rename_i hd
      have htable : ∀ b ∈ Byte.ofAscii "dD", ([], .floatLit .float64) ∈ widths b :=
        List.all_iff_forall_prop.1 (by decide)
      exact tabled_of_prefix rfl (htable b (hcase _ hd))
    · split
      · exact tabled_ofSigned (hcase _ ‹_›)
      · split
        · exact tabled_ofUnsigned (hcase _ ‹_›)
        · exact fun h => Bool.noConfusion h

end Tabled

/-- A complete suffix that takes all of its line is one of the grammar. -/
theorem written_scan {line : List UInt8} (hcomplete : (scan line).complete = true)
    (hlen : (scan line).length = line.length) : Written line (scan line).kind := by
  cases line with
  | nil => exact .absent
  | cons b rest =>
    by_cases hquote : b = Byte.apostrophe
    · subst hquote
      have hscan : scan (Byte.apostrophe :: rest) =
          { ofLetter rest with length := 1 + (ofLetter rest).length } := by
        rw [scan, if_pos (by decide)]
      rw [hscan] at hcomplete hlen ⊢
      cases rest with
      | nil => cases hcomplete
      | cons letter width =>
        simp only [List.length_cons] at hlen
        obtain ⟨kind, hkind, hmem⟩ := tabled_ofLetter letter width hcomplete (by omega)
        change Written _ (ofLetter (letter :: width)).kind
        rw [hkind]
        exact .quoted hmem
    · by_cases hletter : isLetter b = true
      · have hscan : scan (b :: rest) = ofLetter (b :: rest) := by
          rw [scan, if_neg (by simpa using hquote), if_pos hletter]
        rw [hscan] at hcomplete hlen ⊢
        rw [List.length_cons, Nat.add_comm] at hlen
        obtain ⟨kind, hkind, hmem⟩ := tabled_ofLetter b rest hcomplete hlen
        rw [hkind]
        exact .plain hmem
      · rw [scan, if_neg (by simpa using hquote), if_neg hletter] at hlen
        cases hlen

end Suffix

end Lexeme
