import Lexeme.Proofs.Literal.DigitGroups

/-!
# The grammar of numbers

The body of a number is a base mark and digits, or decimal digits with an optional fraction and
exponent. A body of the grammar is scanned whole, if nothing behind it could be part of it, and what
is scanned without a complaint is a body of the grammar.
-/

set_option autoImplicit false

namespace Lexeme

/-- The letters behind the zero of a bit pattern. -/
def BaseMark.letters : List (UInt8 × BaseMark) :=
  [(Byte.ofChar 'x', .hex), (Byte.ofChar 'X', .hex), (Byte.ofChar 'o', .oct),
    (Byte.ofChar 'b', .bin), (Byte.ofChar 'B', .bin)]

theorem BaseMark.ofByte?_of_isDigit {b : UInt8} (h : Byte.isDigit b = true) :
    ofByte? b = none := by
  have hnot : ∀ bytes : List UInt8, (bytes.all fun c => !Byte.isDigit c) = true → b ∉ bytes := by
    intro bytes hbytes hb
    have hb' := List.all_eq_true.1 hbytes b hb
    rw [h] at hb'
    cases hb'
  rw [ofByte?, if_neg (hnot _ (by decide)), if_neg (hnot _ (by decide)),
    if_neg (hnot _ (by decide)), if_neg (hnot _ (by decide)), if_neg (hnot _ (by decide))]

theorem BaseMark.ofByte?_of_mem {letter : UInt8} {mark : BaseMark}
    (h : (letter, mark) ∈ letters) : ofByte? letter = some mark := by
  have hall : ∀ entry ∈ letters, ofByte? entry.1 = some entry.2 := by decide
  exact hall _ h

theorem BaseMark.mem_letters {b : UInt8} {mark : BaseMark} (h : ofByte? b = some mark)
    (hold : mark ≠ .oldOct) (hbad : mark ≠ .badOct) : (b, mark) ∈ letters := by
  have hx : ∀ b ∈ Byte.ofAscii "xX", (b, .hex) ∈ letters := List.all_iff_forall_prop.1 (by decide)
  have hb : ∀ b ∈ Byte.ofAscii "bB", (b, .bin) ∈ letters := List.all_iff_forall_prop.1 (by decide)
  have ho : ∀ b ∈ Byte.ofAscii "o", (b, .oct) ∈ letters := List.all_iff_forall_prop.1 (by decide)
  unfold ofByte? at h
  split at h
  · obtain rfl := Option.some.inj h
    exact hx b ‹_›
  · split at h
    · obtain rfl := Option.some.inj h
      exact hb b ‹_›
    · split at h
      · obtain rfl := Option.some.inj h
        exact ho b ‹_›
      · split at h
        · exact absurd (Option.some.inj h).symm hold
        · split at h
          · exact absurd (Option.some.inj h).symm hbad
          · cases h

namespace NumberBody

open DigitRun (Grouped Stops)

/-- A point and digits, or nothing. -/
inductive FractionWritten : Option DigitRun → List UInt8 → Prop
  | absent : FractionWritten none []
  | present {run : List UInt8} (hrun : Grouped Byte.isDigit run) :
      FractionWritten (some ⟨run, false⟩) (Byte.dot :: run)

/-- A letter, a sign that may be left out, and digits; or nothing. -/
inductive ExponentWritten : Option Exponent → List UInt8 → Prop
  | absent : ExponentWritten none []
  | present {letter : UInt8} {sign : Option UInt8} {run : List UInt8}
      (hletter : letter ∈ Byte.ofAscii "eE")
      (hsign : ∀ b, sign = some b → b ∈ [Byte.plus, Byte.minus]) (hrun : Grouped Byte.isDigit run) :
      ExponentWritten (some ⟨sign, ⟨run, false⟩⟩) (letter :: (sign.toList ++ run))

/-- A text spells the body of a number. -/
inductive Written : NumberBody → List UInt8 → Prop
  | pattern {mark : BaseMark} {letter : UInt8} {run : List UInt8}
      (hmark : (letter, mark) ∈ BaseMark.letters) (hrun : Grouped mark.isDigit run) :
      Written (.pattern mark ⟨run, false⟩) (Byte.zero :: letter :: run)
  | decimal {whole : List UInt8} {fraction : Option DigitRun} {exponent : Option Exponent}
      {afterPoint power : List UInt8} (hwhole : Grouped Byte.isDigit whole)
      (hfraction : FractionWritten fraction afterPoint)
      (hexponent : ExponentWritten exponent power) :
      Written (.decimal ⟨whole, false⟩ fraction exponent) (whole ++ (afterPoint ++ power))

theorem scan_of_mark {b : UInt8} {mark : BaseMark} (h : BaseMark.ofByte? b = some mark)
    (rest : List UInt8) :
    scan (Byte.zero :: b :: rest) = .pattern mark (.scan mark.isDigit rest) := by
  unfold scan
  split
  · rename_i c more heq
    obtain ⟨rfl, rfl⟩ := List.cons.inj (List.cons.inj heq).2
    rw [h]
  · rename_i hne
    exact absurd rfl (hne b rest)

theorem scan_of_no_mark {line : List UInt8}
    (h : ∀ b rest, line = Byte.zero :: b :: rest → BaseMark.ofByte? b = none) :
    scan line = scanDecimal line := by
  unfold scan
  split
  · rw [h _ _ rfl]
    rfl
  · rfl

theorem scan_cases (line : List UInt8) :
    (∃ letter mark rest, line = Byte.zero :: letter :: rest ∧
      BaseMark.ofByte? letter = some mark ∧
      scan line = .pattern mark (.scan mark.isDigit rest)) ∨ scan line = scanDecimal line := by
  by_cases h : ∀ b rest, line = Byte.zero :: b :: rest → BaseMark.ofByte? b = none
  · exact .inr (scan_of_no_mark h)
  · simp only [Classical.not_forall, Option.ne_none_iff_exists'] at h
    obtain ⟨letter, rest, rfl, mark, hmark⟩ := h
    exact .inl ⟨letter, mark, rest, rfl, hmark, scan_of_mark hmark rest⟩

/-- The digits that a body is written with. -/
def isDigit : NumberBody → UInt8 → Bool
  | pattern mark _ => mark.isDigit
  | decimal _ _ _ => Byte.isDigit

/-! ### Bodies of the grammar are scanned whole -/

/-- What may stand behind a fraction: an exponent or a suffix. -/
def exponentHeads : List UInt8 := Byte.ofAscii "eE" ++ Suffix.heads

/-- What may stand behind the digits in front of the point. -/
def fractionHeads : List UInt8 := Byte.dot :: exponentHeads

theorem fractionHeads_spec : ∀ b ∈ fractionHeads,
    Byte.isDigit b = false ∧ b ≠ Byte.underscore ∧ BaseMark.ofByte? b = none :=
  List.all_iff_forall_prop.1 (by decide)

theorem stops_of_headIn {line : List UInt8} (h : HeadIn fractionHeads line) :
    Stops Byte.isDigit line :=
  fun b hb => ⟨(fractionHeads_spec b (h b hb)).1, (fractionHeads_spec b (h b hb)).2.1⟩

theorem stops_of_exponentHeads {line : List UInt8} (h : HeadIn exponentHeads line) :
    Stops Byte.isDigit line :=
  stops_of_headIn (h.mono fun _ => List.mem_cons_of_mem _)

section Append

variable {back : List UInt8} (hback : HeadIn Suffix.heads back)
include hback

theorem ExponentWritten.headIn {exponent : Option Exponent} {power : List UInt8}
    (h : ExponentWritten exponent power) : HeadIn exponentHeads (power ++ back) := by
  cases h with
  | absent => exact hback.mono fun _ => List.mem_append_right _
  | present hletter hsign hrun => exact headIn_cons (List.mem_append_left _ hletter)

theorem ExponentWritten.exponent?_append {exponent : Option Exponent} {power : List UInt8}
    (h : ExponentWritten exponent power) :
    exponent? (power ++ back) = exponent ∧
      (exponent.elim [] Exponent.text).length = power.length := by
  have hstops : Stops Byte.isDigit back :=
    stops_of_exponentHeads (hback.mono fun _ => List.mem_append_right _)
  cases h with
  | absent =>
    refine ⟨?_, rfl⟩
    have hnone : ∀ b ∈ Suffix.heads, b ∉ Byte.ofAscii "eE" :=
      List.all_iff_forall_prop.1 (by decide)
    cases back with
    | nil => rfl
    | cons b rest => exact if_neg (hnone b (hback b rfl))
  | @present letter sign run hletter hsign hrun =>
    have hscan := hrun.scan_append (by decide) hstops
    constructor
    · rw [List.cons_append, exponent?, if_pos hletter, List.append_assoc]
      congr 1
      cases sign with
      | none =>
        obtain ⟨d, digits, rfl, hd⟩ := hrun.exists_cons
        have hsigns : ∀ b ∈ [Byte.plus, Byte.minus], Byte.isDigit b = false :=
          List.all_iff_forall_prop.1 (by decide)
        have hnot : ¬(d == Byte.plus || d == Byte.minus) = true := by
          intro hor
          have hmem : d ∈ [Byte.plus, Byte.minus] := by simpa using hor
          rw [hsigns d hmem] at hd
          cases hd
        exact (if_neg hnot).trans (congrArg (Exponent.mk none) hscan)
      | some s =>
        have hor : (s == Byte.plus || s == Byte.minus) = true := by simpa using hsign s rfl
        exact (if_pos hor).trans (congrArg (Exponent.mk (some s)) hscan)
    · simp [Exponent.text]

theorem FractionWritten.headIn {fraction : Option DigitRun} {afterPoint : List UInt8}
    (h : FractionWritten fraction afterPoint) {exponent : Option Exponent} {power : List UInt8}
    (hexponent : ExponentWritten exponent power) :
    HeadIn fractionHeads (afterPoint ++ (power ++ back)) := by
  cases h with
  | absent => exact (hexponent.headIn hback).mono fun _ => List.mem_cons_of_mem _
  | present hrun => exact headIn_cons List.mem_cons_self

theorem FractionWritten.fraction?_append {fraction : Option DigitRun} {afterPoint : List UInt8}
    (h : FractionWritten fraction afterPoint) {exponent : Option Exponent} {power : List UInt8}
    (hexponent : ExponentWritten exponent power) :
    fraction? (afterPoint ++ (power ++ back)) = fraction ∧ fractionText fraction = afterPoint := by
  have htail := hexponent.headIn hback
  cases h with
  | absent =>
    refine ⟨?_, rfl⟩
    rw [List.nil_append]
    generalize power ++ back = line at htail ⊢
    have hdot : Byte.dot ∉ exponentHeads := by decide
    unfold fraction?
    split
    · exact absurd (htail Byte.dot rfl) hdot
    · rfl
  | @present run hrun =>
    refine ⟨?_, rfl⟩
    have hscan := hrun.scan_append (by decide) (stops_of_exponentHeads htail)
    obtain ⟨d, digits, rfl, hd⟩ := hrun.exists_cons
    exact (if_pos hd).trans (congrArg some hscan)

omit hback in
/-- Behind its first digit, a decimal number has no base mark. -/
theorem ofByte?_second {whole tail rest : List UInt8} {b c : UInt8}
    (hwhole : Grouped Byte.isDigit whole) (htail : HeadIn fractionHeads tail)
    (h : whole ++ tail = c :: b :: rest) : BaseMark.ofByte? b = none := by
  cases hwhole with
  | single _ =>
    obtain ⟨-, rfl⟩ := List.cons.inj h
    exact (fractionHeads_spec b (htail b rfl)).2.2
  | digit _ hmore =>
    obtain ⟨d, digits, rfl, hd⟩ := hmore.exists_cons
    obtain ⟨-, htext⟩ := List.cons.inj h
    obtain ⟨rfl, -⟩ := List.cons.inj htext
    exact BaseMark.ofByte?_of_isDigit hd
  | group _ hmore =>
    obtain ⟨-, htext⟩ := List.cons.inj h
    obtain ⟨rfl, -⟩ := List.cons.inj htext
    decide

/-- A body of the grammar is scanned whole, if its digits do not go on behind it. -/
theorem Written.scan_append {body : NumberBody} {front : List UInt8} (h : Written body front)
    (hbinds : ∀ b, back.head? = some b → body.isDigit b = false) :
    scan (front ++ back) = body ∧ body.length = front.length := by
  cases h with
  | @pattern mark letter run hmark hrun =>
    have hunder : mark.isDigit Byte.underscore = false := by cases mark <;> decide
    have hplain : ∀ b ∈ Suffix.heads, b ≠ Byte.underscore :=
      List.all_iff_forall_prop.1 (by decide)
    have hstops : Stops mark.isDigit back := fun b hb => ⟨hbinds b hb, hplain b (hback b hb)⟩
    have hscan := hrun.scan_append hunder hstops
    constructor
    · rw [List.cons_append, List.cons_append, scan_of_mark (BaseMark.ofByte?_of_mem hmark), hscan]
    · rfl
  | @decimal whole fraction exponent afterPoint power hwhole hfraction hexponent =>
    have htail := hfraction.headIn hback hexponent
    obtain ⟨hfrac, hpoint⟩ := hfraction.fraction?_append hback hexponent
    obtain ⟨hexp, hpower⟩ := hexponent.exponent?_append hback
    have hrun := hwhole.scan_append (by decide) (stops_of_headIn htail)
    have hassoc : whole ++ (afterPoint ++ power) ++ back =
        whole ++ (afterPoint ++ (power ++ back)) := by simp
    rw [hassoc, scan_of_no_mark fun b rest => ofByte?_second hwhole htail]
    constructor
    · simp only [scanDecimal, hrun, List.drop_left, hfrac, hpoint, hexp]
    · simp only [length, text, hpoint, List.length_append, hpower, Nat.add_assoc]

end Append

/-! ### What is scanned without a complaint is a body of the grammar -/

theorem fractionWritten_scan {line : List UInt8}
    (h : ∀ run, fraction? line = some run → run = ⟨run.text, false⟩) :
    FractionWritten (fraction? line) (fractionText (fraction? line)) ∧
      fractionText (fraction? line) <+: line := by
  unfold fraction? at h ⊢
  split
  · rename_i b rest
    split
    · rename_i hb
      have hrun := h _ (if_pos hb)
      constructor
      · have hgrouped := DigitRun.grouped_scan hb rest
        rw [hrun]
        exact .present hgrouped
      · exact (List.prefix_cons_inj _).2 (DigitRun.scan_prefix Byte.isDigit (b :: rest))
    · exact ⟨.absent, List.nil_prefix⟩
  · exact ⟨.absent, List.nil_prefix⟩

/-- An exponent is a sign that may be left out, and digits. -/
theorem exists_exponent_scan (line : List UInt8) :
    ∃ (sign : Option UInt8) (digits : List UInt8), line = sign.toList ++ digits ∧
      (∀ s, sign = some s → s ∈ [Byte.plus, Byte.minus]) ∧
      Exponent.scan line = ⟨sign, .scan Byte.isDigit digits⟩ := by
  cases line with
  | nil => exact ⟨none, [], rfl, fun _ => nofun, rfl⟩
  | cons b rest =>
    rw [Exponent.scan]
    split
    · rename_i hb
      refine ⟨some b, rest, rfl, ?_, rfl⟩
      rintro s hs
      obtain rfl := Option.some.inj hs
      simpa using hb
    · exact ⟨none, b :: rest, rfl, fun _ => nofun, rfl⟩

theorem exponentWritten_scan {line : List UInt8}
    (h : ∀ e, exponent? line = some e → e.run = ⟨e.run.text, false⟩ ∧ e.run.text ≠ []) :
    ∃ power, ExponentWritten (exponent? line) power ∧
      power.length = ((exponent? line).elim [] Exponent.text).length ∧ power <+: line := by
  cases line with
  | nil => exact ⟨[], .absent, rfl, List.nil_prefix⟩
  | cons b rest =>
    rw [exponent?] at h ⊢
    split
    · rename_i hb
      obtain ⟨hrun, hne⟩ := h _ (if_pos hb)
      obtain ⟨sign, digits, rfl, hsign, hscan⟩ := exists_exponent_scan rest
      rw [hscan] at hrun hne ⊢
      change DigitRun.scan Byte.isDigit digits = _ at hrun
      have hgrouped := DigitRun.grouped_scan_of_ne_nil hne
      have hfront := DigitRun.scan_prefix Byte.isDigit digits
      refine ⟨b :: (sign.toList ++ (DigitRun.scan Byte.isDigit digits).text), ?_, ?_, ?_⟩
      · rw [hrun]
        exact .present hb hsign hgrouped
      · simp [Exponent.text]
      · exact (List.prefix_cons_inj b).2 ((List.prefix_append_right_inj _).2 hfront)
    · exact ⟨[], .absent, rfl, List.nil_prefix⟩

/-- Nothing is missing: a base mark in use has digits, and so has an exponent. -/
def IsFull : NumberBody → Prop
  | pattern mark run => mark ≠ .oldOct ∧ mark ≠ .badOct ∧ run.text ≠ []
  | decimal _ _ exponent => ∀ e, exponent = some e → e.run.text ≠ []

/-- A body of the grammar is full, and no underscore in it is complained about. -/
theorem Written.isFull {body : NumberBody} {front : List UInt8} (h : Written body front) :
    body.IsFull ∧ body.groupingFindings = [] := by
  have hne : ∀ {isDigit : UInt8 → Bool} {run : List UInt8}, Grouped isDigit run → run ≠ [] := by
    rintro isDigit run hrun rfl
    cases hrun
  cases h with
  | @pattern mark letter run hmark hrun =>
    have hmarks : ∀ entry ∈ BaseMark.letters, entry.2 ≠ .oldOct ∧ entry.2 ≠ .badOct := by decide
    obtain ⟨hold, hbad⟩ := hmarks _ hmark
    exact ⟨⟨hold, hbad, hne hrun⟩, rfl⟩
  | decimal hwhole hfraction hexponent =>
    cases hfraction <;> cases hexponent with
    | absent => exact ⟨fun _ => nofun, rfl⟩
    | present _ _ hrun =>
      refine ⟨?_, rfl⟩
      rintro e he
      obtain rfl := Option.some.inj he
      exact hne hrun

/-- Each run of a decimal body is without a dangling underscore, if none is complained about. -/
theorem eq_of_groupingFindings {whole : DigitRun} {fraction : Option DigitRun}
    {exponent : Option Exponent} (h : (decimal whole fraction exponent).groupingFindings = []) :
    whole = ⟨whole.text, false⟩ ∧ (∀ run, fraction = some run → run = ⟨run.text, false⟩) ∧
      ∀ e, exponent = some e → e.run = ⟨e.run.text, false⟩ := by
  simp only [groupingFindings, List.append_eq_nil_iff] at h
  obtain ⟨⟨hwhole, hfraction⟩, hexponent⟩ := h
  refine ⟨DigitRun.eq_of_findings hwhole, ?_, ?_⟩
  · rintro run rfl
    exact DigitRun.eq_of_findings hfraction
  · rintro e rfl
    exact DigitRun.eq_of_findings hexponent

theorem written_scanDecimal {b : UInt8} {rest : List UInt8} (hb : Byte.isDigit b = true)
    (hfull : (scanDecimal (b :: rest)).IsFull)
    (hgroup : (scanDecimal (b :: rest)).groupingFindings = []) :
    ∃ front, Written (scanDecimal (b :: rest)) front ∧
      front.length = (scanDecimal (b :: rest)).length ∧ front <+: b :: rest := by
  have hwhole := DigitRun.grouped_scan hb rest
  have hfront := DigitRun.scan_prefix Byte.isDigit (b :: rest)
  rw [scanDecimal] at hfull hgroup ⊢
  generalize hline : b :: rest = line at *
  generalize hrun : DigitRun.scan Byte.isDigit line = whole at *
  obtain ⟨hw, hf, he⟩ := eq_of_groupingFindings hgroup
  obtain ⟨hfraction, hpoint⟩ := fractionWritten_scan hf
  obtain ⟨power, hexponent, hlen, hpower⟩ :=
    exponentWritten_scan fun e hs => ⟨he e hs, hfull e hs⟩
  refine ⟨whole.text ++ (fractionText (fraction? (line.drop whole.text.length)) ++ power),
    ?_, ?_, ?_⟩
  · have hwritten := Written.decimal hwhole hfraction hexponent
    rwa [← hw] at hwritten
  · simp only [length, text, List.length_append, hlen, Nat.add_assoc]
  · exact append_prefix_of_drop hfront (append_prefix_of_drop hpoint hpower)

/-- A full body that no underscore is complained about in is one of the grammar. -/
theorem written_scan {b : UInt8} {rest : List UInt8} (hb : Byte.isDigit b = true)
    (hfull : (scan (b :: rest)).IsFull) (hgroup : (scan (b :: rest)).groupingFindings = []) :
    ∃ front, Written (scan (b :: rest)) front ∧ front.length = (scan (b :: rest)).length ∧
      front <+: b :: rest := by
  rcases scan_cases (b :: rest) with ⟨letter, mark, more, hline, hmark, hscan⟩ | hscan
  · rw [hscan] at hfull hgroup ⊢
    obtain ⟨hold, hbad, hne⟩ := hfull
    have hrun := DigitRun.eq_of_findings hgroup
    have hgrouped := DigitRun.grouped_scan_of_ne_nil hne
    refine ⟨Byte.zero :: letter :: (DigitRun.scan mark.isDigit more).text, ?_, rfl, ?_⟩
    · rw [hrun]
      exact .pattern (BaseMark.mem_letters hmark hold hbad) hgrouped
    · rw [hline, List.prefix_cons_inj, List.prefix_cons_inj]
      exact DigitRun.scan_prefix mark.isDigit more
  · rw [hscan] at hfull hgroup ⊢
    exact written_scanDecimal hb hfull hgroup

/-- A bit pattern takes all the digits of its base. -/
theorem isDigit_head?_drop {line : List UInt8} {mark : BaseMark} {run : DigitRun}
    (h : scan line = .pattern mark run) {b : UInt8}
    (hb : (line.drop (scan line).length).head? = some b) : mark.isDigit b = false := by
  rcases scan_cases line with ⟨letter, mark', more, rfl, hmark, hscan⟩ | hscan
  · rw [hscan] at h hb
    obtain ⟨rfl, rfl⟩ := NumberBody.pattern.inj h
    exact DigitRun.head?_drop_scanFrom mark'.isDigit false more hb
  · rw [hscan] at h
    cases h

end NumberBody
end Lexeme
