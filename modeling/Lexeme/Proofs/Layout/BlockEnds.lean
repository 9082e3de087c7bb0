import Mathlib.Data.Nat.Count
import Lexeme.Proofs.Literal.TripleContents
import Lexeme.Proofs.Source.Followed
import Lexeme.Proofs.Layout.Passage

/-!
# Where block comments end

The bytes behind an opener tell where its block comment ends: right behind the first closer that
has as many openers as closers in front of it, counted at every byte, and at the end of the input
if there is none. A scan keeps this count line by line, in 32 bits, which is exact as long as there
are fewer openers; terminators and the spaces it strips hold neither an opener nor a closer, so they
leave the count as it is.
-/

set_option autoImplicit false

namespace Lexeme

/-! ## Words in bytes -/

/-- A word without terminators stands at the start of some bytes if it stands at the start of their
first line. -/
theorem Line.prefix_first_iff {word bytes : List UInt8} (hword : ∀ b ∈ word, isText b = true) :
    word <+: (first bytes).bytes ↔ word <+: bytes := by
  constructor
  · intro h
    rw [← bytes_append_afterText bytes]
    exact h.trans (List.prefix_append _ _)
  · rintro ⟨more, rfl⟩
    rw [bytes_first_append hword]
    exact List.prefix_append _ _

theorem Cursor.Within.prefix_iff {input word : List UInt8} {c : Cursor Text} (h : c.Within input)
    (hword : ∀ b ∈ word, Line.isText b = true) {i : Nat} (hi : i ≤ c.rest.length) :
    word <+: c.rest.drop i ↔ word <+: (input.drop c.offset).drop i := by
  rw [h.rest_eq] at hi ⊢
  have hline := @Line.prefix_first_iff word ((input.drop c.offset).drop i) hword
  rwa [Line.first_drop hi] at hline

/-- No terminator is the first byte of a delimiter. -/
theorem Byte.ne_delimiter_of_isBreak (b : UInt8) (h : isBreak b = true) :
    b ≠ hash ∧ b ≠ bracketRight := by
  constructor
  · rintro rfl
    cases h
  · rintro rfl
    cases h

namespace Text

/-- How often a word starts at one of the first `n` bytes. -/
def occurrences (word bytes : List UInt8) (n : Nat) : Nat :=
  Nat.count (fun i => word <+: bytes.drop i) n

section Occurrences

variable {word bytes bytes' : List UInt8} {n : Nat}

theorem occurrences_add (word bytes : List UInt8) (m n : Nat) :
    occurrences word bytes (m + n) =
      occurrences word bytes m + occurrences word (bytes.drop m) n := by
  simp only [occurrences, Nat.count_add, List.drop_drop]

theorem occurrences_one (word bytes : List UInt8) :
    occurrences word bytes 1 = if word <+: bytes then 1 else 0 := by
  rw [occurrences, Nat.count_one]
  rfl

theorem occurrences_eq_zero (h : ∀ i < n, ¬word <+: bytes.drop i) :
    occurrences word bytes n = 0 :=
  Nat.count_iff_forall_not.2 h

theorem occurrences_le (word bytes : List UInt8) (n : Nat) : occurrences word bytes n ≤ n :=
  Nat.count_le _

theorem occurrences_mono (word bytes : List UInt8) {m n : Nat} (h : m ≤ n) :
    occurrences word bytes m ≤ occurrences word bytes n :=
  Nat.count_monotone _ h

/-- Behind the end of the bytes no word starts. -/
theorem occurrences_drop_le (hword : word ≠ []) (bytes : List UInt8) (s n : Nat) :
    occurrences word (bytes.drop s) n ≤ occurrences word bytes bytes.length := by
  have hnil : ∀ k, occurrences word (bytes.drop bytes.length) k = 0 := by
    intro k
    refine occurrences_eq_zero fun i _ hprefix => hword ?_
    rwa [List.drop_length, List.drop_nil, List.prefix_nil] at hprefix
  have hall := occurrences_mono word bytes (Nat.le_add_left (s + n) bytes.length)
  rw [occurrences_add, occurrences_add, hnil] at hall
  exact Nat.le_trans (Nat.le_add_left _ _) hall

theorem occurrences_congr (h : ∀ i < n, word <+: bytes.drop i ↔ word <+: bytes'.drop i) :
    occurrences word bytes n = occurrences word bytes' n :=
  Nat.le_antisymm (Nat.count_mono_left fun i hi => (h i hi).1)
    (Nat.count_mono_left fun i hi => (h i hi).2)

end Occurrences
end Text

/-! ## Terminators -/

namespace Text

theorem breaks_cons (b : UInt8) (rest : List UInt8) :
    breaks (b :: rest) = breaks rest + if endsBreak (b :: rest) 0 then 1 else 0 := by
  have hbefore : ∀ k, breaksBefore (b :: rest) (k + 1) =
      breaksBefore rest k + if endsBreak (b :: rest) 0 then 1 else 0 := by
    intro k
    induction k with
    | zero => rfl
    | succ k ih =>
      have hends : endsBreak (b :: rest) (k + 1) = endsBreak rest k := rfl
      rw [breaksBefore, ih, breaksBefore, hends, Nat.add_right_comm]
  exact hbefore rest.length

/-- There are as many line feeds in the end as there were terminators. -/
theorem count_lf_unify (bytes : List UInt8) : (unify bytes).count Byte.lf = breaks bytes := by
  fun_induction unify bytes with
  | case1 => rfl
  | case2 rest ih =>
    have hpair : endsBreak (Byte.cr :: Byte.lf :: rest) 0 = false := rfl
    have hfeed : endsBreak (Byte.lf :: rest) 0 = true := rfl
    have hbreaks : breaks (Byte.cr :: Byte.lf :: rest) = breaks rest + 1 := by
      rw [breaks_cons, breaks_cons, hpair, hfeed]
      rfl
    rw [List.count_cons_self, ih]
    exact hbreaks.symm
  | case3 b rest hpair ih =>
    rw [List.count_cons, ih, breaks_cons]
    by_cases hcr : b = Byte.cr
    · have hends : endsBreak (b :: rest) 0 = true := by
        subst hcr
        cases rest with
        | nil => rfl
        | cons c rest =>
          have hc : c ≠ Byte.lf := fun hlf => hpair rest rfl (congrArg (· :: rest) hlf)
          simp [endsBreak, hc]
      rw [if_pos hcr, hends]
      rfl
    · have hends : endsBreak (b :: rest) 0 = (b == Byte.lf) := by
        simp [endsBreak, hcr]
      rw [if_neg hcr, hends]

end Text

/-! ## Depths -/

namespace BlockForm

/-- How many more openers than closers start at the first `n` bytes. -/
def depth (form : BlockForm) (bytes : List UInt8) (n : Nat) : Int :=
  Text.occurrences form.opener bytes n - Text.occurrences form.closer bytes n

/-- A closer stands at an offset, and no inner block is open there, counted modulo `modulus`;
`inner` are open in front of the bytes. A count modulo 0 is exact. -/
def ClosesAt (form : BlockForm) (modulus : Nat) (bytes : List UInt8) (inner : Int) (n : Nat) :
    Prop :=
  form.closer <+: bytes.drop n ∧ (modulus : Int) ∣ inner + form.depth bytes n

variable {form : BlockForm} {modulus : Nat} {bytes bytes' : List UInt8} {inner : Int} {n : Nat}

theorem opener_ne_nil (form : BlockForm) : form.opener ≠ [] := by
  cases form with
  | ordinary => exact List.cons_ne_nil _ _
  | documentation => exact List.cons_ne_nil _ _

theorem isText_opener (form : BlockForm) : ∀ b ∈ form.opener, Line.isText b = true := by
  cases form with
  | ordinary => exact List.all_eq_true.1 (by decide)
  | documentation => exact List.all_eq_true.1 (by decide)

theorem isText_closer (form : BlockForm) : ∀ b ∈ form.closer, Line.isText b = true := by
  cases form with
  | ordinary => exact List.all_eq_true.1 (by decide)
  | documentation => exact List.all_eq_true.1 (by decide)

theorem head?_of_opener (h : form.opener <+: bytes) : bytes.head? = some Byte.hash := by
  obtain ⟨more, rfl⟩ := h
  cases form with
  | ordinary => rfl
  | documentation => rfl

theorem head?_of_closer (h : form.closer <+: bytes) : bytes.head? = some Byte.bracketRight := by
  obtain ⟨more, rfl⟩ := h
  cases form with
  | ordinary => rfl
  | documentation => rfl

/-- No byte starts both an opener and a closer. -/
theorem not_closer_of_opener (h : form.opener <+: bytes) : ¬form.closer <+: bytes := by
  intro hcloser
  have hhead := head?_of_closer hcloser
  rw [head?_of_opener h] at hhead
  cases hhead

theorem depth_zero (form : BlockForm) (bytes : List UInt8) : form.depth bytes 0 = 0 := rfl

theorem depth_add (form : BlockForm) (bytes : List UInt8) (m n : Nat) :
    form.depth bytes (m + n) = form.depth bytes m + form.depth (bytes.drop m) n := by
  rw [depth, depth, depth, Text.occurrences_add, Text.occurrences_add]
  omega

/-- What one byte does to the depth. -/
theorem depth_one (form : BlockForm) (bytes : List UInt8) :
    form.depth bytes 1 =
      (if form.opener <+: bytes then 1 else 0) - if form.closer <+: bytes then 1 else 0 := by
  rw [depth, Text.occurrences_one, Text.occurrences_one, apply_ite Nat.cast, apply_ite Nat.cast]
  rfl

theorem depth_of_opener (h : form.opener <+: bytes) : form.depth bytes 1 = 1 := by
  rw [depth_one, if_pos h, if_neg (not_closer_of_opener h)]
  rfl

theorem depth_of_closer (h : form.closer <+: bytes) : form.depth bytes 1 = -1 := by
  rw [depth_one, if_neg fun hopener => not_closer_of_opener hopener h, if_pos h]
  rfl

theorem depth_of_neither (hopener : ¬form.opener <+: bytes) (hcloser : ¬form.closer <+: bytes) :
    form.depth bytes 1 = 0 := by
  rw [depth_one, if_neg hopener, if_neg hcloser]
  rfl

/-- The second byte of an opener starts no delimiter. -/
theorem depth_opener (t : List UInt8) :
    ordinary.depth (ordinary.opener ++ t) ordinary.opener.length = 1 := by
  have hbracket : ordinary.depth (Byte.bracketLeft :: t) 1 = 0 := by
    apply depth_of_neither
    · intro hopener
      cases head?_of_opener hopener
    · intro hcloser
      cases head?_of_closer hcloser
  have hfirst : ordinary.depth (ordinary.opener ++ t) 1 = 1 :=
    depth_of_opener (List.prefix_append ordinary.opener t)
  change ordinary.depth _ (1 + 1) = 1
  rw [depth_add, hfirst]
  exact congrArg ((1 : Int) + ·) hbracket

/-- A closer starts with its bracket. -/
theorem not_closer_of_run (h : ∀ b ∈ bytes, b ≠ Byte.bracketRight) (t : List UInt8) {i : Nat}
    (hi : i < bytes.length) : ¬form.closer <+: (bytes ++ t).drop i := by
  intro hcloser
  have hhead := head?_of_closer hcloser
  rw [List.head?_drop, List.getElem?_append_left hi, List.getElem?_eq_getElem hi] at hhead
  exact h _ (List.getElem_mem hi) (Option.some.inj hhead)

/-- Where neither an opener nor a closer starts, the depth does not change. -/
theorem depth_eq_zero (hopener : ∀ i < n, ¬form.opener <+: bytes.drop i)
    (hcloser : ∀ i < n, ¬form.closer <+: bytes.drop i) : form.depth bytes n = 0 := by
  rw [depth, Text.occurrences_eq_zero hopener, Text.occurrences_eq_zero hcloser]
  rfl

theorem depth_congr
    (hopener : ∀ i < n, form.opener <+: bytes.drop i ↔ form.opener <+: bytes'.drop i)
    (hcloser : ∀ i < n, form.closer <+: bytes.drop i ↔ form.closer <+: bytes'.drop i) :
    form.depth bytes n = form.depth bytes' n := by
  rw [depth, Text.occurrences_congr hopener, Text.occurrences_congr hcloser, ← depth]

theorem closesAt_add (form : BlockForm) (modulus : Nat) (bytes : List UInt8) (inner : Int)
    (m n : Nat) :
    form.ClosesAt modulus bytes inner (m + n) ↔
      form.ClosesAt modulus (bytes.drop m) (inner + form.depth bytes m) n := by
  rw [ClosesAt, ClosesAt, List.drop_drop, depth_add, Int.add_assoc]

theorem not_closesAt_nil (form : BlockForm) (modulus : Nat) (inner : Int) (n : Nat) :
    ¬form.ClosesAt modulus [] inner n := by
  rintro ⟨hcloser, -⟩
  have hhead := head?_of_closer hcloser
  rw [List.drop_nil] at hhead
  cases hhead

/-- A closer stands within the bytes. -/
theorem ClosesAt.add_length_le (h : form.ClosesAt modulus bytes inner n) :
    n + form.closer.length ≤ bytes.length := by
  have hlen := h.1.length_le
  have hpos : 0 < form.closer.length := by cases form <;> decide
  rw [List.length_drop] at hlen
  omega

/-! ## Exact counts -/

theorem depth_le (form : BlockForm) (bytes : List UInt8) (n : Nat) :
    form.depth bytes n ≤ Text.occurrences form.opener bytes n := by
  rw [depth]
  omega

/-- A closer takes the depth below 0 only if it closes the comment. -/
theorem depth_nonneg (h : ∀ i < n, ¬form.ClosesAt 0 bytes 0 i) : 0 ≤ form.depth bytes n := by
  induction n with
  | zero => exact Int.le_refl 0
  | succ n ih =>
    have hbefore := ih fun i hi => h i (Nat.lt_succ_of_lt hi)
    rw [depth_add]
    by_cases hcloser : form.closer <+: bytes.drop n
    · have hopen : form.depth bytes n ≠ 0 := by
        intro hzero
        refine h n (Nat.lt_succ_self n) ⟨hcloser, ?_⟩
        rw [hzero]
        exact Int.dvd_refl 0
      rw [depth_of_closer hcloser]
      omega
    · rw [depth_one, if_neg hcloser]
      split
      · omega
      · omega

theorem ClosesAt.of_exact (h : form.ClosesAt 0 bytes inner n) (modulus : Nat) :
    form.ClosesAt modulus bytes inner n := by
  refine ⟨h.1, ?_⟩
  rw [Int.zero_dvd.1 h.2]
  exact Int.dvd_zero _

/-- With fewer openers than the modulus, the first closer at depth 0 is found. -/
theorem ClosesAt.exact (h : form.ClosesAt modulus bytes 0 n)
    (hfirst : ∀ i < n, ¬form.ClosesAt 0 bytes 0 i)
    (hopeners : Text.occurrences form.opener bytes n < modulus) : form.ClosesAt 0 bytes 0 n := by
  have hle := form.depth_le bytes n
  have hzero := Int.emod_eq_zero_of_dvd h.2
  rw [Int.zero_add, Int.emod_eq_of_lt (depth_nonneg hfirst) (by omega)] at hzero
  refine ⟨h.1, ?_⟩
  rw [hzero]
  exact Int.dvd_refl 0

end BlockForm

/-! ## One line -/

namespace BlockLine

/-- The counter of open blocks is at 0 at every multiple of 2³². -/
theorem ofInt_eq_zero_iff (n : Int) : UInt32.ofInt n = 0 ↔ (pow2 32 : Int) ∣ n := by
  have hpow : (pow2 32 : Int) = 4294967296 := rfl
  have hmod : (n % 4294967296).toNat < 4294967296 := by omega
  have hnat : (UInt32.ofInt n).toNat = (n % 4294967296).toNat := UInt32.toNat_ofNat_of_lt' hmod
  rw [← UInt32.toNat_inj, hnat, UInt32.toNat_zero, hpow]
  omega

theorem exists_eq_ofInt (depth : UInt32) : ∃ n, depth = .ofInt n := by
  have hlt := depth.toNat_lt
  refine ⟨depth.toNat, ?_⟩
  rw [UInt32.ofInt, Int.emod_eq_of_lt (by omega) (by omega), Int.toNat_natCast,
    UInt32.ofNat_toNat]

/-- What the part of a comment on a line is: the bytes up to the first closer at depth 0, or the
whole line with the blocks that are open at its end. -/
inductive Ends (form : BlockForm) (inner : Int) (line : List UInt8) : BlockLine → Prop
  | closed {n : Nat} (h : form.ClosesAt (pow2 32) line inner n)
      (hfirst : ∀ i < n, ¬form.ClosesAt (pow2 32) line inner i) :
      Ends form inner line ⟨line.take n, n + form.closer.length, none⟩
  | goesOn {depth : UInt32} (hdepth : depth = .ofInt (inner + form.depth line line.length))
      (hnone : ∀ i, ¬form.ClosesAt (pow2 32) line inner i) :
      Ends form inner line ⟨line, line.length, some depth⟩

variable {form : BlockForm} {inner : Int} {b : UInt8} {rest : List UInt8} {l : BlockLine}

/-- A byte that does not close the comment stands in front of its part on the line. -/
theorem Ends.cons (hhere : ¬form.ClosesAt (pow2 32) (b :: rest) inner 0)
    (h : Ends form (inner + form.depth (b :: rest) 1) rest l) :
    Ends form inner (b :: rest) (cons b l) := by
  have hnext : ∀ n, form.ClosesAt (pow2 32) (b :: rest) inner (n + 1) ↔
      form.ClosesAt (pow2 32) rest (inner + form.depth (b :: rest) 1) n := by
    intro n
    rw [Nat.add_comm]
    exact form.closesAt_add (pow2 32) (b :: rest) inner 1 n
  cases h with
  | @closed n h hfirst =>
    have hends := Ends.closed ((hnext n).2 h) fun i hi => by
      cases i with
      | zero => exact hhere
      | succ i => exact mt (hnext i).1 (hfirst i (Nat.lt_of_succ_lt_succ hi))
    rw [Nat.add_right_comm] at hends
    exact hends
  | goesOn hdepth hnone =>
    refine .goesOn ?_ fun i => ?_
    · rw [List.length_cons, Nat.add_comm, form.depth_add, ← Int.add_assoc]
      exact hdepth
    · cases i with
      | zero => exact hhere
      | succ i => exact mt (hnext i).1 (hnone i)

theorem ends_scan (form : BlockForm) {depth : UInt32} {inner : Int} (hdepth : depth = .ofInt inner)
    (line : List UInt8) : Ends form inner line (scan form depth line) := by
  fun_induction scan form depth line generalizing inner with
  | case1 depth =>
    refine .goesOn ?_ (form.not_closesAt_nil _ _)
    rw [hdepth, List.length_nil, form.depth_zero, Int.add_zero]
  | case2 depth b rest hopener ih =>
    have hopener := List.isPrefixOf_iff_prefix.1 hopener
    refine .cons (fun hcloses => BlockForm.not_closer_of_opener hopener hcloses.1) ?_
    rw [BlockForm.depth_of_opener hopener]
    exact ih (by rw [hdepth, UInt32.ofInt_add, UInt32.ofInt_one])
  | case3 b rest hopener hcloser =>
    have hcloser := List.isPrefixOf_iff_prefix.1 hcloser
    have hzero : (pow2 32 : Int) ∣ inner + form.depth (b :: rest) 0 := by
      rw [form.depth_zero, Int.add_zero, ← ofInt_eq_zero_iff, ← hdepth]
    have hends : Ends form inner (b :: rest) ⟨[], 0 + form.closer.length, none⟩ :=
      .closed (n := 0) ⟨hcloser, hzero⟩ fun i hi => absurd hi (Nat.not_lt_zero i)
    rw [Nat.zero_add] at hends
    exact hends
  | case4 depth b rest hopener hcloser hne ih =>
    have hcloser := List.isPrefixOf_iff_prefix.1 hcloser
    refine .cons ?_ ?_
    · rintro ⟨-, hzero⟩
      rw [form.depth_zero, Int.add_zero, ← ofInt_eq_zero_iff, ← hdepth] at hzero
      exact hne hzero
    · rw [BlockForm.depth_of_closer hcloser]
      exact ih (by rw [hdepth, UInt32.ofInt_add, UInt32.ofInt_neg, UInt32.ofInt_one,
        UInt32.sub_eq_add_neg])
  | case5 depth b rest hopener hcloser ih =>
    have hopener := mt List.isPrefixOf_iff_prefix.2 hopener
    have hcloser := mt List.isPrefixOf_iff_prefix.2 hcloser
    refine .cons (fun hcloses => hcloser hcloses.1) ?_
    rw [BlockForm.depth_of_neither hopener hcloser, Int.add_zero]
    exact ih hdepth

/-- The comment's bytes on a line are bytes of the line. -/
theorem text_scan_subset (form : BlockForm) (depth : UInt32) (line : List UInt8) :
    (scan form depth line).text ⊆ line := by
  obtain ⟨inner, hdepth⟩ := exists_eq_ofInt depth
  have hends := ends_scan form hdepth line
  generalize scan form depth line = l at hends ⊢
  cases hends with
  | closed => exact List.take_subset _ _
  | goesOn => exact List.Subset.refl _

/-- The part of a comment on a line where it is closed. -/
theorem closes_of_scan {depth : UInt32} (hdepth : depth = .ofInt inner) {line : List UInt8}
    (h : (scan form depth line).depth = none) :
    ∃ n, form.ClosesAt (pow2 32) line inner n ∧
      (∀ i < n, ¬form.ClosesAt (pow2 32) line inner i) ∧
      scan form depth line = ⟨line.take n, n + form.closer.length, none⟩ := by
  have hends := ends_scan form hdepth line
  cases hl : scan form depth line with
  | mk text length rest =>
    rw [hl] at h hends
    cases hends with
    | @closed n hcloses hfirst => exact ⟨n, hcloses, hfirst, rfl⟩
    | goesOn => cases h

/-- The part of a comment on a line where it is not closed. -/
theorem goesOn_of_scan {depth depth' : UInt32} (hdepth : depth = .ofInt inner) {line : List UInt8}
    (h : (scan form depth line).depth = some depth') :
    depth' = .ofInt (inner + form.depth line line.length) ∧
      (∀ i, ¬form.ClosesAt (pow2 32) line inner i) ∧ (scan form depth line).text = line := by
  have hends := ends_scan form hdepth line
  cases hl : scan form depth line with
  | mk text length rest =>
    rw [hl] at h hends
    cases hends with
    | closed => cases h
    | goesOn hdepth hnone =>
      obtain rfl := Option.some.inj h
      exact ⟨hdepth, hnone, rfl⟩

end BlockLine

/-! ## Any bytes -/

namespace Text

/-- How a block comment ends that goes on from an offset with `inner` blocks open, counted modulo
`modulus`: whether it is closed, and the offset behind it. -/
inductive BlockEnds (form : BlockForm) (modulus : Nat) (input : List UInt8) (inner : Int)
    (s : Nat) : Bool → Nat → Prop
  | closed {n : Nat} (h : form.ClosesAt modulus (input.drop s) inner n)
      (hfirst : ∀ i < n, ¬form.ClosesAt modulus (input.drop s) inner i) :
      BlockEnds form modulus input inner s true (s + n + form.closer.length)
  | unterminated (h : ∀ i, ¬form.ClosesAt modulus (input.drop s) inner i) :
      BlockEnds form modulus input inner s false input.length

namespace BlockEnds

variable {form : BlockForm} {modulus : Nat} {input : List UInt8} {inner : Int} {s stop stop' : Nat}
  {closed closed' : Bool}

/-- With fewer openers than the modulus, the count is exact. -/
theorem exact (h : BlockEnds form modulus input 0 s closed stop)
    (hopeners : occurrences form.opener input input.length < modulus) :
    BlockEnds form 0 input 0 s closed stop := by
  cases h with
  | @closed n h hfirst =>
    have hnone : ∀ i < n, ¬form.ClosesAt 0 (input.drop s) 0 i :=
      fun i hi hcloses => hfirst i hi (hcloses.of_exact modulus)
    have hle := occurrences_drop_le form.opener_ne_nil input s n
    exact .closed (h.exact hnone (Nat.lt_of_le_of_lt hle hopeners)) hnone
  | unterminated h => exact .unterminated fun i hcloses => h i (hcloses.of_exact modulus)

theorem unique (h : BlockEnds form modulus input inner s closed stop)
    (h' : BlockEnds form modulus input inner s closed' stop') :
    closed = closed' ∧ stop = stop' := by
  cases h with
  | @closed n h hfirst =>
    cases h' with
    | @closed m h' hfirst' =>
      rcases Nat.lt_trichotomy n m with hlt | rfl | hlt
      · exact absurd h (hfirst' n hlt)
      · exact ⟨rfl, rfl⟩
      · exact absurd h' (hfirst m hlt)
    | unterminated h' => exact absurd h (h' n)
  | unterminated h =>
    cases h' with
    | closed h' => exact absurd h' (h _)
    | unterminated => exact ⟨rfl, rfl⟩

theorem eq_length (h : BlockEnds form modulus input inner s false stop) : stop = input.length := by
  cases h
  rfl

/-- Bytes in which the comment does not end may be passed first. -/
theorem of_drop {m : Nat} (hnone : ∀ i < m, ¬form.ClosesAt modulus (input.drop s) inner i)
    (h : BlockEnds form modulus input (inner + form.depth (input.drop s) m) (s + m) closed stop) :
    BlockEnds form modulus input inner s closed stop := by
  have hbehind : ∀ i, form.ClosesAt modulus (input.drop (s + m))
      (inner + form.depth (input.drop s) m) i ↔
        form.ClosesAt modulus (input.drop s) inner (m + i) := by
    intro i
    rw [form.closesAt_add, List.drop_drop]
  cases h with
  | @closed n h hfirst =>
    have hends := BlockEnds.closed ((hbehind n).1 h) fun i hi => by
      by_cases hlt : i < m
      · exact hnone i hlt
      · obtain ⟨j, rfl⟩ := Nat.exists_eq_add_of_le (Nat.not_lt.1 hlt)
        exact mt (hbehind j).2 (hfirst j (by omega))
    rw [← Nat.add_assoc s] at hends
    exact hends
  | unterminated h =>
    refine .unterminated fun i => ?_
    by_cases hlt : i < m
    · exact hnone i hlt
    · obtain ⟨j, rfl⟩ := Nat.exists_eq_add_of_le (Nat.not_lt.1 hlt)
      exact mt (hbehind j).2 (h j)

/-- Bytes that no opener or closer starts with may be passed first. -/
theorem of_passes {c d : Cursor Text}
    (hpasses : c.Passes input (fun b => b ≠ Byte.hash ∧ b ≠ Byte.bracketRight) d)
    (h : BlockEnds form modulus input inner d.offset closed stop) :
    BlockEnds form modulus input inner c.offset closed stop := by
  obtain ⟨m, hm⟩ := Nat.exists_eq_add_of_le hpasses.le
  have hbyte : ∀ i < m, ∀ b, ((input.drop c.offset).drop i).head? = some b →
      b ≠ Byte.hash ∧ b ≠ Byte.bracketRight := by
    intro i hi b hb
    rw [List.drop_drop, List.head?_drop] at hb
    exact hpasses.between _ b (Nat.le_add_right _ _) (by omega) hb
  have hopener : ∀ i < m, ¬form.opener <+: (input.drop c.offset).drop i :=
    fun i hi h => (hbyte i hi _ (BlockForm.head?_of_opener h)).1 rfl
  have hcloser : ∀ i < m, ¬form.closer <+: (input.drop c.offset).drop i :=
    fun i hi h => (hbyte i hi _ (BlockForm.head?_of_closer h)).2 rfl
  refine of_drop (fun i hi hcloses => hcloser i hi hcloses.1) ?_
  rw [BlockForm.depth_eq_zero hopener hcloser, Int.add_zero, ← hm]
  exact h

end BlockEnds

/-- How a block comment ends whose contents start at an offset. Depths are counted in 32 bits, which
is exact as long as there are fewer openers. -/
structure BlockExtent (form : BlockForm) (input : List UInt8) (s : Nat) (closed : Bool)
    (stop : Nat) : Prop where
  counted : BlockEnds form (pow2 32) input 0 s closed stop
  exact_of_lt : occurrences form.opener input input.length < pow2 32 →
    BlockEnds form 0 input 0 s closed stop

theorem BlockEnds.extent {form : BlockForm} {input : List UInt8} {s stop : Nat} {closed : Bool}
    (h : BlockEnds form (pow2 32) input 0 s closed stop) : BlockExtent form input s closed stop :=
  ⟨h, h.exact⟩

end Text

/-! ## Scans -/

section Within

variable {form : BlockForm} {modulus : Nat} {input : List UInt8} {inner : Int} {c : Cursor Text}

namespace Cursor

/-- On the line of a cursor, the line and the input tell the same depths. -/
theorem Within.depth_eq (h : c.Within input) (form : BlockForm) {i : Nat}
    (hi : i ≤ c.rest.length) : form.depth c.rest i = form.depth (input.drop c.offset) i :=
  BlockForm.depth_congr (fun _ hj => h.prefix_iff form.isText_opener (by omega))
    fun _ hj => h.prefix_iff form.isText_closer (by omega)

theorem Within.blockClosesAt_iff (h : c.Within input) {i : Nat} (hi : i ≤ c.rest.length) :
    form.ClosesAt modulus c.rest inner i ↔
      form.ClosesAt modulus (input.drop c.offset) inner i := by
  rw [BlockForm.ClosesAt, BlockForm.ClosesAt, h.prefix_iff form.isText_closer hi,
    h.depth_eq form hi]

variable {p : UInt8 → Prop}

theorem passes_spaces (h : c.Within input) (hp : p Byte.space) {n : Nat}
    (hn : n ≤ leadingSpaces c.rest) : Passes input p c (c.advance n) := by
  refine passes_advance h (Nat.le_trans hn (leadingSpaces_le _)) fun b hb => ?_
  rw [eq_space_of_mem_take ((List.take_prefix_take_left hn).subset hb)]
  exact hp

/-- Behind the text of a line come its terminator and the spaces in front of the next line. -/
theorem passes_indent (h : c.Within input) (hlast : c.isLast = false) (hp : p Byte.space)
    (hbreak : ∀ b, Byte.isBreak b = true → p b) {n : Nat}
    (hn : n ≤ leadingSpaces c.nextLine.rest) :
    Passes input p c.lineEnd (c.nextLine.advance n) := by
  have hnext : Passes input p c.lineEnd c.lineEnd.nextLine := by
    refine passes_nextLine (h.advance (Nat.le_refl _)) ?_ hbreak
    rw [c.rest_lineEnd]
    exact List.forall_mem_nil _
  rw [lineEnd, nextLine_advance hlast] at hnext
  exact hnext.trans (passes_spaces hnext.within hp hn)

end Cursor

namespace BlockComment

/-- A scan takes a comment to where the bytes tell. -/
theorem ends_scan (form : BlockForm) (limit strip : Nat) (depth : UInt32) (h : c.Within input) :
    ∀ inner : Int, depth = .ofInt inner → Text.BlockEnds form (pow2 32) input inner c.offset
      (scan form limit strip depth c).closed
      (scan form limit strip depth c).cursor.offset := by
  fun_induction scan form limit strip depth c with
  | case1 depth c l hd =>
    intro inner hdepth
    obtain ⟨n, hcloses, hfirst, hl⟩ := BlockLine.closes_of_scan hdepth hd
    have hlength : l.length = n + form.closer.length := congrArg BlockLine.length hl
    have hle := hcloses.add_length_le
    rw [Cursor.offset_advance, hlength, ← Nat.add_assoc]
    refine .closed ((h.blockClosesAt_iff (by omega)).1 hcloses) fun i hi => ?_
    exact mt (h.blockClosesAt_iff (by omega)).2 (hfirst i hi)
  | case2 depth c l depth' hd hlast =>
    intro inner hdepth
    obtain ⟨-, hnone, -⟩ := BlockLine.goesOn_of_scan hdepth hd
    have hoffset : c.lineEnd.offset = input.length :=
      (h.advance (Nat.le_refl _)).offset_eq hlast c.rest_lineEnd
    rw [hoffset]
    refine .unterminated ?_
    rw [h.drop_offset_of_isLast hlast]
    exact hnone
  | case3 depth c l depth' hd hlast more ih =>
    intro inner hdepth
    obtain ⟨hbehind, hnone, -⟩ := BlockLine.goesOn_of_scan hdepth hd
    have hgap := Cursor.passes_indent (n := min strip _) h (Bool.eq_false_iff.2 hlast)
      (by decide) Byte.ne_delimiter_of_isBreak (Nat.min_le_right _ _)
    refine Text.BlockEnds.of_drop (m := c.rest.length) (fun i hi => ?_) ?_
    · exact mt (h.blockClosesAt_iff (Nat.le_of_lt hi)).2 (hnone i)
    · rw [← h.depth_eq form (Nat.le_refl _), ← Cursor.offset_advance]
      exact .of_passes hgap (ih hgap.within _ hbehind)

theorem ends_documentation (limit : Nat) (h : c.Within input) :
    Text.BlockEnds .documentation (pow2 32) input 0 c.offset (documentation limit c).closed
      (documentation limit c).cursor.offset := by
  unfold documentation
  dsimp only
  split
  · rename_i hempty
    have hspaces : ∀ b ∈ c.rest, b ≠ Byte.hash ∧ b ≠ Byte.bracketRight := by
      intro b hb
      rw [← List.take_length (l := c.rest), ← hempty.1] at hb
      rw [eq_space_of_mem_take hb]
      decide
    have hnext := Cursor.passes_nextLine h hspaces Byte.ne_delimiter_of_isBreak
    have hindent := hnext.trans (Cursor.passes_spaces hnext.within (by decide) (Nat.le_refl _))
    exact .of_passes hindent (ends_scan .documentation limit _ 0 hindent.within 0 rfl)
  · have hindent : c.Passes input (fun b => b ≠ Byte.hash ∧ b ≠ Byte.bracketRight)
        (c.advance (leadingSpaces c.rest)) :=
      Cursor.passes_spaces h (by decide) (Nat.le_refl _)
    exact .of_passes hindent (ends_scan .documentation limit _ 0 hindent.within 0 rfl)

/-- What a scan of an ordinary block takes is its text and its closer, but for the terminators. -/
theorem unify_scan (form : BlockForm) (limit : Nat) (depth : UInt32) (h : c.Within input) :
    ∃ n, (scan form limit 0 depth c).cursor.offset = c.offset + n ∧
      Text.unify ((input.drop c.offset).take n) = (scan form limit 0 depth c).text ++
        if (scan form limit 0 depth c).closed then form.closer else [] := by
  fun_induction scan form limit 0 depth c with
  | case1 depth c l hd =>
    obtain ⟨inner, hdepth⟩ := BlockLine.exists_eq_ofInt depth
    obtain ⟨n, hcloses, -, hl⟩ := BlockLine.closes_of_scan hdepth hd
    have hlength : l.length = n + form.closer.length := congrArg BlockLine.length hl
    have htext : l.text = c.rest.take n := congrArg BlockLine.text hl
    have hle := hcloses.add_length_le
    obtain ⟨more, hmore⟩ := hcloses.1
    have hline : (input.drop c.offset).take (n + form.closer.length) =
        c.rest.take n ++ form.closer := by
      rw [h.drop_offset, List.take_append_of_le_length hle, List.take_add, ← hmore,
        List.take_left]
    refine ⟨n + form.closer.length, ?_, ?_⟩
    · rw [Cursor.offset_advance, hlength]
    · rw [hline, htext]
      apply Text.unify_of_isText
      refine List.forall_mem_append.2 ⟨fun b hb => ?_, form.isText_closer⟩
      exact h.isText_of_mem_rest (List.mem_of_mem_take hb)
  | case2 depth c l depth' hd hlast =>
    obtain ⟨inner, hdepth⟩ := BlockLine.exists_eq_ofInt depth
    obtain ⟨-, -, htext⟩ := BlockLine.goesOn_of_scan hdepth hd
    refine ⟨c.rest.length, c.offset_advance _, ?_⟩
    rw [h.drop_offset_of_isLast hlast, List.take_length,
      Text.unify_of_isText fun _ => h.isText_of_mem_rest]
    change c.rest = l.text ++ []
    rw [List.append_nil]
    exact htext.symm
  | case3 depth c l depth' hd hlast more ih =>
    obtain ⟨inner, hdepth⟩ := BlockLine.exists_eq_ofInt depth
    obtain ⟨-, -, hline⟩ := BlockLine.goesOn_of_scan hdepth hd
    have hlast := Bool.eq_false_iff.2 hlast
    obtain ⟨b, rest, hdrop, hb, hnext⟩ := h.exists_terminator hlast
    have hstay : dropSpaces 0 c.nextLine = c.nextLine := by
      rw [dropSpaces, Nat.zero_min]
      rfl
    obtain ⟨n, hoffset, htext⟩ := ih (by rw [hstay]; exact (Cursor.within_nextLine h hlast).1)
    rw [hstay, hnext] at hoffset htext
    refine ⟨c.rest.length + Text.terminatorLength (b :: rest) + n, ?_, ?_⟩
    · rw [← Nat.add_assoc, ← Nat.add_assoc]
      exact hoffset
    · rw [← List.drop_drop, hdrop] at htext
      rw [← h.rest_append, hdrop, Text.unify_line (fun _ => h.isText_of_mem_rest) hb, htext,
        ← List.cons_append, ← List.append_assoc]
      change _ = l.text ++ _ ++ _
      rw [show l.text = c.rest from hline]
      rfl

end BlockComment
end Within

/-! ## Complaints -/

section Messages

variable {σ : Type} [LineSource σ]

/-- Hints about long lines say nothing of comments. -/
theorem Cursor.about_lengthHint (limit : Nat) (c : Cursor σ) :
    Diagnostic.about .unterminatedComment (c.lengthHint limit) = [] :=
  Diagnostic.about_eq_nil fun d hd => c.message_lengthHint limit d hd ▸ Message.noConfusion

namespace BlockComment

/-- A block that is not closed is reported where its scan ends, once. -/
theorem about_scan (form : BlockForm) (limit strip : Nat) (depth : UInt32) (c : Cursor σ) :
    Diagnostic.about .unterminatedComment (scan form limit strip depth c).diagnostics =
      if (scan form limit strip depth c).closed then []
      else [(scan form limit strip depth c).cursor.report .unterminatedComment] := by
  fun_induction scan form limit strip depth c with
  | case1 depth c l hd => rfl
  | case2 depth c l depth' hd hlast => rfl
  | case3 depth c l depth' hd hlast more ih =>
    rw [Diagnostic.about_append, c.about_lengthHint]
    exact ih

theorem about_documentation (limit : Nat) (c : Cursor σ) :
    Diagnostic.about .unterminatedComment (documentation limit c).diagnostics =
      if (documentation limit c).closed then []
      else [(documentation limit c).cursor.report .unterminatedComment] := by
  unfold documentation
  dsimp only
  split
  · rw [Diagnostic.about_append, c.about_lengthHint]
    exact about_scan _ _ _ _ _
  · exact about_scan _ _ _ _ _

end BlockComment
end Messages
end Lexeme
