import Lexeme.Literal.TripleString
import Lexeme.Proofs.Source.Location
import Lexeme.Proofs.Layout.Leads

/-!
# Where triple-quoted strings end

The bytes alone tell where a triple-quoted string ends: at the first three quotes behind its opening
that no fourth one follows, or else where the input does. A scan finds this place line by line, and
what it has passed by then are the contents, with a line feed for every terminator.
-/

set_option autoImplicit false

namespace Lexeme

/-! ## One line -/

namespace TripleLine

theorem closes_iff {bytes : List UInt8} :
    closes bytes = true ↔ ∃ more, bytes = Byte.quote :: Byte.quote :: Byte.quote :: more ∧
      more.head? ≠ some Byte.quote := by
  constructor
  · intro h
    unfold closes at h
    split at h
    · exact ⟨[], rfl, nofun⟩
    · rename_i b rest
      exact ⟨b :: rest, rfl, fun hb => bne_iff_ne.1 h (Option.some.inj hb)⟩
    · cases h
  · rintro ⟨more, rfl, hmore⟩
    cases more with
    | nil => rfl
    | cons b rest => exact bne_iff_ne.2 fun hb => hmore (congrArg some hb)

/-- Bytes that do not start with a quote make no difference behind a line. -/
theorem closes_append {after : List UInt8} (h : after.head? ≠ some Byte.quote) (line : List UInt8) :
    closes (line ++ after) = closes line := by
  have hquote : ∀ {bytes more : List UInt8}, bytes ++ after = Byte.quote :: more →
      ∃ rest, bytes = Byte.quote :: rest ∧ rest ++ after = more := by
    intro bytes more heq
    rcases List.append_eq_cons_iff.1 heq with ⟨-, hafter⟩ | ⟨rest, hbytes, hmore⟩
    · rw [hafter] at h
      exact absurd rfl h
    · exact ⟨rest, hbytes, hmore.symm⟩
  have hhead : ∀ rest : List UInt8, (rest ++ after).head? ≠ some Byte.quote ↔
      rest.head? ≠ some Byte.quote := by
    rintro (_ | ⟨b, rest⟩)
    · exact ⟨fun _ => nofun, fun _ => h⟩
    · exact Iff.rfl
  rw [Bool.eq_iff_iff, closes_iff, closes_iff]
  constructor
  · rintro ⟨more, hthree, hmore⟩
    obtain ⟨line, rfl, htwo⟩ := hquote hthree
    obtain ⟨line, rfl, hone⟩ := hquote htwo
    obtain ⟨line, rfl, rfl⟩ := hquote hone
    exact ⟨line, rfl, (hhead line).1 hmore⟩
  · rintro ⟨more, rfl, hmore⟩
    exact ⟨more ++ after, rfl, (hhead more).2 hmore⟩

/-- Closing quotes do not go over the end of a line. -/
theorem closes_first (bytes : List UInt8) : closes (Line.first bytes).bytes = closes bytes := by
  rcases Line.split bytes with hs | ⟨text, b, rest, rfl, ht, hb⟩
  · rw [Line.first_of_isText hs]
  · rw [Line.first_append_cons ht hb]
    refine (closes_append (fun hquote => ?_) text).symm
    rw [Option.some.inj hquote] at hb
    cases hb

/-- On a line a scan stops at the first closing quotes, or it takes the whole line. -/
theorem scan_cases (line : List UInt8) :
    (∃ n, closes (line.drop n) = true ∧ (∀ i < n, closes (line.drop i) = false) ∧
      scan line = ⟨line.take n, n + 3, true⟩) ∨
    (∀ i, closes (line.drop i) = false) ∧ scan line = ⟨line, line.length, false⟩ := by
  fun_induction scan line with
  | case1 =>
    refine .inr ⟨fun i => ?_, rfl⟩
    rw [List.drop_nil]
    rfl
  | case2 b rest h => exact .inl ⟨0, h, fun i hi => absurd hi (Nat.not_lt_zero i), rfl⟩
  | case3 b rest h ih =>
    have hhere : closes (b :: rest) = false := Bool.eq_false_iff.2 h
    rcases ih with ⟨n, hcloses, hfirst, hscan⟩ | ⟨hnone, hscan⟩
    · refine .inl ⟨n + 1, hcloses, ?_, by rw [hscan]; rfl⟩
      rintro (_ | i) hi
      · exact hhere
      · exact hfirst i (Nat.lt_of_succ_lt_succ hi)
    · refine .inr ⟨?_, by rw [hscan]; rfl⟩
      rintro (_ | i)
      · exact hhere
      · exact hnone i

/-- Where a line is taken as a whole, no closing quotes start. -/
theorem not_closes_of_open {line : List UInt8} (hopen : ¬(scan line).closed = true) :
    (scan line).text = line ∧ ∀ i, ¬closes (line.drop i) = true := by
  rcases scan_cases line with ⟨n, -, -, hscan⟩ | ⟨hnone, hscan⟩
  · rw [hscan] at hopen
    exact absurd rfl hopen
  · rw [hscan]
    exact ⟨rfl, fun i => Bool.eq_false_iff.1 (hnone i)⟩

end TripleLine

/-! ## Any bytes -/

namespace Text

/-- Three quotes stand at an offset, and no fourth one behind them. -/
def ClosesAt (input : List UInt8) (i : Nat) : Prop :=
  ∃ more, input.drop i = Byte.quote :: Byte.quote :: Byte.quote :: more ∧
    more.head? ≠ some Byte.quote

/-- The bytes with a line feed for every terminator. -/
def unify : List UInt8 → List UInt8
  | [] => []
  | Byte.cr :: Byte.lf :: rest => Byte.lf :: unify rest
  | b :: rest => (if b = Byte.cr then Byte.lf else b) :: unify rest

/-- How a triple-quoted string ends whose contents start at an offset: its contents, whether it is
closed, and the offset behind it. -/
inductive TripleEnds (input : List UInt8) (p : Nat) : List UInt8 → Bool → Nat → Prop
  | closed {n : Nat} (h : ClosesAt input (p + n)) (hfirst : ∀ i < n, ¬ClosesAt input (p + i)) :
      TripleEnds input p (unify ((input.drop p).take n)) true (p + n + 3)
  | unterminated (h : ∀ i, ¬ClosesAt input (p + i)) :
      TripleEnds input p (unify (input.drop p)) false input.length

/-- Where the contents start if the opening quotes end at an offset: on the next line, if nothing
but blanks is left of this one. -/
def contentsStart (input : List UInt8) (p : Nat) : Nat :=
  let line := Line.first (input.drop p)
  if line.bytes.all TripleString.isBlank ∧ line.ending ≠ .eof then
    p + lineLength (input.drop p)
  else p

section ClosesAt

variable {input : List UInt8} {i : Nat}

theorem closesAt_iff : ClosesAt input i ↔ TripleLine.closes (input.drop i) = true :=
  TripleLine.closes_iff.symm

instance (input : List UInt8) (i : Nat) : Decidable (ClosesAt input i) :=
  decidable_of_iff _ closesAt_iff.symm

theorem ClosesAt.getElem? (h : ClosesAt input i) : input[i]? = some Byte.quote := by
  obtain ⟨more, hdrop, -⟩ := h
  have hhead : (input.drop i).head? = input[i]? := List.head?_drop
  rw [hdrop] at hhead
  exact hhead.symm

end ClosesAt

/-! ### Terminators -/

theorem unify_append {text : List UInt8} (h : ∀ c ∈ text, Line.isText c = true)
    (more : List UInt8) : unify (text ++ more) = text ++ unify more := by
  induction text with
  | nil => rfl
  | cons c text ih =>
    rw [List.forall_mem_cons] at h
    have hc : c ≠ Byte.cr := by
      rintro rfl
      cases h.1
    rw [List.cons_append, unify, if_neg hc, ih h.2, List.cons_append]
    rintro rest rfl
    exact absurd rfl hc

theorem unify_of_isText {text : List UInt8} (h : ∀ c ∈ text, Line.isText c = true) :
    unify text = text := by
  have htext := unify_append h []
  rw [List.append_nil] at htext
  exact htext.trans (List.append_nil text)

/-- The terminator in front is one line feed, however much of what follows is taken. -/
theorem unify_terminator {b : UInt8} {rest : List UInt8} (h : Byte.isBreak b = true) (n : Nat) :
    unify ((b :: rest).take (terminatorLength (b :: rest) + n)) =
      Byte.lf :: unify (((b :: rest).drop (terminatorLength (b :: rest))).take n) := by
  generalize hbytes : b :: rest = bytes
  fun_cases terminatorLength bytes with
  | case1 => cases hbytes
  | case2 rest' =>
    rw [Nat.add_comm]
    rfl
  | case3 c rest' hpair =>
    obtain ⟨rfl, rfl⟩ := List.cons.inj hbytes
    have hfeed : (if b = Byte.cr then Byte.lf else b) = Byte.lf := by
      rcases Bool.or_eq_true_iff.1 h with h | h
      · rw [if_pos (beq_iff_eq.1 h)]
      · obtain rfl := beq_iff_eq.1 h
        rfl
    rw [Nat.add_comm, List.take_succ_cons, unify, hfeed]
    · rfl
    · rintro rest' rfl htake
      cases rest with
      | nil => rw [List.take_nil] at htake; cases htake
      | cons c rest =>
        cases n with
        | zero => cases htake
        | succ n =>
          obtain ⟨rfl, -⟩ := List.cons.inj htake
          exact hpair rest rfl rfl

/-- The same for a line with its terminator. -/
theorem unify_line {line rest : List UInt8} {b : UInt8} (h : ∀ c ∈ line, Line.isText c = true)
    (hb : Byte.isBreak b = true) (n : Nat) :
    unify ((line ++ b :: rest).take (line.length + terminatorLength (b :: rest) + n)) =
      line ++ Byte.lf :: unify (((b :: rest).drop (terminatorLength (b :: rest))).take n) := by
  rw [Nat.add_assoc, List.take_length_add_append, unify_append h, unify_terminator hb]

theorem cr_notMem_unify (bytes : List UInt8) : Byte.cr ∉ unify bytes := by
  fun_induction unify bytes with
  | case1 => exact List.not_mem_nil
  | case2 rest ih => exact fun hmem => (List.mem_cons.1 hmem).elim (by decide) ih
  | case3 b rest hpair ih =>
    refine fun hmem => (List.mem_cons.1 hmem).elim (fun hb => ?_) ih
    split at hb
    · cases hb
    · rename_i hne
      exact hne hb.symm

/-! ### Ends -/

namespace TripleEnds

variable {input text : List UInt8} {p stop : Nat} {closed : Bool}

/-- The end is that of the next line, if there are no closing quotes on this one. -/
theorem of_line {line rest : List UInt8} {b : UInt8} (hdrop : input.drop p = line ++ b :: rest)
    (hline : ∀ c ∈ line, Line.isText c = true) (hb : Byte.isBreak b = true)
    (hnone : ∀ i < line.length + terminatorLength (b :: rest), ¬ClosesAt input (p + i))
    (h : TripleEnds input (p + (line.length + terminatorLength (b :: rest))) text closed stop) :
    TripleEnds input p (line ++ Byte.lf :: text) closed stop := by
  have htext : ∀ n, unify ((input.drop p).take
      (line.length + terminatorLength (b :: rest) + n)) = line ++ Byte.lf ::
        unify ((input.drop (p + (line.length + terminatorLength (b :: rest)))).take n) := by
    intro n
    rw [← List.drop_drop, hdrop, unify_line hline hb, List.drop_length_add_append]
  cases h with
  | @closed n h hfirst =>
    rw [← htext, Nat.add_assoc p]
    rw [Nat.add_assoc] at h
    refine .closed h fun i hi => ?_
    by_cases hlt : i < line.length + terminatorLength (b :: rest)
    · exact hnone i hlt
    · obtain ⟨j, rfl⟩ := Nat.exists_eq_add_of_le (Nat.not_lt.1 hlt)
      rw [← Nat.add_assoc]
      exact hfirst j (by omega)
  | unterminated h =>
    have hall := htext input.length
    rw [List.take_of_length_le (by rw [List.length_drop]; omega),
      List.take_of_length_le (by rw [List.length_drop]; omega)] at hall
    rw [← hall]
    refine .unterminated fun i => ?_
    by_cases hlt : i < line.length + terminatorLength (b :: rest)
    · exact hnone i hlt
    · obtain ⟨j, rfl⟩ := Nat.exists_eq_add_of_le (Nat.not_lt.1 hlt)
      rw [← Nat.add_assoc]
      exact h j

theorem cr_notMem (h : TripleEnds input p text closed stop) : Byte.cr ∉ text := by
  cases h with
  | closed => exact cr_notMem_unify _
  | unterminated => exact cr_notMem_unify _

theorem closed_iff (h : TripleEnds input p text closed stop) :
    closed = true ↔ ∃ i, p ≤ i ∧ ClosesAt input i := by
  cases h with
  | closed h => exact iff_of_true rfl ⟨_, Nat.le_add_right _ _, h⟩
  | unterminated h =>
    refine iff_of_false Bool.false_ne_true ?_
    rintro ⟨i, hle, hcloses⟩
    obtain ⟨j, rfl⟩ := Nat.exists_eq_add_of_le hle
    exact h j hcloses

/-- The first closing quotes are the end. -/
theorem eq_of_closesAt {n : Nat} (h : TripleEnds input p text closed stop)
    (hcloses : ClosesAt input (p + n)) (hfirst : ∀ i < n, ¬ClosesAt input (p + i)) :
    text = unify ((input.drop p).take n) ∧ closed = true ∧ stop = p + n + 3 := by
  cases h with
  | @closed m h hm =>
    rcases Nat.lt_trichotomy m n with hlt | rfl | hlt
    · exact absurd h (hfirst m hlt)
    · exact ⟨rfl, rfl, rfl⟩
    · exact absurd hcloses (hm n hlt)
  | unterminated h => exact absurd hcloses (h n)

end TripleEnds
end Text

/-! ## Scans -/

namespace Cursor

variable {input : List UInt8} {c : Cursor Text}

theorem Within.closesAt_iff (h : c.Within input) {i : Nat} (hi : i ≤ c.rest.length) :
    Text.ClosesAt input (c.offset + i) ↔ TripleLine.closes (c.rest.drop i) = true := by
  rw [h.rest_eq] at hi
  have hdrop := Line.first_drop hi
  rw [← h.rest_eq, List.drop_drop] at hdrop
  rw [Text.closesAt_iff, ← TripleLine.closes_first, hdrop]

theorem Within.rest_append (h : c.Within input) :
    c.rest ++ input.drop (c.offset + c.rest.length) = input.drop c.offset := by
  have hdrop := h.drop_offset
  rw [← List.drop_drop, hdrop, List.drop_left]

theorem Within.drop_offset_of_isLast (h : c.Within input) (hlast : c.isLast = true) :
    input.drop c.offset = c.rest := by
  have hline := h.first_eq
  have heof : c.ending = .eof := by simpa [isLast] using hlast
  rw [heof] at hline
  have htext := Line.ending_eq_eof_iff.1 (congrArg Line.ending hline)
  rw [Line.first_of_isText htext] at hline
  exact congrArg Line.bytes hline

/-- The step to the next line is as long as the line that is left and its terminator. -/
theorem Within.offset_nextLine (h : c.Within input) (hlast : c.isLast = false) :
    c.nextLine.offset = c.offset + Text.lineLength (input.drop c.offset) := by
  obtain ⟨b, rest, hdrop, hb, hoffset⟩ := h.exists_terminator hlast
  rw [hoffset, Text.lineLength, ← h.rest_append, hdrop,
    Line.first_append_cons (fun _ => h.isText_of_mem_rest) hb,
    Line.afterText_append_cons (fun _ => h.isText_of_mem_rest) hb, Nat.add_assoc]

end Cursor

namespace TripleString

section Ends

variable {input : List UInt8} {c : Cursor Text}

/-- A line with closing quotes is the last one of the contents. -/
theorem ends_of_closed (h : c.Within input) (hclosed : (TripleLine.scan c.rest).closed = true) :
    Text.TripleEnds input c.offset (TripleLine.scan c.rest).text true
      (c.offset + (TripleLine.scan c.rest).length) := by
  rcases TripleLine.scan_cases c.rest with ⟨n, hcloses, hfirst, hscan⟩ | ⟨-, hscan⟩
  · obtain ⟨more, hmore, -⟩ := TripleLine.closes_iff.1 hcloses
    have hlen := congrArg List.length hmore
    rw [List.length_drop, List.length_cons] at hlen
    have htake : (input.drop c.offset).take n = c.rest.take n := by
      rw [h.drop_offset, List.take_append_of_le_length (by omega)]
    have htext : Text.unify (c.rest.take n) = c.rest.take n :=
      Text.unify_of_isText fun b hb => h.isText_of_mem_rest (List.mem_of_mem_take hb)
    have hnone : ∀ i < n, ¬Text.ClosesAt input (c.offset + i) := by
      intro i hi
      rw [h.closesAt_iff (by omega), hfirst i hi]
      exact Bool.false_ne_true
    have hends := Text.TripleEnds.closed ((h.closesAt_iff (by omega)).2 hcloses) hnone
    rw [htake, htext, Nat.add_assoc] at hends
    rw [hscan]
    exact hends
  · rw [hscan] at hclosed
    cases hclosed

/-- No closing quotes start in a terminator. -/
theorem not_closesAt_terminator (h : c.Within input) (hlast : c.isLast = false) {i : Nat}
    (hlo : c.offset + c.rest.length ≤ i) (hhi : i < c.nextLine.offset) :
    ¬Text.ClosesAt input i := by
  have hrest : ∀ b ∈ (c.advance c.rest.length).rest, Byte.isBreak b = true := by
    rw [Cursor.rest_advance, List.drop_length]
    exact fun b hb => absurd hb List.not_mem_nil
  have hpasses := Cursor.passes_nextLine (h.advance (Nat.le_refl _)) hrest fun _ hb => hb
  rw [Cursor.nextLine_advance hlast] at hpasses
  rw [← Cursor.offset_advance] at hlo
  intro hcloses
  have hbreak := hpasses.between i _ hlo hhi hcloses.getElem?
  cases hbreak

/-- The contents end as the bytes tell. -/
theorem ends_contents (limit : Nat) (h : c.Within input) :
    Text.TripleEnds input c.offset (contents limit c).text (contents limit c).closed
      (contents limit c).cursor.offset := by
  fun_induction contents limit c with
  | case1 c l hclosed =>
    rw [Cursor.offset_advance]
    exact ends_of_closed h hclosed
  | case2 c l hopen hlast =>
    obtain ⟨htext, hnone⟩ := TripleLine.not_closes_of_open hopen
    have hdrop := h.drop_offset_of_isLast hlast
    have hinput : ∀ i, ¬Text.ClosesAt input (c.offset + i) := by
      intro i
      rw [Text.closesAt_iff, ← List.drop_drop, hdrop]
      exact hnone i
    have hends := Text.TripleEnds.unterminated hinput
    have hoffset : c.lineEnd.offset = input.length :=
      (h.advance (Nat.le_refl _)).offset_eq hlast (Cursor.rest_lineEnd c)
    rw [hdrop, Text.unify_of_isText fun _ => h.isText_of_mem_rest] at hends
    rw [htext, hoffset]
    exact hends
  | case3 c l hopen hlast more ih =>
    obtain ⟨htext, hnone⟩ := TripleLine.not_closes_of_open hopen
    have hlast := Bool.eq_false_iff.2 hlast
    obtain ⟨b, rest, hdrop, hb, hoffset⟩ := h.exists_terminator hlast
    have hends := ih (Cursor.within_nextLine h hlast).1
    rw [hoffset, Nat.add_assoc] at hends
    have hsplit : input.drop c.offset = c.rest ++ b :: rest := by rw [← h.rest_append, hdrop]
    refine htext ▸ hends.of_line hsplit (fun _ => h.isText_of_mem_rest) hb fun i hi => ?_
    by_cases hline : i ≤ c.rest.length
    · rw [h.closesAt_iff hline]
      exact hnone i
    · exact not_closesAt_terminator h hlast (by omega) (by omega)

theorem contentsStart_eq (h : c.Within input) :
    Text.contentsStart input c.offset =
      if c.rest.all isBlank ∧ !c.isLast then c.nextLine.offset else c.offset := by
  have hlast : (!c.isLast) = true ↔ c.ending ≠ .eof := by simp [Cursor.isLast]
  rw [Text.contentsStart, h.first_eq]
  dsimp only
  split
  · rename_i hblank
    rw [if_pos ⟨hblank.1, hlast.2 hblank.2⟩, h.offset_nextLine (by simpa using hlast.2 hblank.2)]
  · rename_i hblank
    rw [if_neg fun hskip => hblank ⟨hskip.1, hlast.1 hskip.2⟩]

/-- No closing quotes start in front of the contents. -/
theorem contentsStart_le (h : c.Within input) {i : Nat} (hi : c.offset ≤ i)
    (hcloses : Text.ClosesAt input i) : Text.contentsStart input c.offset ≤ i := by
  rw [contentsStart_eq h]
  split
  · rename_i hblank
    have hpasses : Cursor.Passes input (· ≠ Byte.quote) c c.nextLine := by
      refine Cursor.passes_nextLine h ?_ ?_
      · rintro b hb rfl
        cases List.all_eq_true.1 hblank.1 _ hb
      · rintro b hb rfl
        cases hb
    by_contra hlt
    exact hpasses.between i _ hi (Nat.not_le.1 hlt) hcloses.getElem? rfl
  · exact hi

theorem ends_scan (limit : Nat) (h : c.Within input) :
    Text.TripleEnds input (Text.contentsStart input c.offset) (scan limit c).text
      (scan limit c).closed (scan limit c).cursor.offset := by
  rw [contentsStart_eq h, scan]
  split
  · rename_i hblank
    exact ends_contents limit (Cursor.within_nextLine h (by simpa using hblank.2)).1
  · exact ends_contents limit h

/-- A string is closed if closing quotes stand anywhere behind its opening. -/
theorem closed_scan_iff (limit : Nat) (h : c.Within input) :
    (scan limit c).closed = true ↔ ∃ i, c.offset ≤ i ∧ Text.ClosesAt input i := by
  have hle : c.offset ≤ Text.contentsStart input c.offset := by
    rw [contentsStart_eq h]
    split
    · exact (Cursor.reaches_nextLine h).le
    · exact Nat.le_refl _
  rw [(ends_scan limit h).closed_iff]
  constructor
  · rintro ⟨i, hi, hcloses⟩
    exact ⟨i, Nat.le_trans hle hi, hcloses⟩
  · rintro ⟨i, hi, hcloses⟩
    exact ⟨i, contentsStart_le h hi hcloses, hcloses⟩

end Ends

section Messages

variable {σ : Type} [LineSource σ]

theorem message_contents (limit : Nat) (c : Cursor σ) :
    ∀ d ∈ (contents limit c).diagnostics, d.message = .lineTooLong := by
  fun_induction contents limit c with
  | case1 c l hclosed => exact List.forall_mem_nil _
  | case2 c l hopen hlast => exact List.forall_mem_nil _
  | case3 c l hopen hlast more ih =>
    exact List.forall_mem_append.2 ⟨c.message_lengthHint limit, ih⟩

/-- Long lines are all that a scan complains about. -/
theorem message_scan (limit : Nat) (c : Cursor σ) :
    ∀ d ∈ (scan limit c).diagnostics, d.message = .lineTooLong := by
  unfold scan
  split
  · exact List.forall_mem_append.2 ⟨c.message_lengthHint limit, message_contents limit _⟩
  · exact message_contents limit c

end Messages
end TripleString

/-! ## Written strings -/

/-- Where three quotes in a row are followed by quotes only, nothing in front of the closing quotes
closes. -/
theorem TripleLine.closes_append_quotes {bytes : List UInt8} {i : Nat} (hi : i < bytes.length)
    (h : [Byte.quote, Byte.quote, Byte.quote] <+: bytes.drop i → ∀ b ∈ bytes.drop i, b = Byte.quote)
    (more : List UInt8) :
    closes (bytes.drop i ++ Byte.quote :: Byte.quote :: Byte.quote :: more) = false := by
  have hlen := List.length_drop (i := i) (l := bytes)
  rw [Bool.eq_false_iff, ne_eq, closes_iff]
  rintro ⟨behind, heq, hbehind⟩
  refine hbehind ?_
  generalize bytes.drop i = tail at h hlen heq
  rcases tail with _ | ⟨a, _ | ⟨b, _ | ⟨c, _ | ⟨d, back⟩⟩⟩⟩
  · rw [List.length_nil] at hlen
    omega
  all_goals
    simp only [List.cons_append, List.nil_append, List.cons.injEq] at heq
  · rw [← heq.2.2.2]
    rfl
  · rw [← heq.2.2.2]
    rfl
  · rw [← heq.2.2.2]
    rfl
  · obtain ⟨rfl, rfl, rfl, rfl⟩ := heq
    have hall := h ⟨d :: back, rfl⟩
    exact congrArg some (hall d (by simp))

end Lexeme
