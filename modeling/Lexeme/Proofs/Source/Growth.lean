import Mathlib.Order.Bounds.Basic
import Lexeme.Power
import Lexeme.Proofs.Source.Line
import Lexeme.Proofs.Source.Represents

/-!
# How far a window grows

A window doubles only when it is full and no terminator is in it. So the terminator that ends the
doubling has to be looked for in the new half alone: going on from such a window is filling one
twice as large. `Window.Fills` counts the doublings, and the window in front of the last of them
shows a run of the input without a terminator that is half as long as the window has become. The
run stays in the input, so however often the window moves on, its capacity does not exceed twice
the longest run.
-/

set_option autoImplicit false

namespace Lexeme

/-! ## Runs without a terminator -/

namespace Text

/-- Bytes that stand somewhere in the input, with no terminator among them. -/
structure IsRun (input run : List UInt8) : Prop where
  isInfix : run <:+: input
  isText : ∀ b ∈ run, Line.isText b = true

/-- The length of the longest run. At each place one starts, up to the end of the line. -/
def longestRun : List UInt8 → Nat
  | [] => 0
  | b :: rest => max (Line.first (b :: rest)).bytes.length (longestRun rest)

theorem length_first_le_longestRun (input : List UInt8) :
    (Line.first input).bytes.length ≤ longestRun input := by
  cases input with
  | nil => exact Nat.le_refl 0
  | cons b rest => exact Nat.le_max_left _ _

theorem IsRun.length_le {input run : List UInt8} (h : IsRun input run) :
    run.length ≤ longestRun input := by
  obtain ⟨⟨front, back, rfl⟩, htext⟩ := h
  induction front with
  | nil =>
    have hfirst : run <+: (Line.first (run ++ back)).bytes := by
      rw [Line.first, List.takeWhile_append_of_pos htext]
      exact List.prefix_append _ _
    rw [List.nil_append]
    exact Nat.le_trans hfirst.length_le (length_first_le_longestRun _)
  | cons b front ih => exact Nat.le_trans ih (Nat.le_max_right _ _)

theorem isGreatest_longestRun (input : List UInt8) :
    IsGreatest {n | ∃ run, IsRun input run ∧ run.length = n} (longestRun input) := by
  constructor
  · induction input with
    | nil => exact ⟨[], ⟨List.infix_rfl, List.forall_mem_nil _⟩, rfl⟩
    | cons b rest ih =>
      rcases Nat.le_total (longestRun rest) (Line.first (b :: rest)).bytes.length with hle | hle
      · refine ⟨(Line.first (b :: rest)).bytes, ⟨?_, ?_⟩, (Nat.max_eq_left hle).symm⟩
        · exact (List.takeWhile_prefix _).isInfix
        · exact fun c hc => Line.isText_of_mem_first hc
      · obtain ⟨run, ⟨hwithin, htext⟩, hlength⟩ := ih
        exact ⟨run, ⟨List.infix_cons hwithin, htext⟩, hlength.trans (Nat.max_eq_right hle).symm⟩
  · rintro n ⟨run, hrun, rfl⟩
    exact hrun.length_le

end Text

/-! ## One fill -/

/-- Behind bytes without a terminator, the last one is that of what follows. -/
theorem lastBreak?_append {front : List UInt8} (h : lastBreak? front = none)
    (bytes : List UInt8) :
    lastBreak? (front ++ bytes) = (lastBreak? bytes).map (front.length + ·) := by
  have hfront := lastBreak?_eq_none h
  clear h
  induction front with
  | nil => simp
  | cons b front ih =>
    obtain ⟨hb, hfront⟩ := List.forall_mem_cons.1 hfront
    rw [List.cons_append, lastBreak?, ih hfront]
    cases lastBreak? bytes with
    | none => simp [hb]
    | some i => simp [Nat.add_right_comm]

namespace Window

/-- Filling a window behind the bytes `keep` comes to a result, the window having been doubled so
many times. -/
inductive Fills : Nat → List UInt8 → Nat → ByteStream → Window × ByteStream → Prop
  /-- The stream ends. -/
  | ended {keep more : List UInt8} {capacity : Nat} {stream rest : ByteStream}
      (hpos : 0 < capacity) (hread : stream.read (capacity - keep.length) = (more, rest))
      (hshort : more.length < capacity - keep.length) :
      Fills 0 keep capacity stream (final (keep ++ more) capacity hpos, rest)
  /-- The window is full, and a terminator is the last one in it. -/
  | found {keep more : List UInt8} {capacity i : Nat} {stream rest : ByteStream}
      (hpos : 0 < capacity) (hread : stream.read (capacity - keep.length) = (more, rest))
      (hfull : more.length = capacity - keep.length) (hlast : lastBreak? (keep ++ more) = some i) :
      Fills 0 keep capacity stream (⟨keep ++ more, capacity, i, false, hpos⟩, rest)
  /-- The window is full without a terminator. -/
  | doubled {n : Nat} {keep more : List UInt8} {capacity : Nat} {stream rest : ByteStream}
      {result : Window × ByteStream} (hread : stream.read (capacity - keep.length) = (more, rest))
      (hfull : more.length = capacity - keep.length) (hnone : lastBreak? (keep ++ more) = none)
      (hrest : Fills n (keep ++ more) (2 * capacity) rest result) :
      Fills (n + 1) keep capacity stream result

/-- Going on from a full window without a terminator is filling one twice as large. -/
theorem fills_grow (bytes : List UInt8) (capacity : Nat) (h : 0 < capacity) (stream : ByteStream)
    (hlen : bytes.length = capacity) (hnone : lastBreak? bytes = none) :
    ∃ n, Fills n bytes (2 * capacity) stream (grow bytes capacity h stream) := by
  fun_induction grow bytes capacity h stream with
  | case1 bytes capacity h stream hshort =>
    have hwanted : 2 * capacity - bytes.length = capacity := by omega
    exact ⟨0, .ended _ (by rw [hwanted]) (by rwa [hwanted])⟩
  | case2 bytes capacity h stream hshort i hi =>
    have hwanted : 2 * capacity - bytes.length = capacity := by omega
    have hfull := ByteStream.length_read_of_not_short hshort
    exact ⟨0, .found _ (by rw [hwanted]) (by rwa [hwanted])
      (by rw [lastBreak?_append hnone, hi, Option.map_some])⟩
  | case3 bytes capacity h stream hshort hi ih =>
    have hwanted : 2 * capacity - bytes.length = capacity := by omega
    have hfull := ByteStream.length_read_of_not_short hshort
    have hnone' : lastBreak? (bytes ++ (stream.read capacity).1) = none := by
      rw [lastBreak?_append hnone, hi, Option.map_none]
    obtain ⟨n, hrest⟩ := ih (by rw [List.length_append]; omega) hnone'
    exact ⟨n + 1, .doubled (by rw [hwanted]) (by rwa [hwanted]) hnone' hrest⟩

/-- Every fill comes to an end. -/
theorem fills_fill (keep : List UInt8) (capacity : Nat) (h : 0 < capacity) (stream : ByteStream)
    (hkeep : keep.length ≤ capacity) :
    ∃ n, Fills n keep capacity stream (fill keep capacity h stream) := by
  have hfull := @ByteStream.length_read_of_not_short stream (capacity - keep.length)
  unfold fill
  cases hread : stream.read (capacity - keep.length) with
  | mk more rest =>
    rw [hread] at hfull
    dsimp only at hfull ⊢
    split
    · rename_i hshort
      exact ⟨0, .ended h hread hshort⟩
    · rename_i hshort
      split
      · rename_i i hi
        exact ⟨0, .found h hread (hfull hshort) hi⟩
      · rename_i hnone
        have hlen : (keep ++ more).length = capacity := by
          rw [List.length_append, hfull hshort]
          omega
        obtain ⟨n, hrest⟩ := fills_grow (keep ++ more) capacity h rest hlen hnone
        exact ⟨n + 1, .doubled hread (hfull hshort) hnone hrest⟩

section Fills

variable {n capacity : Nat} {keep : List UInt8} {stream : ByteStream}
  {result : Window × ByteStream}

theorem Fills.capacity_eq (h : Fills n keep capacity stream result) :
    result.1.capacity = capacity * pow2 n := by
  induction h with
  | ended => exact (Nat.mul_one _).symm
  | found => exact (Nat.mul_one _).symm
  | @doubled n keep more capacity stream rest result hread hfull hnone hrest ih =>
    have hpow : pow2 (n + 1) = 2 * pow2 n := Nat.pow_succ'
    rw [ih, hpow, Nat.mul_comm 2 capacity, Nat.mul_assoc]

/-- In front of its last doubling a window is full of bytes without a terminator. -/
theorem Fills.exists_run (h : Fills n keep capacity stream result) (hkeep : keep.length ≤ capacity)
    (hn : 0 < n) :
    ∃ run, run <+: keep ++ stream.bytes ∧ (∀ b ∈ run, Line.isText b = true) ∧
      result.1.capacity = 2 * run.length := by
  induction h with
  | ended => exact absurd hn (Nat.lt_irrefl 0)
  | found => exact absurd hn (Nat.lt_irrefl 0)
  | @doubled n keep more capacity stream rest result hread hfull hnone hrest ih =>
    have hlen : (keep ++ more).length = capacity := by
      rw [List.length_append, hfull, Nat.add_sub_cancel' hkeep]
    have hbytes : keep ++ more ++ rest.bytes = keep ++ stream.bytes := by
      have happend := stream.read_append (capacity - keep.length)
      rw [hread] at happend
      rw [List.append_assoc, happend]
    rcases Nat.eq_zero_or_pos n with rfl | hpos
    · refine ⟨keep ++ more, hbytes ▸ List.prefix_append _ _, ?_, ?_⟩
      · intro b hb
        rw [Line.isText, lastBreak?_eq_none hnone b hb]
        rfl
      · rw [hrest.capacity_eq, hlen]
        exact Nat.mul_one _
    · obtain ⟨run, hfront, htext, hcapacity⟩ := ih (by omega) hpos
      exact ⟨run, hbytes ▸ hfront, htext, hcapacity⟩

/-- A capacity that comes of a first size by so many doublings. If there was one, half of the
capacity is the length of a run of the input. -/
structure Grown (size : Nat) (input : List UInt8) (n capacity : Nat) : Prop where
  capacity_eq : capacity = size * pow2 n
  exists_run : 0 < n → ∃ run, Text.IsRun input run ∧ capacity = 2 * run.length

theorem grown_zero (size : Nat) (input : List UInt8) : Grown size input 0 size :=
  ⟨(Nat.mul_one size).symm, fun h => absurd h (Nat.lt_irrefl 0)⟩

/-- A fill with bytes of the input adds its doublings. -/
theorem Fills.grown {size m offset : Nat} {input : List UInt8}
    (h : Fills n keep capacity stream result) (hkeep : keep.length ≤ capacity)
    (hinput : keep ++ stream.bytes = input.drop offset) (hgrown : Grown size input m capacity) :
    Grown size input (m + n) result.1.capacity := by
  refine ⟨?_, fun hpos => ?_⟩
  · have hpow : pow2 (m + n) = pow2 m * pow2 n := Nat.pow_add 2 m n
    rw [h.capacity_eq, hgrown.capacity_eq, hpow, Nat.mul_assoc]
  · rcases Nat.eq_zero_or_pos n with rfl | hn
    · obtain ⟨run, hrun, hlen⟩ := hgrown.exists_run hpos
      refine ⟨run, hrun, ?_⟩
      rw [h.capacity_eq, ← hlen]
      exact Nat.mul_one _
    · obtain ⟨run, hfront, htext, hlen⟩ := h.exists_run hkeep hn
      rw [hinput] at hfront
      have hwithin := hfront.isInfix.trans (List.drop_suffix offset input).isInfix
      exact ⟨run, ⟨hwithin, htext⟩, hlen⟩

theorem Grown.capacity_le {size : Nat} {input : List UInt8} (h : Grown size input n capacity) :
    capacity ≤ max size (2 * Text.longestRun input) := by
  rcases Nat.eq_zero_or_pos n with rfl | hpos
  · have heq : capacity = size := h.capacity_eq.trans (Nat.mul_one size)
    exact heq ▸ Nat.le_max_left _ _
  · obtain ⟨run, hrun, hcapacity⟩ := h.exists_run hpos
    have hle := (Text.isGreatest_longestRun input).2 ⟨run, hrun, rfl⟩
    rw [hcapacity]
    exact Nat.le_trans (Nat.mul_le_mul_left 2 hle) (Nat.le_max_right _ _)

end Fills
end Window

/-! ## Readers -/

namespace Reader

section Steps

variable {size n pos : Nat} {input : List UInt8} {r : Reader}

theorem Represents.length_drop_le (hr : r.Represents input) (k : Nat) :
    (r.window.bytes.drop k).length ≤ r.window.capacity := by
  have hlt := hr.filled.sentinel_lt
  have hlen := hr.length_bytes
  rw [loaded] at hlen
  rw [List.length_drop]
  split at hlen
  · omega
  · omega

theorem grown_stepOver (hr : r.Represents input) (hb : Byte.isBreak (r.byteAt pos) = true)
    (h : Window.Grown size input n r.window.capacity) :
    ∃ m, Window.Grown size input m (r.stepOver pos).2.window.capacity := by
  have hlt : pos < r.window.bytes.length :=
    (List.getElem?_eq_some_iff.1 (getElem?_of_isBreak hb)).1
  unfold stepOver
  split
  · exact ⟨n, h⟩
  · have hkeep := hr.length_drop_le (pos + 1)
    have hinput : r.window.bytes.drop (pos + 1) ++ r.stream.bytes =
        input.drop (r.base + (pos + 1)) := by
      rw [← List.drop_append_of_le_length hlt, hr.contents, List.drop_drop]
    obtain ⟨m, hfills⟩ := Window.fills_fill _ _ r.window.capacity_pos r.stream hkeep
    exact ⟨n + m, hfills.grown hkeep hinput h⟩

theorem grown_passFeed (hr : r.Represents input) (hb : Byte.isBreak (r.byteAt pos) = true)
    (h : Window.Grown size input n r.window.capacity) :
    ∃ m, Window.Grown size input m (r.passFeed pos).2.window.capacity :=
  grown_stepOver (hr.withLineNumber _) hb h

theorem grown_passReturn (hr : r.Represents input) (hpos : pos ≤ r.window.sentinel)
    (hb : Byte.isBreak (r.byteAt pos) = true)
    (h : Window.Grown size input n r.window.capacity) :
    ∃ m, Window.Grown size input m (r.passReturn pos).2.window.capacity := by
  have hfeed := grown_passFeed hr hb h
  have hr' := (landsAt_passFeed hr hpos hb).represents
  unfold passReturn
  generalize r.passFeed pos = passed at hfeed hr' ⊢
  obtain ⟨next, r'⟩ := passed
  obtain ⟨m, hfeed⟩ := hfeed
  dsimp only at hfeed hr' ⊢
  split
  · rename_i hlf
    exact grown_stepOver hr' (by rw [beq_iff_eq.1 hlf]; decide) hfeed
  · exact ⟨m, hfeed⟩

theorem grown_call {r' : Reader} (hr : r.Represents input)
    (h : Window.Grown size input n r.window.capacity) (hcall : Call r r') :
    ∃ m, Window.Grown size input m r'.window.capacity := by
  cases hcall with
  | setCursor pos => exact ⟨n, h⟩
  | passFeed pos hpos hb => exact grown_passFeed hr (by rw [hb]; decide) h
  | passReturn pos hpos hb => exact grown_passReturn hr hpos (by rw [hb]; decide) h

theorem grown_reachable {start : Reader} (hs : start.Represents input)
    (h : Window.Grown size input n start.window.capacity) (hreach : Reachable start r) :
    ∃ m, Window.Grown size input m r.window.capacity := by
  induction hreach with
  | start => exact ⟨n, h⟩
  | call hreach hcall ih =>
    obtain ⟨m, hm⟩ := ih
    exact grown_call (represents_reachable hs hreach) hm hcall

end Steps

/-- Whatever the stream and the first size of the window, the first fill ends, and so does the next
one of any reader that calls lead to. The window of such a reader has its first size doubled some
number of times, and if that was once at least, half of what it has become is the length of a run
of the input without a terminator. So it is no larger than its first size or twice the longest run,
whichever is more. -/
theorem open?_growth (stream : ByteStream) (size : Nat) (h : 0 < size) :
    ∃ start, open? stream size = .ok start ∧
      (∃ n, Window.Fills n [] size stream (start.window, start.stream)) ∧
      ∀ r, Reachable start r →
        (∃ n, Window.Fills n (r.window.bytes.drop (r.window.sentinel + 1)) r.window.capacity
          r.stream (Window.fill (r.window.bytes.drop (r.window.sentinel + 1)) r.window.capacity
            r.window.capacity_pos r.stream)) ∧
        (∃ n, Window.Grown size stream.bytes n r.window.capacity) ∧
        r.window.capacity ≤ max size (2 * Text.longestRun stream.bytes) := by
  have hs := represents_ofStream stream size h
  obtain ⟨n, hfills⟩ := Window.fills_fill [] size h stream (Nat.zero_le _)
  have hgrown : Window.Grown size stream.bytes (0 + n) (ofStream stream size h).window.capacity :=
    hfills.grown (Nat.zero_le _) List.drop_zero.symm (Window.grown_zero size stream.bytes)
  refine ⟨ofStream stream size h, dif_pos h, ⟨n, hfills⟩, fun r hr => ⟨?_, ?_⟩⟩
  · exact Window.fills_fill _ _ _ _ ((represents_reachable hs hr).length_drop_le _)
  · obtain ⟨m, hm⟩ := grown_reachable hs hgrown hr
    exact ⟨⟨m, hm⟩, hm.capacity_le⟩

/-- A line of seven bytes between short ones, behind which a window of two bytes has grown to
eight. -/
def longLine : ByteStream :=
  ⟨[.chunk 97 [10, 98, 98], .interruption, .chunk 98 [98, 98, 98, 98, 13], .chunk 10 [99, 10]],
    .closed⟩

theorem open?_growth_longLine :
    0 < 2 ∧ ∃ start, open? longLine 2 = .ok start ∧ start.window.capacity = 2 ∧
      (start.passFeed 1).2.window.capacity = 8 ∧
      (∃ n, Window.Grown 2 longLine.bytes n (start.passFeed 1).2.window.capacity) ∧
      (start.passFeed 1).2.window.capacity ≤ max 2 (2 * Text.longestRun longLine.bytes) := by
  obtain ⟨start, ho, -, hgrown⟩ := open?_growth longLine 2 (by decide)
  obtain rfl : ofStream longLine 2 (by decide) = start := by
    rw [open?, dif_pos (by decide)] at ho
    exact Except.ok.inj ho
  obtain ⟨-, hn, hle⟩ := hgrown _ (.call .start (.passFeed _ 1 (by decide) (by decide)))
  refine ⟨by decide, _, ho, by decide, by decide +kernel, hn, hle⟩

end Reader
end Lexeme
