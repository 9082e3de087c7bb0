import Lexeme.Proofs.Source.Window

/-!
# A reader stands in its input

A reader that is opened on a stream and then only steps over terminators represents the bytes
the stream delivers: some have left the window at its front, the window holds the next ones,
and the stream has the others. `Represents` carries this through a step over a terminator,
whether the window moves on or not. `Consistent` says what follows for someone who looks at
places of the window.
-/

set_option autoImplicit false

namespace Lexeme

namespace Reader

/-- The reader holds a run of the input, and a line that is not cut. -/
structure Represents (r : Reader) (input : List UInt8) : Prop where
  filled : r.window.Filled r.stream.bytes
  base_le : r.base ≤ input.length
  contents : r.window.bytes ++ r.stream.bytes = input.drop r.base
  lineStart_le : r.lineStart ≤ r.window.sentinel

section Places

variable {r : Reader} {input : List UInt8}

theorem getElem?_of_byteAt {pos : Nat} {b : UInt8} (h : r.byteAt pos = b) (hb : b ≠ Byte.nul) :
    r.window.bytes[pos]? = some b := by
  unfold byteAt at h
  cases hg : r.window.bytes[pos]? with
  | none =>
    rw [hg, Option.getD_none] at h
    exact absurd h.symm hb
  | some c => rw [← h, hg, Option.getD_some]

theorem getElem?_of_isBreak {pos : Nat} (h : Byte.isBreak (r.byteAt pos) = true) :
    r.window.bytes[pos]? = some (r.byteAt pos) := by
  apply getElem?_of_byteAt rfl
  intro hn
  rw [hn] at h
  exact absurd h (by decide)

/-- A place of the window shows the byte of the input at its offset. -/
theorem Represents.getElem?_offsetAt (hr : r.Represents input) {pos : Nat}
    (h : pos < r.window.bytes.length) : input[r.offsetAt pos]? = some (r.byteAt pos) := by
  have hc : (input.drop r.base)[pos]? = r.window.bytes[pos]? := by
    rw [← hr.contents, List.getElem?_append_left h]
  rw [List.getElem?_drop] at hc
  rw [offsetAt, hc, byteAt, List.getElem?_eq_getElem h, Option.getD_some]

/-- Once the stream has ended the window shows all that is left. -/
theorem Represents.getElem?_of_exhausted (hr : r.Represents input)
    (he : r.window.exhausted = true) (pos : Nat) :
    input[r.offsetAt pos]? = r.window.bytes[pos]? := by
  have hc := hr.contents
  rw [hr.filled.drained he, List.append_nil] at hc
  rw [hc, List.getElem?_drop, offsetAt]

theorem Represents.length_eq (hr : r.Represents input) :
    r.offsetAt r.window.bytes.length + r.stream.pending = input.length := by
  have hl := congrArg List.length hr.contents
  have hb := hr.base_le
  rw [List.length_append, List.length_drop] at hl
  rw [offsetAt, ByteStream.pending]
  omega

end Places

/-! ## Stepping over a terminator -/

/-- A step has led to the line that starts at an offset of the input. -/
structure LandsAt (p : Nat × Reader) (input : List UInt8) (offset : Nat) : Prop where
  represents : p.2.Represents input
  fst_eq : p.1 = p.2.lineStart
  offset_eq : p.2.offsetAt p.2.lineStart = offset

section Steps

variable {r : Reader} {input : List UInt8} {pos : Nat}

/-- In the window or at its sentinel, a step lands one byte behind its place. -/
theorem landsAt_stepOver (hr : r.Represents input) (hpos : pos ≤ r.window.sentinel)
    (hb : Byte.isBreak (r.byteAt pos) = true) :
    LandsAt (r.stepOver pos) input (r.offsetAt pos + 1) := by
  have hlt : pos < r.window.bytes.length :=
    (List.getElem?_eq_some_iff.1 (getElem?_of_isBreak hb)).1
  have hend := hr.filled.ended
  unfold stepOver
  split
  · rename_i hin
    refine ⟨⟨hr.filled, hr.base_le, hr.contents, ?_⟩, rfl, rfl⟩
    rcases hin with hin | hin
    · exact hin
    · exact Nat.lt_of_lt_of_eq hlt (hend hin)
  · refine ⟨⟨?_, ?_, ?_, Nat.zero_le _⟩, rfl, ?_⟩
    · apply Window.filled_fill
      have hfull := hr.filled.full (by simp_all)
      rw [List.length_drop]
      omega
    · have hl := hr.length_eq
      rw [offsetAt] at hl
      dsimp only
      omega
    · rw [Window.fill_append, ← List.drop_append_of_le_length hlt, hr.contents, List.drop_drop]
    · exact (Nat.add_assoc _ _ _).symm

theorem lineNumber_stepOver (r : Reader) (pos : Nat) :
    (r.stepOver pos).2.lineNumber = r.lineNumber := by
  unfold stepOver
  split <;> rfl

theorem Represents.withLineNumber (hr : r.Represents input) (n : Nat) :
    { r with lineNumber := n }.Represents input :=
  ⟨hr.filled, hr.base_le, hr.contents, hr.lineStart_le⟩

theorem Represents.withCursor (hr : r.Represents input) (n : Nat) :
    { r with cursor := n }.Represents input :=
  ⟨hr.filled, hr.base_le, hr.contents, hr.lineStart_le⟩

theorem landsAt_passFeed (hr : r.Represents input) (hpos : pos ≤ r.window.sentinel)
    (hb : Byte.isBreak (r.byteAt pos) = true) :
    LandsAt (r.passFeed pos) input (r.offsetAt pos + 1) :=
  landsAt_stepOver (hr.withLineNumber _) hpos hb

theorem lineNumber_passFeed (r : Reader) (pos : Nat) :
    (r.passFeed pos).2.lineNumber = wrap32 (r.lineNumber + 1) :=
  lineNumber_stepOver _ pos

/-- A line feed stands at a line's start exactly if the input has one there. -/
theorem LandsAt.byteAt_eq_lf_iff {p : Nat × Reader} {offset : Nat} (h : LandsAt p input offset) :
    p.2.byteAt p.1 = Byte.lf ↔ input[offset]? = some Byte.lf := by
  rw [h.fst_eq, ← h.offset_eq]
  have hr := h.represents
  by_cases he : p.2.window.exhausted = true
  · rw [hr.getElem?_of_exhausted he]
    constructor
    · intro hb
      exact getElem?_of_byteAt hb (by decide)
    · intro hg
      rw [byteAt, hg, Option.getD_some]
  · have hlt : p.2.lineStart < p.2.window.bytes.length := by
      have h1 := hr.lineStart_le
      have h2 := hr.filled.sentinel_lt
      rw [hr.filled.full (by simpa using he)]
      omega
    rw [hr.getElem?_offsetAt hlt, Option.some.injEq]

/-- A carriage return and a line feed behind it are one terminator, in one window or in two. -/
theorem landsAt_passReturn (hr : r.Represents input) (hpos : pos ≤ r.window.sentinel)
    (hb : Byte.isBreak (r.byteAt pos) = true) :
    LandsAt (r.passReturn pos) input
      (r.offsetAt pos + if input[r.offsetAt pos + 1]? = some Byte.lf then 2 else 1) := by
  have h := landsAt_passFeed hr hpos hb
  have hiff := h.byteAt_eq_lf_iff
  unfold passReturn
  generalize r.passFeed pos = passed at h hiff ⊢
  obtain ⟨next, r'⟩ := passed
  dsimp only at hiff ⊢
  by_cases hlf : r'.byteAt next = Byte.lf
  · have hnext : next = r'.lineStart := h.fst_eq
    have hstep : LandsAt (r'.stepOver next) input (r'.offsetAt next + 1) :=
      landsAt_stepOver h.represents (hnext ▸ h.represents.lineStart_le) (by rw [hlf]; decide)
    rw [if_pos (hiff.1 hlf), if_pos (beq_iff_eq.2 hlf)]
    have hoff := h.offset_eq
    rw [← hnext] at hoff
    rwa [hoff, Nat.add_assoc] at hstep
  · rw [if_neg (fun hc => hlf (hiff.2 hc)), if_neg (by simpa using hlf)]
    exact h

theorem lineNumber_passReturn (r : Reader) (pos : Nat) :
    (r.passReturn pos).2.lineNumber = wrap32 (r.lineNumber + 1) := by
  have h := r.lineNumber_passFeed pos
  unfold passReturn
  generalize r.passFeed pos = passed at h ⊢
  obtain ⟨next, r'⟩ := passed
  dsimp only at h ⊢
  split
  · rw [lineNumber_stepOver, h]
  · exact h

end Steps

/-! ## Reachable readers -/

theorem represents_ofStream (stream : ByteStream) (size : Nat) (h : 0 < size) :
    (ofStream stream size h).Represents stream.bytes := by
  have hf := Window.filled_fill [] size h stream (Nat.zero_le _)
  have hc := Window.fill_append [] size h stream
  unfold ofStream
  generalize Window.fill [] size h stream = filled at hf hc ⊢
  obtain ⟨window, rest⟩ := filled
  refine ⟨hf, Nat.zero_le _, hc, ?_⟩
  dsimp only
  split
  · rename_i hbom
    exact hbom.1
  · exact Nat.zero_le _

/-- One call on a reader by someone who keeps to its rules: the cursor may be set anywhere,
and a step starts from a place up to the sentinel that holds the terminator in question. -/
inductive Call : Reader → Reader → Prop
  | setCursor (r : Reader) (pos : Nat) : Call r { r with cursor := pos }
  | passFeed (r : Reader) (pos : Nat) :
      pos ≤ r.window.sentinel → r.byteAt pos = Byte.lf → Call r (r.passFeed pos).2
  | passReturn (r : Reader) (pos : Nat) :
      pos ≤ r.window.sentinel → r.byteAt pos = Byte.cr → Call r (r.passReturn pos).2

/-- The readers that calls lead to. -/
inductive Reachable (start : Reader) : Reader → Prop
  | start : Reachable start start
  | call {r r' : Reader} : Reachable start r → Call r r' → Reachable start r'

theorem represents_call {r r' : Reader} {input : List UInt8} (hr : r.Represents input)
    (h : Call r r') : r'.Represents input := by
  cases h with
  | setCursor pos => exact hr.withCursor pos
  | passFeed pos hpos hb => exact (landsAt_passFeed hr hpos (by rw [hb]; decide)).represents
  | passReturn pos hpos hb => exact (landsAt_passReturn hr hpos (by rw [hb]; decide)).represents

theorem represents_reachable {start r : Reader} {input : List UInt8}
    (hs : start.Represents input) (h : Reachable start r) : r.Represents input := by
  induction h with
  | start => exact hs
  | call _ hcall ih => exact represents_call ih hcall

/-- How far the window shows the input. -/
def loaded (r : Reader) : Nat := if r.window.exhausted then r.window.sentinel else r.window.capacity

/-- What a window tells about the input, place by place. -/
structure Consistent (r : Reader) (input : List UInt8) : Prop where
  /-- So the number of bytes behind the sentinel is never negative. -/
  sentinel_lt : r.window.sentinel < r.window.capacity
  sentinel_isBreak : r.window.exhausted = false →
    Byte.isBreak (r.byteAt r.window.sentinel) = true
  not_isBreak : r.window.exhausted = false →
    ∀ i, r.window.sentinel < i → i < r.window.capacity → Byte.isBreak (r.byteAt i) = false
  nul : r.window.exhausted = true → ∀ i, r.window.sentinel ≤ i → r.byteAt i = Byte.nul
  lineStart_le : r.lineStart ≤ r.window.sentinel
  byte_eq : ∀ i, i < r.loaded → input[r.offsetAt i]? = some (r.byteAt i)
  /-- The stream has delivered the bytes in front of that offset, and no others. -/
  taken : r.offsetAt r.loaded + r.stream.pending = input.length
  left : r.stream.bytes = input.drop (r.offsetAt r.loaded)
  isEnd_iff : ∀ pos, pos ≤ r.window.sentinel →
    (r.isEnd pos = true ↔ r.offsetAt pos = input.length)

section Consistency

variable {r : Reader} {input : List UInt8}

theorem Represents.length_bytes (hr : r.Represents input) : r.window.bytes.length = r.loaded := by
  unfold loaded
  split
  · rename_i he
    exact hr.filled.ended he
  · rename_i he
    exact hr.filled.full (by simpa using he)

theorem Represents.byteAt_eq_nul (hr : r.Represents input) (he : r.window.exhausted = true)
    {i : Nat} (hi : r.window.sentinel ≤ i) : r.byteAt i = Byte.nul := by
  have hl := hr.filled.ended he
  rw [byteAt, List.getElem?_eq_none (by omega), Option.getD_none]

theorem Represents.byteAt_sentinel (hr : r.Represents input) (he : r.window.exhausted = false) :
    Byte.isBreak (r.byteAt r.window.sentinel) = true := by
  obtain ⟨b, hb, hbreak⟩ := (hr.filled.lastBreak he).here
  rw [byteAt, hb, Option.getD_some]
  exact hbreak

theorem Represents.byteAt_behind (hr : r.Represents input) (he : r.window.exhausted = false)
    {i : Nat} (hi : r.window.sentinel < i) (hcap : i < r.window.capacity) :
    Byte.isBreak (r.byteAt i) = false := by
  have hlt : i < r.window.bytes.length := by rw [hr.filled.full he]; exact hcap
  apply (hr.filled.lastBreak he).behind
  rw [byteAt, List.getElem?_eq_getElem hlt, Option.getD_some]
  have hdrop : (r.window.bytes.drop (r.window.sentinel + 1))[i - (r.window.sentinel + 1)]? =
      some r.window.bytes[i] := by
    rw [List.getElem?_drop, Nat.add_sub_cancel' hi, List.getElem?_eq_getElem hlt]
  exact List.mem_of_getElem? hdrop

/-- Up to the sentinel, only the end of the input reads as the end. -/
theorem Represents.isEnd_iff (hr : r.Represents input) {pos : Nat}
    (hpos : pos ≤ r.window.sentinel) :
    r.isEnd pos = true ↔ r.offsetAt pos = input.length := by
  have hlen := hr.length_eq
  rw [hr.length_bytes] at hlen
  by_cases he : r.window.exhausted = true
  · have hp : r.stream.pending = 0 := by
      rw [ByteStream.pending, hr.filled.drained he, List.length_nil]
    have hld : r.loaded = r.window.sentinel := by rw [loaded, if_pos he]
    simp only [isEnd, he, Bool.true_and, Bool.and_eq_true, decide_eq_true_eq, beq_iff_eq]
    simp only [offsetAt, hld, hp] at hlen ⊢
    constructor
    · rintro ⟨hle, _⟩
      omega
    · intro ho
      exact ⟨by omega, hr.byteAt_eq_nul he (by omega)⟩
  · have hld : r.loaded = r.window.capacity := by rw [loaded, if_neg he]
    have hs := hr.filled.sentinel_lt
    simp only [isEnd, he, Bool.false_and, Bool.false_eq_true, false_iff]
    simp only [offsetAt, hld] at hlen ⊢
    omega

theorem Represents.consistent (hr : r.Represents input) : r.Consistent input := by
  have hlen := hr.length_bytes
  refine ⟨hr.filled.sentinel_lt, hr.byteAt_sentinel, ?_, ?_, hr.lineStart_le, ?_, ?_, ?_, ?_⟩
  · intro he i hi hcap
    exact hr.byteAt_behind he hi hcap
  · intro he i hi
    exact hr.byteAt_eq_nul he hi
  · intro i hi
    exact hr.getElem?_offsetAt (hlen ▸ hi)
  · exact hlen ▸ hr.length_eq
  · rw [offsetAt, ← List.drop_drop, ← hr.contents, ← hlen, List.drop_left]
  · intro pos hpos
    exact hr.isEnd_iff hpos

end Consistency

/-- Opening a stream with any window succeeds, and every reader that calls lead to from there
is consistent with what the stream delivers. -/
theorem open?_consistent (stream : ByteStream) (size : Nat) (h : 0 < size) :
    ∃ start, open? stream size = .ok start ∧
      ∀ r, Reachable start r → r.Consistent stream.bytes := by
  refine ⟨ofStream stream size h, dif_pos h, ?_⟩
  intro r hr
  exact (represents_reachable (represents_ofStream stream size h) hr).consistent

/-- A stream on which a window of two bytes ends between a carriage return and its line feed. -/
def splitPair : ByteStream := ⟨[.chunk 97 [13], .interruption, .chunk 10 [98]], .failed [99]⟩

theorem open?_consistent_splitPair :
    0 < 2 ∧ ∃ start, open? splitPair 2 = .ok start ∧ start.window.sentinel = 1 ∧
      (start.passReturn 1).2.Consistent [97, 13, 10, 98] := by
  obtain ⟨start, ho, hc⟩ := open?_consistent splitPair 2 (by decide)
  obtain rfl : ofStream splitPair 2 (by decide) = start := by
    rw [open?, dif_pos (by decide)] at ho
    exact Except.ok.inj ho
  refine ⟨by decide, _, ho, by decide, hc _ ?_⟩
  exact .call .start (.passReturn _ 1 (by decide) (by decide))

end Reader
end Lexeme
