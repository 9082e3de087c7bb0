import Lexeme.Source.Reader

/-!
# What a filled window holds

A read delivers the next bytes of a stream, however the stream is cut into deliveries. So a
window that is filled behind the bytes it keeps holds a run of the input without a gap, and
it ends in one of two ways: with its last terminator as the sentinel while the stream goes on,
or with all that was left once the stream has ended.
-/

set_option autoImplicit false

namespace Lexeme

namespace ByteStream

theorem length_gather (n : Nat) (ds : List Delivery) :
    (gather n ds).1.length = min n (ds.flatMap Delivery.bytes).length := by
  fun_induction gather n ds with
  | case1 ds => simp
  | case2 n hn => simp
  | case3 n ds hn ih => simpa [Delivery.bytes] using ih
  | case4 n first more ds h bytes rest hg ih =>
    simp only [hg] at ih
    simp only [Delivery.bytes, List.flatMap_cons, List.length_append, List.length_cons, ih]
    omega
  | case5 n first more ds h hd =>
    have := List.drop_eq_nil_iff.1 hd
    omega
  | case6 n first more ds h b bs hd =>
    simp only [Delivery.bytes, List.flatMap_cons, List.length_append, List.length_cons,
      List.length_take]
    omega

/-- What a read delivers depends on the bytes alone. -/
theorem read_eq_take (s : ByteStream) (n : Nat) : (s.read n).1 = s.bytes.take n := by
  have hl : (s.read n).1.length = min n s.bytes.length := length_gather n s.deliveries
  rw [← s.read_append n, List.length_append] at hl
  rw [← s.read_append n]
  by_cases hn : (s.read n).1.length = n
  · rw [List.take_left' hn]
  · have hz : (s.read n).2.bytes = [] := List.length_eq_zero_iff.1 (by omega)
    rw [hz, List.append_nil, List.take_of_length_le (by omega)]

theorem bytes_read (s : ByteStream) (n : Nat) : (s.read n).2.bytes = s.bytes.drop n := by
  have h := s.read_append n
  rw [read_eq_take] at h
  exact List.append_cancel_left (h.trans (List.take_append_drop n s.bytes).symm)

/-- A read that comes up short has met the end of the stream. -/
theorem bytes_read_of_short {s : ByteStream} {n : Nat} (h : (s.read n).1.length < n) :
    (s.read n).2.bytes = [] := by
  rw [read_eq_take, List.length_take] at h
  rw [bytes_read]
  exact List.drop_eq_nil_of_le (by omega)

theorem length_read_of_not_short {s : ByteStream} {n : Nat} (h : ¬ (s.read n).1.length < n) :
    (s.read n).1.length = n := by
  rw [read_eq_take, List.length_take] at h ⊢
  omega

end ByteStream

/-- The place `i` holds a terminator byte, and no place behind it does. -/
structure IsLastBreak (bytes : List UInt8) (i : Nat) : Prop where
  here : ∃ b, bytes[i]? = some b ∧ Byte.isBreak b = true
  behind : ∀ b ∈ bytes.drop (i + 1), Byte.isBreak b = false

theorem lastBreak?_eq_none {bytes : List UInt8} (h : lastBreak? bytes = none) :
    ∀ b ∈ bytes, Byte.isBreak b = false := by
  induction bytes with
  | nil => intro b hb; cases hb
  | cons c bytes ih =>
    simp only [lastBreak?] at h
    cases hl : lastBreak? bytes with
    | some i => simp only [hl, reduceCtorEq] at h
    | none =>
      simp only [hl, ite_eq_right_iff, reduceCtorEq, imp_false, Bool.not_eq_true] at h
      intro b hb
      rcases List.mem_cons.1 hb with rfl | hb
      · exact h
      · exact ih hl b hb

theorem isLastBreak_of_lastBreak? {bytes : List UInt8} {i : Nat} (h : lastBreak? bytes = some i) :
    IsLastBreak bytes i := by
  induction bytes generalizing i with
  | nil => simp only [lastBreak?, reduceCtorEq] at h
  | cons c bytes ih =>
    simp only [lastBreak?] at h
    cases hl : lastBreak? bytes with
    | some j =>
      simp only [hl, Option.some.injEq] at h
      subst h
      obtain ⟨hb, hr⟩ := ih hl
      exact ⟨by simpa using hb, by simpa using hr⟩
    | none =>
      simp only [hl, Option.ite_none_right_eq_some, Option.some.injEq] at h
      obtain ⟨hc, rfl⟩ := h
      exact ⟨⟨c, rfl, hc⟩, by simpa using lastBreak?_eq_none hl⟩

theorem IsLastBreak.lt {bytes : List UInt8} {i : Nat} (h : IsLastBreak bytes i) :
    i < bytes.length := by
  obtain ⟨b, hb, _⟩ := h.here
  exact (List.getElem?_eq_some_iff.1 hb).1

/-- Bytes in front do not change which terminator is the last one. -/
theorem IsLastBreak.append {bytes : List UInt8} {i : Nat} (h : IsLastBreak bytes i)
    (front : List UInt8) : IsLastBreak (front ++ bytes) (front.length + i) := by
  refine ⟨?_, ?_⟩
  · rw [List.getElem?_append_right (by omega), Nat.add_sub_cancel_left]
    exact h.here
  · rw [Nat.add_assoc, List.drop_append, List.drop_eq_nil_of_le (by omega), List.nil_append,
      Nat.add_sub_cancel_left]
    exact h.behind

namespace Window

/-- The state in which a fill leaves a window, `rest` being what the stream has left. -/
structure Filled (w : Window) (rest : List UInt8) : Prop where
  sentinel_lt : w.sentinel < w.capacity
  full : w.exhausted = false → w.bytes.length = w.capacity
  lastBreak : w.exhausted = false → IsLastBreak w.bytes w.sentinel
  ended : w.exhausted = true → w.bytes.length = w.sentinel
  drained : w.exhausted = true → rest = []

theorem filled_final {bytes rest : List UInt8} {capacity : Nat} (h : 0 < capacity)
    (hlt : bytes.length < capacity) (hrest : rest = []) :
    Filled (final bytes capacity h) rest := by
  refine ⟨hlt, ?_, ?_, fun _ => rfl, fun _ => hrest⟩
  · intro he; cases he
  · intro he; cases he

theorem filled_of_isLastBreak {bytes rest : List UInt8} {capacity i : Nat} (h : 0 < capacity)
    (hlen : bytes.length = capacity) (hi : IsLastBreak bytes i) :
    Filled ⟨bytes, capacity, i, false, h⟩ rest := by
  refine ⟨?_, fun _ => hlen, fun _ => hi, ?_, ?_⟩
  · have := hi.lt
    simp only
    omega
  · intro he; cases he
  · intro he; cases he

theorem grow_append (bytes : List UInt8) (capacity : Nat) (h : 0 < capacity)
    (stream : ByteStream) :
    (grow bytes capacity h stream).1.bytes ++ (grow bytes capacity h stream).2.bytes =
      bytes ++ stream.bytes := by
  fun_induction grow bytes capacity h stream with
  | case1 bytes capacity h stream hshort =>
    rw [← stream.read_append capacity, ← List.append_assoc]
    rfl
  | case2 bytes capacity h stream hshort i hi =>
    rw [← stream.read_append capacity, ← List.append_assoc]
  | case3 bytes capacity h stream hshort hi ih =>
    rw [ih, List.append_assoc, stream.read_append capacity]

theorem filled_grow (bytes : List UInt8) (capacity : Nat) (h : 0 < capacity)
    (stream : ByteStream) (hlen : bytes.length = capacity) :
    Filled (grow bytes capacity h stream).1 (grow bytes capacity h stream).2.bytes := by
  fun_induction grow bytes capacity h stream with
  | case1 bytes capacity h stream hshort =>
    refine filled_final _ ?_ (ByteStream.bytes_read_of_short hshort)
    rw [List.length_append]
    omega
  | case2 bytes capacity h stream hshort i hi =>
    have hread := ByteStream.length_read_of_not_short hshort
    refine filled_of_isLastBreak _ ?_ ((isLastBreak_of_lastBreak? hi).append bytes)
    rw [List.length_append]
    omega
  | case3 bytes capacity h stream hshort hi ih =>
    have hread := ByteStream.length_read_of_not_short hshort
    refine ih ?_
    rw [List.length_append]
    omega

/-- A fill loses no byte and brings none twice. -/
theorem fill_append (keep : List UInt8) (capacity : Nat) (h : 0 < capacity)
    (stream : ByteStream) :
    (fill keep capacity h stream).1.bytes ++ (fill keep capacity h stream).2.bytes =
      keep ++ stream.bytes := by
  have hr := stream.read_append (capacity - keep.length)
  unfold fill
  generalize stream.read (capacity - keep.length) = got at hr ⊢
  obtain ⟨more, rest⟩ := got
  dsimp only at hr ⊢
  split
  · rw [← hr, ← List.append_assoc]
    rfl
  · split
    · rw [← hr, ← List.append_assoc]
    · rw [grow_append, List.append_assoc, hr]

theorem filled_fill (keep : List UInt8) (capacity : Nat) (h : 0 < capacity)
    (stream : ByteStream) (hkeep : keep.length ≤ capacity) :
    Filled (fill keep capacity h stream).1 (fill keep capacity h stream).2.bytes := by
  have hshort := @ByteStream.bytes_read_of_short stream (capacity - keep.length)
  have hlen := @ByteStream.length_read_of_not_short stream (capacity - keep.length)
  unfold fill
  generalize stream.read (capacity - keep.length) = got at hshort hlen ⊢
  obtain ⟨more, rest⟩ := got
  dsimp only at hshort hlen ⊢
  split
  · rename_i hlt
    refine filled_final h ?_ (hshort hlt)
    rw [List.length_append]
    omega
  · rename_i hlt
    have hfull : (keep ++ more).length = capacity := by
      rw [List.length_append, hlen hlt]
      omega
    split
    · rename_i i hi
      exact filled_of_isLastBreak h hfull (isLastBreak_of_lastBreak? hi)
    · exact filled_grow _ _ h rest hfull

end Window
end Lexeme
