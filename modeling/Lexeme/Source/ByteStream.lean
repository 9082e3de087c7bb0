/-!
# Byte streams

A source arrives as a stream: each read delivers at least one byte, is interrupted and may be
repeated, or meets the end. A stream ends when it is closed or when it fails; behind a
failure bytes may be withheld for good. How a stream is cut into deliveries is its own
affair: `ByteStream.read` gathers as many bytes as are asked for, passing over interruptions.
-/

set_option autoImplicit false

namespace Lexeme

/-- What one read of a stream that has not ended comes to. -/
inductive Delivery where
  | chunk (first : UInt8) (more : List UInt8)
  | interruption
deriving DecidableEq, Repr

def Delivery.bytes : Delivery → List UInt8
  | chunk first more => first :: more
  | interruption => []

inductive StreamEnd where
  | closed
  | failed (withheld : List UInt8)
deriving DecidableEq, Repr

structure ByteStream where
  deliveries : List Delivery
  ending : StreamEnd := .closed
deriving DecidableEq, Repr

namespace ByteStream

/-- The bytes the stream is still going to deliver. -/
def bytes (s : ByteStream) : List UInt8 := s.deliveries.flatMap Delivery.bytes

/-- How many bytes the stream is still going to deliver. -/
def pending (s : ByteStream) : Nat := s.bytes.length

/-- How many bytes have not been delivered, those that never will be included. -/
def left (s : ByteStream) : Nat :=
  s.pending + match s.ending with
    | .closed => 0
    | .failed withheld => withheld.length

/-- The first `n` bytes of a list of deliveries, or all where there are fewer, and what is
left. A chunk that is too large is split; nothing is read once `n` bytes are there. -/
def gather : Nat → List Delivery → List UInt8 × List Delivery
  | 0, ds => ([], ds)
  | _, [] => ([], [])
  | n, .interruption :: ds => gather n ds
  | n + 1, .chunk first more :: ds =>
    if more.length ≤ n then
      let (bytes, rest) := gather (n - more.length) ds
      (first :: more ++ bytes, rest)
    else
      match more.drop n with
      | [] => (first :: more.take n, ds)
      | b :: bs => (first :: more.take n, .chunk b bs :: ds)

/-- Read until `n` bytes have arrived or the stream ends. -/
def read (s : ByteStream) (n : Nat) : List UInt8 × ByteStream :=
  let (bytes, rest) := gather n s.deliveries
  (bytes, { s with deliveries := rest })

theorem gather_append (n : Nat) (ds : List Delivery) :
    (gather n ds).1 ++ (gather n ds).2.flatMap Delivery.bytes = ds.flatMap Delivery.bytes := by
  fun_induction gather n ds with
  | case1 ds => rfl
  | case2 => rfl
  | case3 n ds _ ih => simpa [Delivery.bytes] using ih
  | case4 n first more ds h bytes rest hg ih =>
    simp only [hg] at ih
    simp [Delivery.bytes, ih]
  | case5 n first more ds h hd =>
    have : more.length ≤ n := by simpa using List.drop_eq_nil_iff.1 hd
    omega
  | case6 n first more ds h b bs hd =>
    have hm : more.take n ++ b :: bs = more := by rw [← hd, List.take_append_drop]
    simp only [Delivery.bytes, List.flatMap_cons, List.cons_append, List.cons.injEq, true_and]
    rw [← List.cons_append, ← List.append_assoc, hm]

/-- Reading takes bytes from the front of the stream and loses none. -/
theorem read_append (s : ByteStream) (n : Nat) : (s.read n).1 ++ (s.read n).2.bytes = s.bytes :=
  gather_append n s.deliveries

theorem length_read_add_pending (s : ByteStream) (n : Nat) :
    (s.read n).1.length + (s.read n).2.pending = s.pending := by
  rw [pending, pending, ← s.read_append n, List.length_append]

/-- The stream that delivers all its bytes at once. -/
def ofBytes : List UInt8 → ByteStream
  | [] => ⟨[], .closed⟩
  | b :: bs => ⟨[.chunk b bs], .closed⟩

theorem bytes_ofBytes (bytes : List UInt8) : (ofBytes bytes).bytes = bytes := by
  cases bytes with
  | nil => rfl
  | cons b bytes => exact List.append_nil _

/-- How a stream delivers given bytes. -/
structure Manner where
  /-- The most bytes one read delivers; without a limit all come at once. -/
  chunk : Option Nat := none
  /-- The stream fails after that many bytes, if it has as many. -/
  failAfter : Option Nat := none
  /-- After every so many deliveries comes an interruption; 0 means never. -/
  interruptEvery : Nat := 0
deriving DecidableEq, Repr

/-- The bytes in chunks of `size`, or of 1 if that is 0. -/
def chunks (size : Nat) : List UInt8 → List Delivery
  | [] => []
  | b :: bs => .chunk b (bs.take (size - 1)) :: chunks size (bs.drop (size - 1))
termination_by bytes => bytes.length
decreasing_by simp only [List.length_cons, List.length_drop]; omega

/-- An interruption in front of the delivery after the next `countdown`, and then after every
`every` deliveries. -/
def interrupt (every : Nat) : Nat → List Delivery → List Delivery
  | _, [] => []
  | 0, d :: ds => .interruption :: d :: interrupt every (every - 1) ds
  | countdown + 1, d :: ds => d :: interrupt every countdown ds

/-- The stream that delivers bytes in the given manner. -/
def deliver (manner : Manner) (bytes : List UInt8) : ByteStream :=
  let (sent, ending) := match manner.failAfter with
    | none => (bytes, StreamEnd.closed)
    | some n =>
      if n ≤ bytes.length then (bytes.take n, .failed (bytes.drop n)) else (bytes, .closed)
  let ds := chunks (manner.chunk.getD sent.length) sent
  let ds := if manner.interruptEvery = 0 then ds
    else interrupt manner.interruptEvery manner.interruptEvery ds
  ⟨ds, ending⟩

end ByteStream
end Lexeme
