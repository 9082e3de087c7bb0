/-!
# Reading bytes as text

Bytes that are no well-formed UTF-8 still have to be shown and named. `Utf8.decode` cuts a
byte string into characters and maximal ill-formed parts: a part is the longest beginning of
a well-formed sequence that the next byte fails to continue, or a single byte that begins
none. `Utf8.lossy` shows each such part as one U+FFFD.
-/

set_option autoImplicit false

namespace Lexeme.Utf8

/-- A sequence that has begun: its code point so far, how many bytes are missing, and the
range the next byte must lie in. The range excludes overlong forms, surrogates and values
above U+10FFFF as soon as they can be told. -/
structure Pending where
  value : Nat
  missing : Nat
  low : UInt8
  high : UInt8
deriving DecidableEq, Repr

/-- The sequence a lead byte begins. -/
def Pending.ofLead? (b : UInt8) : Option Pending :=
  if 0xC2 ≤ b && b ≤ 0xDF then some ⟨b.toNat - 0xC0, 1, 0x80, 0xBF⟩
  else if b == 0xE0 then some ⟨0, 2, 0xA0, 0xBF⟩
  else if b == 0xED then some ⟨13, 2, 0x80, 0x9F⟩
  else if 0xE1 ≤ b && b ≤ 0xEF then some ⟨b.toNat - 0xE0, 2, 0x80, 0xBF⟩
  else if b == 0xF0 then some ⟨0, 3, 0x90, 0xBF⟩
  else if b == 0xF4 then some ⟨4, 3, 0x80, 0x8F⟩
  else if 0xF1 ≤ b && b ≤ 0xF3 then some ⟨b.toNat - 0xF0, 3, 0x80, 0xBF⟩
  else none

/-- What one byte settles: the parts it completes, and the sequence left open behind it. -/
structure Step where
  parts : List (Option Char)
  pending : Option Pending

/-- A byte where no sequence is open. -/
def start (b : UInt8) : Step :=
  if b < 0x80 then ⟨[some (Char.ofNat b.toNat)], none⟩
  else match Pending.ofLead? b with
    | some p => ⟨[], some p⟩
    | none => ⟨[none], none⟩

/-- A byte behind an open sequence either continues it or starts afresh. -/
def Pending.step (p : Pending) (b : UInt8) : Step :=
  if p.low ≤ b && b ≤ p.high then
    let value := p.value * 64 + (b.toNat - 0x80)
    if p.missing ≤ 1 then ⟨[some (Char.ofNat value)], none⟩
    else ⟨[], some ⟨value, p.missing - 1, 0x80, 0xBF⟩⟩
  else
    let fresh := start b
    ⟨none :: fresh.parts, fresh.pending⟩

def step : Option Pending → UInt8 → Step
  | none, b => start b
  | some p, b => p.step b

def decodeFrom : Option Pending → List UInt8 → List (Option Char)
  | none, [] => []
  | some _, [] => [none]
  | p, b :: bytes =>
    let s := step p b
    s.parts ++ decodeFrom s.pending bytes

/-- The characters of a byte string, `none` standing for each maximal ill-formed part. -/
def decode (bytes : List UInt8) : List (Option Char) := decodeFrom none bytes

/-- Whether the bytes are well-formed UTF-8. -/
def isValid (bytes : List UInt8) : Bool := (decode bytes).all Option.isSome

/-- The replacement character. -/
def replacement : Char := '\uFFFD'

/-- The bytes as text, each ill-formed part shown as U+FFFD. -/
def lossy (bytes : List UInt8) : String :=
  String.ofList ((decode bytes).map (Option.getD · replacement))

/-- The UTF-8 form of a text. -/
def encode (text : String) : List UInt8 := text.toList.flatMap String.utf8EncodeChar

end Lexeme.Utf8
