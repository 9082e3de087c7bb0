import Lexeme.Text.Utf8
import Lexeme.Byte

/-!
# Identifier hashes

Identifiers are found by a 32-bit one-at-a-time hash that a scanner can feed byte by byte.
Underscores are left out, so spellings that differ only in underscores share a hash.
-/

set_option autoImplicit false

namespace Lexeme

/-- A hash in the making. -/
structure IdentHash where
  state : UInt32 := 0
deriving DecidableEq, Repr

namespace IdentHash

def empty : IdentHash := {}

/-- Mix in one byte. -/
def push (h : IdentHash) (b : UInt8) : IdentHash :=
  let s := h.state + b.toUInt32
  let s := s + s <<< 10
  ⟨s ^^^ s >>> 6⟩

/-- The hash of the bytes so far. -/
def finish (h : IdentHash) : UInt32 :=
  let s := h.state + h.state <<< 3
  let s := s ^^^ s >>> 11
  s + s <<< 15

def pushAll (h : IdentHash) (bytes : List UInt8) : IdentHash := bytes.foldl push h

/-- The hash of a spelling: of its bytes without the underscores. -/
def ofBytes (bytes : List UInt8) : UInt32 :=
  (empty.pushAll (bytes.filter (· != Byte.underscore))).finish

/-- The hash of a text. -/
def ofText (text : String) : UInt32 := ofBytes (Utf8.encode text)

end IdentHash
end Lexeme
