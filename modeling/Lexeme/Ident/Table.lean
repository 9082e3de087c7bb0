import Lexeme.Ident.Hash
import Lexeme.Token.Kind

/-!
# The identifier table

Every symbol and operator is known by a number. Number 0 is the empty text, then come the
keywords and the operator marks in their order, and every further text gets the next free
number when it is first met. The numbers are kept in buckets, one for each hash; texts that
share a hash share a bucket. A text is looked up in the bucket of the hash that comes with it:
equal texts under different hashes are different identifiers, which never happens as long as
everybody uses the hash of the text.
-/

set_option autoImplicit false

namespace Lexeme

/-- An identifier: its number and its text. -/
structure Ident where
  id : Nat
  name : String
deriving DecidableEq, Repr

namespace Ident

def firstKeyword : Nat := 1
def lastKeyword : Nat := Keyword.all.length
def firstOperator : Nat := lastKeyword + 1
def lastOperator : Nat := lastKeyword + Mark.operators.length

/-- How many numbers are taken from the start. -/
def reserved : Nat := lastOperator + 1

def isKeyword (i : Ident) : Bool := firstKeyword ≤ i.id && i.id ≤ lastKeyword

def isOperatorMark (i : Ident) : Bool := firstOperator ≤ i.id && i.id ≤ lastOperator

/-- The keyword a number belongs to. -/
def keywordOf? (id : Nat) : Option Keyword :=
  if firstKeyword ≤ id then Keyword.all[id - firstKeyword]? else none

/-- The operator mark a number belongs to. -/
def markOf? (id : Nat) : Option Mark :=
  if firstOperator ≤ id then Mark.operators[id - firstOperator]? else none

end Ident

namespace IdentTable.Buckets

/-- The slots with a number more behind those of a hash. -/
def pushSlot (hash : UInt32) (id : Nat) : List (UInt32 × List Nat) → List (UInt32 × List Nat)
  | [] => [(hash, [id])]
  | (other, ids) :: slots =>
    if hash == other then (other, ids ++ [id]) :: slots
    else (other, ids) :: pushSlot hash id slots

theorem mem_keys_pushSlot {hash key : UInt32} {id : Nat} {slots : List (UInt32 × List Nat)} :
    key ∈ (pushSlot hash id slots).map Prod.fst ↔ key = hash ∨ key ∈ slots.map Prod.fst := by
  fun_induction pushSlot hash id slots with
  | case1 => simp
  | case2 other ids slots heq =>
    obtain rfl := beq_iff_eq.1 heq
    simp
  | case3 other ids slots hne ih =>
    rw [List.map_cons, List.map_cons, List.mem_cons, List.mem_cons, ih]
    exact or_left_comm

theorem nodup_pushSlot (hash : UInt32) (id : Nat) {slots : List (UInt32 × List Nat)}
    (h : (slots.map Prod.fst).Nodup) : ((pushSlot hash id slots).map Prod.fst).Nodup := by
  fun_induction pushSlot hash id slots with
  | case1 => simp
  | case2 other ids slots heq => exact h
  | case3 other ids slots hne ih =>
    obtain ⟨hnew, hrest⟩ := List.nodup_cons.1 h
    refine List.nodup_cons.2 ⟨fun hmem => ?_, ih hrest⟩
    rcases mem_keys_pushSlot.1 hmem with heq | hmem
    · exact hne (beq_iff_eq.2 heq.symm)
    · exact hnew hmem

end IdentTable.Buckets

/-- A finite map from hashes to the numbers entered under them. -/
structure IdentTable.Buckets where
  slots : List (UInt32 × List Nat) := []
  /-- A hash has one slot. -/
  nodup_keys : (slots.map Prod.fst).Nodup := by decide
deriving DecidableEq, Repr

namespace IdentTable.Buckets

/-- The numbers entered under a hash, in their order. -/
def get (b : Buckets) (hash : UInt32) : List Nat := (b.slots.lookup hash).getD []

/-- Enter a number under a hash, behind those that are there. -/
def push (b : Buckets) (hash : UInt32) (id : Nat) : Buckets :=
  ⟨pushSlot hash id b.slots, nodup_pushSlot hash id b.nodup_keys⟩

end IdentTable.Buckets

/-- The numbers by hash, and the texts in the order of their numbers. -/
structure IdentTable where
  buckets : IdentTable.Buckets := {}
  names : Array String := #[]
deriving DecidableEq, Repr

namespace IdentTable

/-- The texts that are known from the start. -/
def seeds : List String :=
  "" :: Keyword.all.map Keyword.spelling ++ Mark.operators.map Mark.spelling

def size (t : IdentTable) : Nat := t.names.size

/-- Give the next number to a text and enter it under a hash. -/
def insert (t : IdentTable) (text : String) (hash : UInt32) : Ident × IdentTable :=
  (⟨t.size, text⟩, ⟨t.buckets.push hash t.size, t.names.push text⟩)

/-- The table in which only the reserved numbers are taken. -/
@[irreducible] def fresh : IdentTable :=
  seeds.foldl (fun t s => (t.insert s (IdentHash.ofText s)).2) {}

/-- The identifier with a number. -/
def get? (t : IdentTable) (id : Nat) : Option Ident := t.names[id]?.map (⟨id, ·⟩)

/-- The identifier of a text under a hash, if it has been entered. -/
def lookup? (t : IdentTable) (text : String) (hash : UInt32) : Option Ident :=
  (t.buckets.get hash).findSome? fun id => (t.get? id).filter (·.name == text)

/-- The identifier of a text under a hash; one that is new gets the next number. -/
def intern (t : IdentTable) (text : String) (hash : UInt32) : Ident × IdentTable :=
  match t.lookup? text hash with
  | some i => (i, t)
  | none => t.insert text hash

/-- The identifier of scanned bytes with the hash the scanner has for them. Ill-formed bytes
are entered as the text they are shown as, under the hash of that text. -/
def internBytes (t : IdentTable) (bytes : List UInt8) (hash : UInt32) : Ident × IdentTable :=
  let text := Utf8.lossy bytes
  if Utf8.isValid bytes then t.intern text hash else t.intern text (IdentHash.ofText text)

/-- The names from a number on. -/
def namesFrom (t : IdentTable) (id : Nat) : List String := t.names.toList.drop id

end IdentTable
end Lexeme
