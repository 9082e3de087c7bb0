import Mathlib.Data.Finset.Card
import Mathlib.Data.List.Nodup
import Lexeme.Proofs.Text.Utf8
import Lexeme.Token.Piece

/-!
# What a table keeps

Numbers once given stay, so every table that grew from the fresh one agrees on the reserved
numbers, and the kind of a word or an operator does not depend on the table. If everybody enters
texts under their own hash, a table holds no text twice: numbers and texts correspond, and the
table's size tells how many texts there are.
-/

set_option autoImplicit false

namespace Lexeme

namespace IdentTable

/-! ## Buckets -/

namespace Buckets

theorem lookup_cons_of_ne {key other : UInt32} (h : other ≠ key) (ids : List Nat)
    (slots : List (UInt32 × List Nat)) :
    ((key, ids) :: slots).lookup other = slots.lookup other := by
  rw [List.lookup_cons, beq_false_of_ne h]

theorem lookup_pushSlot_self (hash : UInt32) (id : Nat) (slots : List (UInt32 × List Nat)) :
    (pushSlot hash id slots).lookup hash = some ((slots.lookup hash).getD [] ++ [id]) := by
  induction slots with
  | nil => exact List.lookup_cons_self
  | cons slot slots ih =>
    obtain ⟨key, ids⟩ := slot
    by_cases hkey : hash = key
    · subst hkey
      simp [pushSlot]
    · rw [pushSlot, if_neg (by simpa using hkey), lookup_cons_of_ne hkey, lookup_cons_of_ne hkey,
        ih]

theorem lookup_pushSlot_of_ne {hash other : UInt32} (h : other ≠ hash) (id : Nat)
    (slots : List (UInt32 × List Nat)) :
    (pushSlot hash id slots).lookup other = slots.lookup other := by
  induction slots with
  | nil => exact lookup_cons_of_ne h _ _
  | cons slot slots ih =>
    obtain ⟨key, ids⟩ := slot
    by_cases hkey : hash = key
    · subst hkey
      rw [pushSlot, if_pos BEq.rfl, lookup_cons_of_ne h, lookup_cons_of_ne h]
    · rw [pushSlot, if_neg (by simpa using hkey), List.lookup_cons, List.lookup_cons, ih]

/-- A number that is entered shows in the bucket of its hash and in no other. -/
theorem get_push (b : Buckets) (hash : UInt32) (id : Nat) (other : UInt32) :
    (b.push hash id).get other = if other = hash then b.get hash ++ [id] else b.get other := by
  split
  · rename_i heq
    rw [heq, get, push, lookup_pushSlot_self]
    rfl
  · rename_i hne
    rw [get, push, lookup_pushSlot_of_ne hne, get]

theorem get_empty (hash : UInt32) : get {} hash = [] := rfl

end Buckets

/-! ## The pairs of a table -/

/-- A text and the hash it was entered under. -/
structure Entry where
  name : String
  hash : UInt32
deriving DecidableEq, Repr

/-- A text with its own hash. -/
def Entry.own (text : String) : Entry := ⟨text, IdentHash.ofText text⟩

/-- The table holds the pairs, and the place of a pair is its number: the text stands there among
the names, and the number in the bucket of the hash. -/
structure Represents (t : IdentTable) (pairs : List Entry) : Prop where
  names_eq : t.names.toList = pairs.map Entry.name
  get_buckets : ∀ hash, t.buckets.get hash = pairs.findIdxs (·.hash == hash)

theorem represents_empty : Represents {} [] where
  names_eq := rfl
  get_buckets := Buckets.get_empty

namespace Represents

variable {t : IdentTable} {pairs : List Entry} (h : t.Represents pairs)
include h

theorem size_eq : t.size = pairs.length := by
  rw [size, ← Array.length_toList, h.names_eq, List.length_map]

theorem insert (e : Entry) : (t.insert e.name e.hash).2.Represents (pairs ++ [e]) where
  names_eq := by
    rw [IdentTable.insert, Array.toList_push, h.names_eq, List.map_append]
    rfl
  get_buckets hash := by
    rw [IdentTable.insert, Buckets.get_push, h.get_buckets, h.get_buckets, h.size_eq,
      List.findIdxs_append, List.findIdxs_singleton, Nat.zero_add]
    by_cases hhash : hash = e.hash
    · subst hhash
      simp
    · simp [hhash, Ne.symm hhash]

theorem foldl_insert (texts : List String) :
    (texts.foldl (fun t s => (t.insert s (IdentHash.ofText s)).2) t).Represents
      (pairs ++ texts.map Entry.own) := by
  induction texts generalizing t pairs with
  | nil => simpa using h
  | cons text texts ih =>
    have hstep := ih (h.insert (.own text))
    rwa [List.append_assoc] at hstep

theorem getElem?_names (id : Nat) : t.names[id]? = pairs[id]?.map Entry.name := by
  rw [← Array.getElem?_toList, h.names_eq, List.getElem?_map]

theorem get?_eq (id : Nat) : t.get? id = pairs[id]?.map fun e => ⟨id, e.name⟩ := by
  rw [get?, h.getElem?_names, Option.map_map]
  rfl

/-- A bucket has the numbers of the pairs with its hash, and no other. -/
theorem mem_bucket_iff {hash : UInt32} {id : Nat} :
    id ∈ t.buckets.get hash ↔ ∃ e, pairs[id]? = some e ∧ e.hash = hash := by
  rw [h.get_buckets, List.mem_findIdxs_iff_exists_getElem_pos]
  constructor
  · rintro ⟨hlt, hhash⟩
    exact ⟨pairs[id], List.getElem?_eq_getElem hlt, by simpa using hhash⟩
  · rintro ⟨e, he, rfl⟩
    obtain ⟨hlt, rfl⟩ := List.getElem?_eq_some_iff.1 he
    exact ⟨hlt, by simp⟩

theorem lt_size_of_mem_bucket {hash : UInt32} {id : Nat} (hid : id ∈ t.buckets.get hash) :
    id < t.size := by
  obtain ⟨e, he, -⟩ := h.mem_bucket_iff.1 hid
  rw [h.size_eq]
  exact (List.getElem?_eq_some_iff.1 he).1

/-- What is found stands under its number. -/
theorem getElem?_of_lookup? {text : String} {hash : UInt32} {i : Ident}
    (hi : t.lookup? text hash = some i) :
    i.name = text ∧ pairs[i.id]? = some ⟨text, hash⟩ := by
  obtain ⟨id, hid, hfilter⟩ := List.exists_of_findSome?_eq_some hi
  obtain ⟨⟨name, _⟩, he, rfl⟩ := h.mem_bucket_iff.1 hid
  rw [h.get?_eq, he, Option.map_some, Option.filter_eq_some_iff] at hfilter
  obtain ⟨hsome, hname⟩ := hfilter
  obtain rfl := Option.some.inj hsome
  obtain rfl : name = text := by simpa using hname
  exact ⟨rfl, he⟩

/-- A lookup fails exactly for pairs that the table does not hold. -/
theorem lookup?_eq_none_iff {text : String} {hash : UInt32} :
    t.lookup? text hash = none ↔ (⟨text, hash⟩ : Entry) ∉ pairs := by
  constructor
  · intro hnone hmem
    obtain ⟨id, he⟩ := List.mem_iff_getElem?.1 hmem
    have hfalse := List.findSome?_eq_none_iff.1 hnone id (h.mem_bucket_iff.2 ⟨_, he, rfl⟩)
    rw [h.get?_eq, he] at hfalse
    simp at hfalse
  · intro hnot
    cases hi : t.lookup? text hash with
    | none => rfl
    | some i => exact absurd (List.mem_of_getElem? (h.getElem?_of_lookup? hi).2) hnot

omit h in
theorem place_eq_iff (hnodup : pairs.Nodup) {a b : Nat} {e e' : Entry}
    (ha : pairs[a]? = some e) (hb : pairs[b]? = some e') : a = b ↔ e = e' := by
  constructor
  · rintro rfl
    exact Option.some.inj (ha.symm.trans hb)
  · rintro rfl
    exact (List.getElem?_inj (List.getElem?_eq_some_iff.1 ha).1 hnodup).1 (ha.trans hb.symm)

/-- If the table holds no pair twice, a pair is found under the number it has. -/
theorem lookup?_of_getElem? (hnodup : pairs.Nodup) {id : Nat} {e : Entry}
    (he : pairs[id]? = some e) : t.lookup? e.name e.hash = some ⟨id, e.name⟩ := by
  cases hi : t.lookup? e.name e.hash with
  | none => exact absurd (List.mem_of_getElem? he) (h.lookup?_eq_none_iff.1 hi)
  | some i =>
    obtain ⟨id', name⟩ := i
    obtain ⟨rfl, he'⟩ := h.getElem?_of_lookup? hi
    rw [(place_eq_iff hnodup he he').2 rfl]

/-- A table that holds a pair stays as it is. -/
theorem intern_of_mem {e : Entry} (he : e ∈ pairs) : (t.intern e.name e.hash).2 = t := by
  unfold intern
  split
  · rfl
  · rename_i hnone
    exact absurd he (h.lookup?_eq_none_iff.1 hnone)

/-- A pair that is new is entered behind the others. -/
theorem intern_of_not_mem {e : Entry} (he : e ∉ pairs) :
    t.intern e.name e.hash = t.insert e.name e.hash := by
  have hnone : t.lookup? e.name e.hash = none := h.lookup?_eq_none_iff.2 he
  rw [intern, hnone]

end Represents

/-- The reserved texts, each with its own hash. -/
def seedPairs : List Entry := seeds.map Entry.own

theorem represents_fresh : fresh.Represents seedPairs := by
  unfold fresh
  exact represents_empty.foldl_insert seeds

/-! ## Tables that grow -/

/-- The second table holds what the first one does, under the same numbers, and its further
numbers stand behind. -/
structure Extends (t t' : IdentTable) : Prop where
  names_within : t.names.toList <+: t'.names.toList
  bucket : ∀ hash, ∃ later, t'.buckets.get hash = t.buckets.get hash ++ later ∧
    ∀ id ∈ later, t.size ≤ id

namespace Extends

theorem refl (t : IdentTable) : t.Extends t where
  names_within := List.prefix_refl _
  bucket _ := ⟨[], (List.append_nil _).symm, fun _ hid => absurd hid List.not_mem_nil⟩

variable {t t' : IdentTable}

theorem size_le (h : t.Extends t') : t.size ≤ t'.size := h.names_within.length_le

theorem trans {t'' : IdentTable} (h : t.Extends t') (h' : t'.Extends t'') : t.Extends t'' where
  names_within := h.names_within.trans h'.names_within
  bucket hash := by
    obtain ⟨later, hlater, hle⟩ := h.bucket hash
    obtain ⟨later', hlater', hle'⟩ := h'.bucket hash
    refine ⟨later ++ later', by rw [hlater', hlater, List.append_assoc], ?_⟩
    intro id hid
    rcases List.mem_append.1 hid with hid | hid
    · exact hle id hid
    · exact h.size_le.trans (hle' id hid)

theorem getElem?_names (h : t.Extends t') {id : Nat} {name : String}
    (hname : t.names[id]? = some name) : t'.names[id]? = some name := by
  rw [← Array.getElem?_toList] at hname ⊢
  obtain ⟨more, hmore⟩ := h.names_within
  obtain ⟨hlt, -⟩ := List.getElem?_eq_some_iff.1 hname
  rw [← hmore, List.getElem?_append_left hlt, hname]

theorem get? (h : t.Extends t') {id : Nat} {i : Ident} (hi : t.get? id = some i) :
    t'.get? id = some i := by
  obtain ⟨name, hname, rfl⟩ := Option.map_eq_some_iff.1 hi
  rw [IdentTable.get?, h.getElem?_names hname]
  rfl

/-- What the first table finds, the second one finds too. -/
theorem lookup? (h : t.Extends t') {pairs : List Entry} (ht : t.Represents pairs) {text : String}
    {hash : UInt32} {i : Ident} (hi : t.lookup? text hash = some i) :
    t'.lookup? text hash = some i := by
  obtain ⟨later, hlater, -⟩ := h.bucket hash
  have hsame : ∀ id ∈ t.buckets.get hash, (t'.get? id).filter (·.name == text) =
      (t.get? id).filter (·.name == text) := by
    intro id hid
    obtain ⟨e, he, -⟩ := ht.mem_bucket_iff.1 hid
    have hget : t.get? id = some ⟨id, e.name⟩ := by
      rw [ht.get?_eq, he]
      rfl
    rw [h.get? hget, hget]
  have hfirst : (t.buckets.get hash).findSome? (fun id => (t'.get? id).filter (·.name == text)) =
      some i := by
    rw [← List.head?_filterMap, List.filterMap_congr hsame, List.head?_filterMap]
    exact hi
  rw [IdentTable.lookup?, hlater, List.findSome?_append, hfirst]
  rfl

/-- A text that the first table does not find gets a number behind its own. -/
theorem size_le_intern (h : t.Extends t') {pairs : List Entry} (ht : t.Represents pairs)
    {text : String} {hash : UInt32} (hnone : t.lookup? text hash = none) :
    t.size ≤ (t'.intern text hash).1.id := by
  unfold intern
  split
  · rename_i i hi
    obtain ⟨later, hlater, hle⟩ := h.bucket hash
    obtain ⟨id, hid, hfilter⟩ := List.exists_of_findSome?_eq_some hi
    obtain ⟨hget, hname⟩ := Option.filter_eq_some_iff.1 hfilter
    have hplace : i.id = id := by
      obtain ⟨name, -, rfl⟩ := Option.map_eq_some_iff.1 hget
      rfl
    rw [hplace]
    rw [hlater, List.mem_append] at hid
    rcases hid with hid | hid
    · obtain ⟨e, he, rfl⟩ := ht.mem_bucket_iff.1 hid
      have hsame : t'.get? id = some ⟨id, e.name⟩ := by
        refine h.get? ?_
        rw [ht.get?_eq, he]
        rfl
      obtain rfl := Option.some.inj (hget.symm.trans hsame)
      have hentry : (⟨text, e.hash⟩ : Entry) = e := by
        rw [← beq_iff_eq.1 hname]
      have hmem : (⟨text, e.hash⟩ : Entry) ∈ pairs := by
        rw [hentry]
        exact List.mem_of_getElem? he
      exact absurd hmem (ht.lookup?_eq_none_iff.1 hnone)
    · exact hle id hid
  · exact h.size_le

end Extends

theorem extends_insert (t : IdentTable) (text : String) (hash : UInt32) :
    t.Extends (t.insert text hash).2 where
  names_within := by
    rw [insert, Array.toList_push]
    exact List.prefix_append _ _
  bucket other := by
    rw [insert, Buckets.get_push]
    split
    · rename_i heq
      subst heq
      exact ⟨[t.size], rfl, by simp⟩
    · exact ⟨[], (List.append_nil _).symm, by simp⟩

theorem extends_intern (t : IdentTable) (text : String) (hash : UInt32) :
    t.Extends (t.intern text hash).2 := by
  unfold intern
  split
  · exact .refl t
  · exact extends_insert t text hash

theorem name_of_lookup? {t : IdentTable} {text : String} {hash : UInt32} {i : Ident}
    (h : t.lookup? text hash = some i) : i.name = text := by
  obtain ⟨id, -, hfilter⟩ := List.exists_of_findSome?_eq_some h
  simpa using (Option.filter_eq_some_iff.1 hfilter).2

theorem get?_of_lookup? {t : IdentTable} {text : String} {hash : UInt32} {i : Ident}
    (h : t.lookup? text hash = some i) : t.get? i.id = some i := by
  obtain ⟨id, -, hfilter⟩ := List.exists_of_findSome?_eq_some h
  obtain ⟨hget, -⟩ := Option.filter_eq_some_iff.1 hfilter
  obtain ⟨name, -, rfl⟩ := Option.map_eq_some_iff.1 hget
  exact hget

/-- What a call returns can be looked up by its number. -/
theorem get?_intern (t : IdentTable) (text : String) (hash : UInt32) :
    (t.intern text hash).2.get? (t.intern text hash).1.id = some (t.intern text hash).1 := by
  unfold intern
  split
  · rename_i i hi
    exact get?_of_lookup? hi
  · rw [get?, insert, size, Array.getElem?_push_size]
    rfl

theorem get?_internBytes (t : IdentTable) (bytes : List UInt8) (hash : UInt32) :
    (t.internBytes bytes hash).2.get? (t.internBytes bytes hash).1.id =
      some (t.internBytes bytes hash).1 := by
  unfold internBytes
  dsimp only
  split
  · exact get?_intern t _ hash
  · exact get?_intern t _ _

theorem name_intern (t : IdentTable) (text : String) (hash : UInt32) :
    (t.intern text hash).1.name = text := by
  unfold intern
  split
  · rename_i i hi
    exact name_of_lookup? hi
  · rfl

/-! ## Reserved numbers -/

theorem size_fresh : fresh.size = Ident.reserved := represents_fresh.size_eq

theorem length_reserved :
    Ident.reserved = 1 + Keyword.all.length + Mark.operators.length := by decide

/-- Above the reserved numbers there are only symbols and operators. -/
theorem kind_of_reserved_le {i j : Ident} (hi : Ident.reserved ≤ i.id)
    (hj : Ident.reserved ≤ j.id) (role : NameRole) : role.kind i = role.kind j := by
  have hword : ∀ {id}, Ident.reserved ≤ id → Ident.keywordOf? id = none := by
    intro id h
    rw [length_reserved] at h
    rw [Ident.keywordOf?, Ident.firstKeyword, if_pos (by omega), List.getElem?_eq_none_iff]
    omega
  have hmark : ∀ {id}, Ident.reserved ≤ id → Ident.markOf? id = none := by
    intro id h
    rw [length_reserved] at h
    rw [Ident.markOf?, Ident.firstOperator, Ident.lastKeyword, if_pos (by omega),
      List.getElem?_eq_none_iff]
    omega
  cases role with
  | word => rw [NameRole.kind, NameRole.kind, hword hi, hword hj]
  | operator => rw [NameRole.kind, NameRole.kind, hmark hi, hmark hj]

/-- A text that is not reserved never gets a reserved number. -/
theorem reserved_le_intern {t : IdentTable} (ht : fresh.Extends t) {text : String}
    {hash : UInt32} (h : fresh.lookup? text hash = none) :
    Ident.reserved ≤ (t.intern text hash).1.id :=
  size_fresh ▸ ht.size_le_intern represents_fresh h

theorem kind_intern {t : IdentTable} (ht : fresh.Extends t) (role : NameRole) (text : String)
    (hash : UInt32) :
    role.kind (t.intern text hash).1 = role.kind (fresh.intern text hash).1 := by
  cases h : fresh.lookup? text hash with
  | some i => rw [intern, intern, h, ht.lookup? represents_fresh h]
  | none =>
    exact kind_of_reserved_le (reserved_le_intern ht h) (reserved_le_intern (.refl _) h) role

theorem kind_internBytes {t : IdentTable} (ht : fresh.Extends t) (role : NameRole)
    (bytes : List UInt8) (hash : UInt32) :
    role.kind (t.internBytes bytes hash).1 = role.kind (fresh.internBytes bytes hash).1 := by
  unfold internBytes
  dsimp only
  split
  · exact kind_intern ht role _ _
  · exact kind_intern ht role _ _

theorem name_internBytes (t : IdentTable) (bytes : List UInt8) (hash : UInt32) :
    (t.internBytes bytes hash).1.name = Utf8.lossy bytes := by
  unfold internBytes
  dsimp only
  split
  · exact name_intern t _ _
  · exact name_intern t _ _

/-! ## Runs of calls -/

/-- The table that a run of calls leaves. -/
def internAll (t : IdentTable) : List Entry → IdentTable
  | [] => t
  | e :: calls => (t.intern e.name e.hash).2.internAll calls

theorem internAll_append (t : IdentTable) (calls more : List Entry) :
    t.internAll (calls ++ more) = (t.internAll calls).internAll more := by
  induction calls generalizing t with
  | nil => rfl
  | cons e calls ih => exact ih _

/-- The pairs with one more behind them, unless it is there. -/
def enter (pairs : List Entry) (e : Entry) : List Entry :=
  if e ∈ pairs then pairs else pairs ++ [e]

theorem enter_of_mem {pairs : List Entry} {e : Entry} (h : e ∈ pairs) : enter pairs e = pairs :=
  if_pos h

theorem enter_of_not_mem {pairs : List Entry} {e : Entry} (h : e ∉ pairs) :
    enter pairs e = pairs ++ [e] :=
  if_neg h

namespace Represents

variable {t : IdentTable} {pairs : List Entry} (h : t.Represents pairs) (e : Entry)
include h

theorem intern : (t.intern e.name e.hash).2.Represents (enter pairs e) := by
  by_cases he : e ∈ pairs
  · rwa [enter_of_mem he, h.intern_of_mem he]
  · rw [enter_of_not_mem he, h.intern_of_not_mem he]
    exact h.insert e

/-- The number that a call returns is the place of its pair. -/
theorem getElem?_intern : (enter pairs e)[(t.intern e.name e.hash).1.id]? = some e := by
  cases hi : t.lookup? e.name e.hash with
  | some i =>
    have hplace := (h.getElem?_of_lookup? hi).2
    rw [IdentTable.intern, hi, enter_of_mem (List.mem_of_getElem? hplace)]
    exact hplace
  | none =>
    rw [IdentTable.intern, hi, enter_of_not_mem (h.lookup?_eq_none_iff.1 hi)]
    change (pairs ++ [e])[t.size]? = some e
    rw [h.size_eq, List.getElem?_concat_length]

end Represents

/-! ## Texts under their own hash -/

/-- The table holds the reserved texts, and each text once, under its own hash. -/
structure Sound (t : IdentTable) : Prop where
  reserved : fresh.Extends t
  represents : t.Represents (t.names.toList.map Entry.own)
  nodup : t.names.toList.Nodup

theorem names_fresh : fresh.names.toList = seeds := by
  rw [represents_fresh.names_eq, seedPairs, List.map_map]
  exact List.map_id' seeds

theorem nodup_seeds : seeds.Nodup := by decide +kernel

theorem sound_fresh : fresh.Sound where
  reserved := .refl fresh
  represents := by
    rw [names_fresh]
    exact represents_fresh
  nodup := names_fresh ▸ nodup_seeds

/-- What entering some identifiers makes of a table. -/
structure Enters (t : IdentTable) (idents : List Ident) (t' : IdentTable) : Prop where
  sound : t'.Sound
  grows : t.Extends t'
  calls : ∃ texts : List String, t' = t.internAll (texts.map Entry.own)
  get?_eq : ∀ i ∈ idents, t'.get? i.id = some i
  mem_names_iff : ∀ s, s ∈ t'.names ↔ s ∈ t.names ∨ s ∈ idents.map Ident.name

theorem Sound.enters_nil {t : IdentTable} (h : t.Sound) : t.Enters [] t where
  sound := h
  grows := .refl t
  calls := ⟨[], rfl⟩
  get?_eq := by simp
  mem_names_iff := by simp

theorem Enters.append {t t' t'' : IdentTable} {is js : List Ident} (h : t.Enters is t')
    (h' : t'.Enters js t'') : t.Enters (is ++ js) t'' where
  sound := h'.sound
  grows := h.grows.trans h'.grows
  calls := by
    obtain ⟨texts, rfl⟩ := h.calls
    obtain ⟨more, rfl⟩ := h'.calls
    exact ⟨texts ++ more, by rw [List.map_append, internAll_append]⟩
  get?_eq i hi := by
    rcases List.mem_append.1 hi with hi | hi
    · exact h'.grows.get? (h.get?_eq i hi)
    · exact h'.get?_eq i hi
  mem_names_iff s := by
    rw [h'.mem_names_iff, h.mem_names_iff, List.map_append, List.mem_append, or_assoc]

theorem get?_eq_none_iff (t : IdentTable) (id : Nat) : t.get? id = none ↔ t.size ≤ id := by
  rw [get?, Option.map_eq_none_iff, Array.getElem?_eq_none_iff, size]

theorem getElem?_names (t : IdentTable) (id : Nat) :
    t.names[id]? = (t.get? id).map Ident.name := by
  rw [get?, Option.map_map]
  exact Option.map_id'.symm

theorem Sound.own_mem_iff {t : IdentTable} (text : String) :
    Entry.own text ∈ t.names.toList.map Entry.own ↔ text ∈ t.names := by
  rw [← Array.mem_toList_iff, List.mem_map]
  constructor
  · rintro ⟨name, hname, heq⟩
    have hsame : name = text := congrArg Entry.name heq
    exact hsame ▸ hname
  · exact fun h => ⟨text, h, rfl⟩

theorem Sound.enters_intern {t : IdentTable} (h : t.Sound) (text : String) :
    t.Enters [(t.intern text (IdentHash.ofText text)).1]
      (t.intern text (IdentHash.ofText text)).2 := by
  have hgrows := extends_intern t text (IdentHash.ofText text)
  have hcalls : ∃ texts : List String,
      (t.intern text (IdentHash.ofText text)).2 = t.internAll (texts.map Entry.own) :=
    ⟨[text], rfl⟩
  have hget := get?_intern t text (IdentHash.ofText text)
  have hname := name_intern t text (IdentHash.ofText text)
  have hidents : ∀ i ∈ [(t.intern text (IdentHash.ofText text)).1],
      (t.intern text (IdentHash.ofText text)).2.get? i.id = some i :=
    fun i hi => List.mem_singleton.1 hi ▸ hget
  by_cases hmem : text ∈ t.names
  · have hsame : (t.intern text (IdentHash.ofText text)).2 = t :=
      h.represents.intern_of_mem (e := .own text) ((own_mem_iff text).2 hmem)
    refine ⟨hsame.symm ▸ h, hgrows, hcalls, hidents, fun s => ?_⟩
    rw [hsame, List.map_singleton, hname, List.mem_singleton]
    exact (or_iff_left_of_imp fun hs => hs ▸ hmem).symm
  · have hinsert : t.intern text (IdentHash.ofText text) =
        t.insert text (IdentHash.ofText text) :=
      h.represents.intern_of_not_mem (e := .own text) (mt (own_mem_iff text).1 hmem)
    have hnames : (t.intern text (IdentHash.ofText text)).2.names.toList =
        t.names.toList ++ [text] := by
      rw [hinsert]
      exact Array.toList_push
    have hpairs := h.represents.insert (.own text)
    refine ⟨⟨h.reserved.trans hgrows, ?_, ?_⟩, hgrows, hcalls, hidents, fun s => ?_⟩
    · rw [hnames, hinsert, List.map_append]
      exact hpairs
    · rw [hnames, ← List.concat_eq_append]
      exact h.nodup.concat fun hlist => hmem (Array.mem_toList_iff.1 hlist)
    · rw [← Array.mem_toList_iff, hnames, List.mem_append, Array.mem_toList_iff,
        List.map_singleton, hname]

/-- Identifiers of a sound table have the same number if they have the same text. -/
theorem Sound.id_eq_iff {t : IdentTable} (h : t.Sound) {i j : Ident} (hi : t.get? i.id = some i)
    (hj : t.get? j.id = some j) : i.id = j.id ↔ i.name = j.name := by
  constructor
  · intro hid
    rw [hid, hj] at hi
    rw [Option.some.inj hi]
  · intro hname
    have hnamei := getElem?_names t i.id
    have hnamej := getElem?_names t j.id
    rw [hi] at hnamei
    rw [hj, Option.map_some, ← hname] at hnamej
    rw [← Array.getElem?_toList] at hnamei hnamej
    have hlt : i.id < t.names.toList.length := (List.getElem?_eq_some_iff.1 hnamei).1
    exact (List.getElem?_inj hlt h.nodup).1 (hnamei.trans hnamej.symm)

section Entered

variable {t : IdentTable} {idents : List Ident}

theorem Enters.id_eq_iff {t' : IdentTable} (h : t.Enters idents t') {i j : Ident}
    (hi : i ∈ idents) (hj : j ∈ idents) : i.id = j.id ↔ i.name = j.name :=
  h.sound.id_eq_iff (h.get?_eq i hi) (h.get?_eq j hj)

/-- A table that grew from the fresh one has the reserved texts and those entered that are not
reserved. -/
theorem Enters.size_eq (h : fresh.Enters idents t) :
    t.size = Ident.reserved +
      ((idents.map Ident.name).toFinset \ seeds.toFinset).card := by
  have hnames : t.names.toList.toFinset =
      seeds.toFinset ∪ ((idents.map Ident.name).toFinset \ seeds.toFinset) := by
    rw [Finset.union_sdiff_self_eq_union]
    ext s
    rw [Finset.mem_union, List.mem_toFinset, List.mem_toFinset, List.mem_toFinset,
      Array.mem_toList_iff, h.mem_names_iff, ← Array.mem_toList_iff, names_fresh]
  calc t.size = t.names.toList.length := Array.length_toList.symm
    _ = t.names.toList.toFinset.card := (List.toFinset_card_of_nodup h.sound.nodup).symm
    _ = seeds.toFinset.card +
        ((idents.map Ident.name).toFinset \ seeds.toFinset).card := by
      rw [hnames, Finset.card_union_of_disjoint Finset.disjoint_sdiff]
    _ = Ident.reserved + ((idents.map Ident.name).toFinset \ seeds.toFinset).card := by
      rw [List.toFinset_card_of_nodup nodup_seeds]
      rfl

end Entered

end IdentTable
end Lexeme
