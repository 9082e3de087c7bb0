import Lexeme.Proofs.Ident.Reserved

/-!
# What a run of calls makes of a table

A pair of a text and a hash gets the next free number when it is first entered, and it keeps that
number: the numbers are the places of the pairs in the order of their first calls, behind the
reserved ones. Every number stands in one bucket, that of its pair's hash, and the texts of a bucket
are distinct. So numbers tell pairs apart, whatever the hashes, and texts if everybody uses the
hash of the text. Spellings that differ in underscores only share a bucket and are still told apart.
-/

set_option autoImplicit false

namespace Lexeme

namespace IdentTable

/-! ## Runs of calls -/

/-- What the calls of a run return. -/
def answers (t : IdentTable) : List Entry → List Ident
  | [] => []
  | e :: calls => (t.intern e.name e.hash).1 :: (t.intern e.name e.hash).2.answers calls

/-- The pairs of a run that are not among others, in the order of their first calls. -/
def newPairs (pairs calls : List Entry) : List Entry := (calls.removeAll pairs).eraseDups

theorem enter_append_newPairs (pairs calls : List Entry) (e : Entry) :
    enter pairs e ++ newPairs (enter pairs e) calls = pairs ++ newPairs pairs (e :: calls) := by
  by_cases hmem : e ∈ pairs
  · have hknown : pairs.contains e = true := by simpa using hmem
    rw [enter_of_mem hmem, newPairs, newPairs, List.cons_removeAll,
      if_neg (by rw [hknown]; exact Bool.noConfusion)]
  · have hnew : pairs.contains e = false := by simpa using hmem
    have hlater : calls.removeAll (pairs ++ [e]) =
        (calls.removeAll pairs).filter fun x => !x == e := by
      simp [List.removeAll, List.filter_filter, Bool.and_comm, beq_eq_decide]
    rw [enter_of_not_mem hmem, newPairs, newPairs, List.cons_removeAll, if_pos hnew,
      List.eraseDups_cons, hlater, List.append_assoc]
    rfl

theorem mem_append_newPairs {pairs calls : List Entry} {e : Entry} :
    e ∈ pairs ++ newPairs pairs calls ↔ e ∈ calls ∨ e ∈ pairs := by
  rw [List.mem_append, newPairs, List.mem_eraseDups, List.removeAll, List.mem_filter]
  by_cases hmem : e ∈ pairs
  · simp [hmem]
  · simp [hmem]

theorem nodup_enter {pairs : List Entry} (h : pairs.Nodup) (e : Entry) : (enter pairs e).Nodup := by
  by_cases hmem : e ∈ pairs
  · rwa [enter_of_mem hmem]
  · rw [enter_of_not_mem hmem, ← List.concat_eq_append]
    exact h.concat hmem

theorem nodup_append_newPairs {pairs : List Entry} (h : pairs.Nodup) (calls : List Entry) :
    (pairs ++ newPairs pairs calls).Nodup := by
  induction calls generalizing pairs with
  | nil => simpa [newPairs, List.removeAll] using h
  | cons e calls ih =>
    rw [← enter_append_newPairs]
    exact ih (nodup_enter h e)

/-- The pairs stand in the order of their first calls. -/
theorem Represents.internAll {t : IdentTable} {pairs : List Entry} (h : t.Represents pairs)
    (calls : List Entry) : (t.internAll calls).Represents (pairs ++ newPairs pairs calls) := by
  induction calls generalizing t pairs with
  | nil =>
    have hnone : pairs ++ newPairs pairs [] = pairs := by simp [newPairs, List.removeAll]
    rwa [hnone]
  | cons e calls ih =>
    rw [← enter_append_newPairs]
    exact ih (h.intern e)

theorem extends_internAll (t : IdentTable) (calls : List Entry) :
    t.Extends (t.internAll calls) := by
  induction calls generalizing t with
  | nil => exact .refl t
  | cons e calls ih => exact (extends_intern t e.name e.hash).trans (ih _)

theorem names_answers (t : IdentTable) (calls : List Entry) :
    (t.answers calls).map Ident.name = calls.map Entry.name := by
  induction calls generalizing t with
  | nil => rfl
  | cons e calls ih => rw [answers, List.map_cons, List.map_cons, ih, name_intern]

/-- Every call of a run returns its text and the place that its pair has in the end. -/
theorem Represents.getElem?_answers {t : IdentTable} {pairs : List Entry} (h : t.Represents pairs)
    (calls : List Entry) :
    ∀ p ∈ calls.zip (t.answers calls),
      p.2.name = p.1.name ∧ (pairs ++ newPairs pairs calls)[p.2.id]? = some p.1 := by
  induction calls generalizing t pairs with
  | nil => exact fun p hp => absurd hp List.not_mem_nil
  | cons e calls ih =>
    rw [answers, List.zip_cons_cons, List.forall_mem_cons, ← enter_append_newPairs]
    refine ⟨⟨name_intern t e.name e.hash, ?_⟩, ih (h.intern e)⟩
    have hplace := h.getElem?_intern e
    rw [List.getElem?_append_left (List.getElem?_eq_some_iff.1 hplace).1, hplace]

/-! ## The pairs of the fresh table -/

theorem nodup_seedPairs : seedPairs.Nodup := by
  have hnames : (seedPairs.map Entry.name).Nodup := by
    rw [seedPairs, List.map_map]
    exact (List.map_id' seeds).symm ▸ nodup_seeds
  exact hnames.of_map Entry.name

theorem mem_seedPairs_iff {e : Entry} :
    e ∈ seedPairs ↔ e.name ∈ seeds ∧ e.hash = IdentHash.ofText e.name := by
  rw [seedPairs, List.mem_map]
  constructor
  · rintro ⟨s, hs, rfl⟩
    exact ⟨hs, rfl⟩
  · rintro ⟨hs, hhash⟩
    refine ⟨e.name, hs, ?_⟩
    rw [Entry.own, ← hhash]

/-! ## Texts under their own hash -/

/-- The table comes from the fresh one by calls that each give the hash of the text. -/
def OwnHashed (t : IdentTable) : Prop :=
  ∃ texts : List String, t = fresh.internAll (texts.map Entry.own)

theorem Sound.internAll {t : IdentTable} (h : t.Sound) {calls : List Entry}
    (hcalls : ∀ e ∈ calls, e.hash = IdentHash.ofText e.name) : (t.internAll calls).Sound := by
  induction calls generalizing t with
  | nil => exact h
  | cons e calls ih =>
    rw [List.forall_mem_cons] at hcalls
    have hstep := (h.enters_intern e.name).sound
    rw [← hcalls.1] at hstep
    exact ih hstep hcalls.2

theorem OwnHashed.sound {t : IdentTable} (h : t.OwnHashed) : t.Sound := by
  obtain ⟨texts, rfl⟩ := h
  exact sound_fresh.internAll (List.forall_mem_map.2 fun text _ => rfl)

/-- Entering identifiers leaves such a table. -/
theorem OwnHashed.of_enters {t t' : IdentTable} {idents : List Ident} (h : t.OwnHashed)
    (henters : t.Enters idents t') : t'.OwnHashed := by
  obtain ⟨texts, rfl⟩ := h
  obtain ⟨more, rfl⟩ := henters.calls
  exact ⟨texts ++ more, by rw [List.map_append, internAll_append]⟩

/-- In a sound table, numbers and texts lead to each other. -/
theorem Sound.get?_iff_lookup? {t : IdentTable} (h : t.Sound) (i : Ident) :
    t.get? i.id = some i ↔ t.lookup? i.name (IdentHash.ofText i.name) = some i := by
  have hnodup : (t.names.toList.map Entry.own).Nodup :=
    h.nodup.map fun s s' heq => congrArg Entry.name heq
  rw [h.represents.get?_eq]
  constructor
  · intro hget
    obtain ⟨e, he, hi⟩ := Option.map_eq_some_iff.1 hget
    obtain ⟨name, -, rfl⟩ := List.mem_map.1 (List.mem_of_getElem? he)
    have hlookup := h.represents.lookup?_of_getElem? hnodup he
    rw [hi] at hlookup
    rw [← congrArg Ident.name hi]
    exact hlookup
  · intro hlookup
    rw [(h.represents.getElem?_of_lookup? hlookup).2]
    rfl

/-! ## Buckets -/

namespace Represents

variable {t : IdentTable} {pairs : List Entry} (h : t.Represents pairs)
include h

/-- Every number stands in one bucket. -/
theorem existsUnique_bucket {id : Nat} (hid : id < t.size) :
    ∃! hash, id ∈ t.buckets.get hash := by
  rw [h.size_eq] at hid
  have hplace : pairs[id]? = some pairs[id] := List.getElem?_eq_getElem hid
  refine ⟨pairs[id].hash, h.mem_bucket_iff.2 ⟨_, hplace, rfl⟩, fun hash hmem => ?_⟩
  obtain ⟨e, he, rfl⟩ := h.mem_bucket_iff.1 hmem
  rw [Option.some.inj (hplace.symm.trans he)]

/-- Texts that share a hash are kept apart. -/
theorem nodup_bucket (hnodup : pairs.Nodup) (hash : UInt32) :
    ((t.buckets.get hash).map fun id => t.names[id]?).Nodup := by
  have hbucket : (t.buckets.get hash).Nodup := by
    rw [h.get_buckets]
    exact List.nodup_findIdxs
  refine hbucket.map_on ?_
  intro a ha b hb hnames
  obtain ⟨e, he, rfl⟩ := h.mem_bucket_iff.1 ha
  obtain ⟨e', he', hhash⟩ := h.mem_bucket_iff.1 hb
  rw [h.getElem?_names, h.getElem?_names, he, he', Option.map_some, Option.map_some,
    Option.some.injEq] at hnames
  have hsame : e = e' := by
    obtain ⟨name, hash⟩ := e
    obtain ⟨name', hash'⟩ := e'
    rw [Entry.mk.injEq]
    exact ⟨hnames, hhash.symm⟩
  exact (place_eq_iff hnodup he he').2 hsame

end Represents

/-- A lookup searches the bucket of its hash for the text. -/
theorem lookup?_eq_find? (t : IdentTable) (text : String) (hash : UInt32) :
    t.lookup? text hash =
      ((t.buckets.get hash).find? fun id => t.names[id]? == some text).map (⟨·, text⟩) := by
  have hone : ∀ id, (t.get? id).filter (·.name == text) =
      if t.names[id]? == some text then some ⟨id, text⟩ else none := by
    intro id
    rw [get?]
    cases t.names[id]? with
    | none => rfl
    | some name =>
      by_cases hname : name = text
      · simp [hname]
      · simp [hname]
  rw [lookup?]
  induction t.buckets.get hash with
  | nil => rfl
  | cons id ids ih =>
    rw [List.findSome?_cons, List.find?_cons, hone, ih]
    cases t.names[id]? == some text <;> rfl

/-! ## The whole run -/

/-- What holds of a run of calls, its answers and the table it leaves. -/
structure Interned (calls : List Entry) (answers : List Ident) (t : IdentTable) : Prop where
  /-- A call returns the text it was given. -/
  name_eq : answers.map Ident.name = calls.map Entry.name
  /-- Two calls return the same number exactly when both the text and the hash are equal. -/
  id_eq_iff : ∀ p ∈ calls.zip answers, ∀ q ∈ calls.zip answers,
    p.2.id = q.2.id ↔ p.1.name = q.1.name ∧ p.1.hash = q.1.hash
  get?_eq : ∀ p ∈ calls.zip answers, t.get? p.2.id = some p.2
  get?_eq_none_iff : ∀ id, t.get? id = none ↔ t.size ≤ id
  /-- Whatever is entered later, numbers are not given away again. -/
  keeps : ∀ more id i, t.get? id = some i → (t.internAll more).get? id = some i
  /-- A new pair gets the number behind the reserved ones that its place in the order of the first
  calls tells. -/
  new_eq : ∀ p ∈ calls.zip answers, p.1 ∉ seedPairs →
    ∃ k, p.2.id = 72 + k ∧ (newPairs seedPairs calls)[k]? = some p.1
  size_eq : t.size = 72 + (newPairs seedPairs calls).length
  empty_eq : t.get? 0 = some ⟨0, ""⟩
  keyword_eq : ∀ j k, Keyword.all[j]? = some k → t.get? (1 + j) = some ⟨1 + j, k.spelling⟩
  operator_eq : ∀ j m, Mark.operators[j]? = some m → t.get? (67 + j) = some ⟨67 + j, m.spelling⟩
  lookup?_eq : ∀ p ∈ calls.zip answers, t.lookup? p.1.name p.1.hash = some p.2
  /-- A lookup finds the pairs that were entered and the reserved texts under their own hash. -/
  lookup?_isSome_iff : ∀ text hash, (t.lookup? text hash).isSome ↔
    ⟨text, hash⟩ ∈ calls ∨ text ∈ seeds ∧ hash = IdentHash.ofText text
  /-- Names and buckets together hold the pairs, each under the number that its place tells. -/
  represents : t.Represents (seedPairs ++ newPairs seedPairs calls)
  /-- A call's number is in the bucket of the call's hash and in no other. -/
  mem_bucket_iff : ∀ p ∈ calls.zip answers, ∀ hash, p.2.id ∈ t.buckets.get hash ↔ p.1.hash = hash
  /-- A number is in one bucket if it is taken, and in none otherwise. -/
  existsUnique_bucket : ∀ id < t.size, ∃! hash, id ∈ t.buckets.get hash
  lt_size_of_mem_bucket : ∀ hash, ∀ id ∈ t.buckets.get hash, id < t.size
  /-- Texts that share a hash are kept apart, and a lookup searches them for its text. -/
  nodup_bucket : ∀ hash, ((t.buckets.get hash).map fun id => t.names[id]?).Nodup
  lookup?_eq_find? : ∀ text hash, t.lookup? text hash =
    ((t.buckets.get hash).find? fun id => t.names[id]? == some text).map (⟨·, text⟩)
  /-- If every call gives the hash of the text, numbers and texts correspond. -/
  corresponds : (∀ e ∈ calls, e.hash = IdentHash.ofText e.name) →
    ∀ i, t.get? i.id = some i ↔ t.lookup? i.name (IdentHash.ofText i.name) = some i

/-- What is found in two lists, and not in the first one, stands in the second one. -/
theorem exists_of_getElem?_append {as bs : List Entry} {n : Nat} {e : Entry}
    (h : (as ++ bs)[n]? = some e) (hnot : e ∉ as) : ∃ k, n = as.length + k ∧ bs[k]? = some e := by
  have hle : as.length ≤ n := by
    apply Nat.le_of_not_lt
    intro hlt
    rw [List.getElem?_append_left hlt] at h
    exact hnot (List.mem_of_getElem? h)
  refine ⟨n - as.length, by omega, ?_⟩
  rwa [List.getElem?_append_right hle] at h

/-- For every run of calls on the fresh table, with whatever hashes. A lookup is a function of the
table and leaves it as it is. -/
theorem interned_internAll (calls : List Entry) :
    Interned calls (fresh.answers calls) (fresh.internAll calls) := by
  have hpairs := represents_fresh.internAll calls
  have hnodup := nodup_append_newPairs nodup_seedPairs calls
  have hgrows := extends_internAll fresh calls
  have hanswers := represents_fresh.getElem?_answers calls
  refine
    { name_eq := names_answers fresh calls
      id_eq_iff := ?_
      get?_eq := ?_
      get?_eq_none_iff := get?_eq_none_iff _
      keeps := fun more id i => (extends_internAll _ more).get?
      new_eq := ?_
      size_eq := ?_
      empty_eq := hgrows.get?_seed rfl
      keyword_eq := fun j k h => hgrows.get?_seed (getElem?_seeds_keyword h)
      operator_eq := fun j m h => hgrows.get?_seed (getElem?_seeds_mark h)
      lookup?_eq := ?_
      lookup?_isSome_iff := ?_
      represents := hpairs
      mem_bucket_iff := ?_
      existsUnique_bucket := fun id => hpairs.existsUnique_bucket
      lt_size_of_mem_bucket := fun hash id => hpairs.lt_size_of_mem_bucket
      nodup_bucket := hpairs.nodup_bucket hnodup
      lookup?_eq_find? := lookup?_eq_find? _
      corresponds := ?_ }
  · rintro ⟨⟨text, hash⟩, i⟩ hp ⟨⟨text', hash'⟩, j⟩ hq
    rw [Represents.place_eq_iff hnodup (hanswers _ hp).2 (hanswers _ hq).2, Entry.mk.injEq]
  · rintro ⟨e, i⟩ hp
    obtain ⟨hname, hi⟩ := hanswers _ hp
    rw [hpairs.get?_eq, hi, Option.map_some, ← hname]
  · rintro ⟨e, i⟩ hp hnew
    exact exists_of_getElem?_append (hanswers _ hp).2 hnew
  · rw [hpairs.size_eq, List.length_append]
    rfl
  · rintro ⟨e, i⟩ hp
    obtain ⟨hname, hi⟩ := hanswers _ hp
    rw [hpairs.lookup?_of_getElem? hnodup hi, ← hname]
  · intro text hash
    rw [← Option.ne_none_iff_isSome, Ne, hpairs.lookup?_eq_none_iff, not_not]
    exact mem_append_newPairs.trans (or_congr_right mem_seedPairs_iff)
  · rintro ⟨e, i⟩ hp hash
    have hi := (hanswers _ hp).2
    rw [hpairs.mem_bucket_iff]
    constructor
    · rintro ⟨e', he', hhash⟩
      rw [← hhash, Option.some.inj (hi.symm.trans he')]
    · exact fun hhash => ⟨e, hi, hhash⟩
  · exact fun hcalls => (sound_fresh.internAll hcalls).get?_iff_lookup?

/-- A keyword and its spelling with an underscore in it share a hash. -/
example :
    IdentHash.ofText "w_hile" = IdentHash.ofText "while" ∧
      (fresh.answers [.own "w_hile", .own "while", ⟨"while", 7⟩, .own "w_hile"]).map Ident.id =
        [72, 64, 73, 72] := by
  decide +kernel

end IdentTable
end Lexeme
