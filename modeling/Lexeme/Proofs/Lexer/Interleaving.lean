import Lexeme.Proofs.Lexer.Naming
import Lexeme.Proofs.Lexer.WindowIndependence
import Lexeme.Lexer.Family

/-!
# Lexers that share a table do not disturb each other

Whatever the order in which lexers take their turns on one table, each of them shows what it shows
alone on a fresh table, up to the numbers of identifiers. The numbers are as good as the names:
over all tokens they agree exactly where the names do.
-/

set_option autoImplicit false

namespace Lexeme

open IdentTable

def Observation.unnumbered (o : Observation) : Observation := { o with token := o.token.unnumbered }

namespace Lexer

variable {σ : Type} [LineSource σ] (l : Lexer σ)

theorem unnumbered_observation_next {t : IdentTable} (h : fresh.Extends t) :
    (l.next t).observation.unnumbered = (l.next fresh).observation.unnumbered := by
  obtain ⟨hlexer, hdiags⟩ := l.next_table t fresh
  have htoken := l.unnumbered_next h
  rw [LexerStep.observation, LexerStep.observation, hlexer, hdiags, Observation.unnumbered,
    Observation.unnumbered, htoken]

/-- The lexer that a run leads to does not depend on the table. -/
theorem after_table (t t' : IdentTable) (k : Nat) : (l.after t k).1 = (l.after t' k).1 := by
  induction k with
  | zero => rfl
  | succ k ih =>
    rw [after_succ, after_succ, call, call, ih]
    exact (next_table _ _ _).1

theorem sound_after (k : Nat) : (l.after fresh k).2.Sound := by
  induction k with
  | zero => exact sound_fresh
  | succ k ih => exact (enters_next _ ih).sound

/-- What a lexer shows of a call when it runs alone, numbers of identifiers apart. -/
def shows (k : Nat) : Observation := (l.call fresh k).observation.unnumbered

theorem shows_eq (k : Nat) :
    l.shows k = ((l.after fresh k).1.next fresh).observation.unnumbered :=
  unnumbered_observation_next _ (l.sound_after k).reserved

theorem after_succ_first (t : IdentTable) (k : Nat) :
    l.after t (k + 1) = (l.next t).lexer.after (l.next t).table k := by
  induction k with
  | zero => rfl
  | succ k ih =>
    rw [after_succ, call, ih]
    rfl

theorem shows_zero {t : IdentTable} (h : fresh.Extends t) :
    l.shows 0 = (l.next t).observation.unnumbered :=
  (l.unnumbered_observation_next h).symm

theorem shows_succ (t : IdentTable) (k : Nat) : l.shows (k + 1) = (l.next t).lexer.shows k := by
  rw [shows_eq, shows_eq, after_succ_first, (l.next_table fresh t).1, after_table]

end Lexer

namespace LexerFamily

variable {σ : Type} [LineSource σ]

/-- The steps of a run, each with the number of the member whose turn it was. -/
def turns (f : LexerFamily σ) (schedule : List Nat) : List (Nat × LexerStep σ) :=
  (schedule.filter (· < f.members.length)).zip (f.run schedule).1

/-- The identifiers of the tokens of a run. -/
def idents (f : LexerFamily σ) (schedule : List Nat) : List Ident :=
  (f.run schedule).1.flatMap fun step => step.token.ident.toList

section Turn

variable {f : LexerFamily σ} {member : Nat}

/-- The family after the turn of a member. -/
def afterTurn (f : LexerFamily σ) (member : Nat) (l : Lexer σ) : LexerFamily σ :=
  ⟨f.members.set member (l.next f.table).lexer, (l.next f.table).table⟩

theorem run_of_some {l : Lexer σ} (h : f.members[member]? = some l) (schedule : List Nat) :
    f.run (member :: schedule) =
      (l.next f.table :: ((f.afterTurn member l).run schedule).1,
        ((f.afterTurn member l).run schedule).2) := by
  rw [run, next?, h]
  rfl

theorem run_of_none (h : f.members[member]? = none) (schedule : List Nat) :
    f.run (member :: schedule) = f.run schedule := by
  rw [run, next?, h]
  rfl

theorem turns_of_some {l : Lexer σ} (h : f.members[member]? = some l) (schedule : List Nat) :
    f.turns (member :: schedule) =
      (member, l.next f.table) :: (f.afterTurn member l).turns schedule := by
  have hlt : member < f.members.length := (List.getElem?_eq_some_iff.1 h).1
  rw [turns, run_of_some h, List.filter_cons_of_pos (by simpa using hlt), turns, afterTurn,
    List.length_set]
  rfl

theorem turns_of_none (h : f.members[member]? = none) (schedule : List Nat) :
    f.turns (member :: schedule) = f.turns schedule := by
  have hge : f.members.length ≤ member := List.getElem?_eq_none_iff.1 h
  rw [turns, run_of_none h, List.filter_cons_of_neg (by simpa using hge), turns]

end Turn

/-- Every member shows what it shows alone. -/
theorem observations_turns (schedule : List Nat) {f : LexerFamily σ} {i : Nat} {l : Lexer σ}
    (hl : f.members[i]? = some l) (hf : f.table.Sound) :
    ((f.turns schedule).filter (·.1 == i)).map (·.2.observation.unnumbered) =
      (List.range (schedule.count i)).map l.shows := by
  induction schedule generalizing f l with
  | nil => rfl
  | cons member schedule ih =>
    cases hmember : f.members[member]? with
    | none =>
      have hne : member ≠ i := by
        rintro rfl
        rw [hl] at hmember
        cases hmember
      rw [turns_of_none hmember, List.count_cons_of_ne hne, ih hl hf]
    | some m =>
      have hstep := m.enters_next hf
      rw [turns_of_some hmember]
      by_cases heq : member = i
      · subst heq
        obtain rfl : l = m := Option.some.inj (hl.symm.trans hmember)
        have hlt : member < f.members.length := (List.getElem?_eq_some_iff.1 hl).1
        have hnext : (f.afterTurn member l).members[member]? = some (l.next f.table).lexer :=
          List.getElem?_set_self hlt
        rw [List.filter_cons_of_pos (by simp), List.map_cons, ih hnext hstep.sound,
          List.count_cons_self, List.range_succ_eq_map, List.map_cons, List.map_map,
          l.shows_zero hf.reserved]
        congr 1
        exact List.map_congr_left fun k _ => (l.shows_succ f.table k).symm
      · have hsame : (f.afterTurn member m).members[i]? = some l := by
          rw [afterTurn, List.getElem?_set_ne heq, hl]
        rw [List.filter_cons_of_neg (by simpa using heq), ih hsame hstep.sound,
          List.count_cons_of_ne heq]

theorem enters_run (schedule : List Nat) {f : LexerFamily σ} (hf : f.table.Sound) :
    f.table.Enters (f.idents schedule) (f.run schedule).2.table := by
  induction schedule generalizing f with
  | nil => exact hf.enters_nil
  | cons member schedule ih =>
    cases hmember : f.members[member]? with
    | none =>
      rw [idents, run_of_none hmember]
      exact ih hf
    | some l =>
      have hstep := l.enters_next hf
      have hrest : (f.afterTurn member l).table.Enters ((f.afterTurn member l).idents schedule)
          ((f.afterTurn member l).run schedule).2.table := ih hstep.sound
      rw [idents, run_of_some hmember, List.flatMap_cons]
      exact hstep.append hrest

/-- Lexers on one table, in the order of a schedule, against each of them alone. -/
structure Independent (f : LexerFamily σ) (schedule : List Nat) : Prop where
  /-- A member shows, call by call, what it shows alone on a fresh table. -/
  alone (i : Nat) (l : Lexer σ) : f.members[i]? = some l →
    ((f.turns schedule).filter (·.1 == i)).map (·.2.observation.unnumbered) =
      (List.range (schedule.count i)).map fun k => (l.call fresh k).observation.unnumbered
  id_eq_iff : ∀ i ∈ f.idents schedule, ∀ j ∈ f.idents schedule, i.id = j.id ↔ i.name = j.name
  get?_eq : ∀ i ∈ f.idents schedule, (f.run schedule).2.table.get? i.id = some i
  size_eq : (f.run schedule).2.table.size =
    72 + (((f.idents schedule).map Ident.name).toFinset \ seeds.toFinset).card

theorem independent_of_fresh (members : List (Lexer σ)) (schedule : List Nat) :
    (LexerFamily.mk members fresh).Independent schedule := by
  have henters : fresh.Enters ((LexerFamily.mk members fresh).idents schedule)
      ((LexerFamily.mk members fresh).run schedule).2.table :=
    enters_run (f := ⟨members, fresh⟩) schedule sound_fresh
  constructor
  · intro i l hl
    exact observations_turns schedule hl sound_fresh
  · intro i hi j hj
    exact henters.id_eq_iff hi hj
  · exact henters.get?_eq
  · exact henters.size_eq

/-- A source to be opened. -/
structure Source where
  file : FileId
  stream : ByteStream
  options : Options

theorem exists_mapM_open? (sources : List Source) (h : ∀ s ∈ sources, 0 < s.options.bufferSize) :
    ∃ members, sources.mapM (fun s => Lexer.open? s.file s.stream s.options) = .ok members := by
  induction sources with
  | nil => exact ⟨[], rfl⟩
  | cons s sources ih =>
    obtain ⟨hs, hrest⟩ := List.forall_mem_cons.1 h
    obtain ⟨members, hmembers⟩ := ih hrest
    obtain ⟨l, hl⟩ : ∃ l, Lexer.open? s.file s.stream s.options = .ok l :=
      ⟨_, Lexer.open?_eq_ok s.file s.stream s.options hs⟩
    refine ⟨l :: members, ?_⟩
    rw [List.mapM_cons, hl, hmembers]
    rfl

/-- However many sources are opened on one fresh table, and in whatever order their lexers are
called, each lexer shows what it shows alone, up to the numbers of identifiers; and these numbers
tell identifiers apart just as the names do. -/
theorem mapM_open?_independent (sources : List Source)
    (h : ∀ s ∈ sources, 0 < s.options.bufferSize) :
    ∃ members, sources.mapM (fun s => Lexer.open? s.file s.stream s.options) = .ok members ∧
      ∀ schedule, (LexerFamily.mk members fresh).Independent schedule := by
  obtain ⟨members, hmembers⟩ := exists_mapM_open? sources h
  exact ⟨members, hmembers, independent_of_fresh members⟩

/-- Two sources with a keyword, a word in common in two spellings, and bytes that are no text. -/
def sharedWords : List Source :=
  [⟨⟨0⟩, .ofBytes (Utf8.encode "if fooBar + a_b"), .withWindow {} 1⟩,
    ⟨⟨1⟩, ⟨[.chunk 102 [111, 111, 98], .interruption], .failed [97, 114, 32, 255, 42, 58]⟩, {}⟩]

theorem mapM_open?_independent_sharedWords :
    (∀ s ∈ sharedWords, 0 < s.options.bufferSize) ∧
      ∃ members,
        sharedWords.mapM (fun s => Lexer.open? s.file s.stream s.options) = .ok members ∧
          ∀ schedule, (LexerFamily.mk members fresh).Independent schedule :=
  ⟨by decide, mapM_open?_independent sharedWords (by decide)⟩

end LexerFamily
end Lexeme
