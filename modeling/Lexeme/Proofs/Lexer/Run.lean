import Lexeme.Proofs.Lexer.Transport

/-!
# Runs of a lexer

A run is a number of calls of `next`, each on the lexer that the one before it left; the table is
the one it left, or any where several lexers share one.
What a caller sees of a call is its token, its diagnostics and what the lexer tells of its state
afterwards. It depends neither on how the source is held nor on the window size in the options.
-/

set_option autoImplicit false

namespace Lexeme

namespace Lexer

variable {σ : Type} [LineSource σ]

/-- The lexer and the table after a number of calls. -/
def after (l : Lexer σ) (table : IdentTable) : Nat → Lexer σ × IdentTable
  | 0 => (l, table)
  | k + 1 =>
    let step := (l.after table k).1.next (l.after table k).2
    (step.lexer, step.table)

/-- The call behind the first `k` ones. -/
def call (l : Lexer σ) (table : IdentTable) (k : Nat) : LexerStep σ :=
  (l.after table k).1.next (l.after table k).2

theorem after_succ (l : Lexer σ) (table : IdentTable) (k : Nat) :
    l.after table (k + 1) = ((l.call table k).lexer, (l.call table k).table) := rfl

/-- Behind the first call, a run is that of the lexer the call left. -/
theorem call_succ (l : Lexer σ) (table : IdentTable) (k : Nat) :
    l.call table (k + 1) = (l.next table).lexer.call (l.next table).table k := by
  have hafter : l.after table (k + 1) = (l.next table).lexer.after (l.next table).table k := by
    induction k with
    | zero => rfl
    | succ k ih =>
      rw [after_succ, call, ih]
      rfl
  rw [call, hafter]
  rfl

/-- The lexer after a number of calls, each with any table: others may have entered identifiers
in between. -/
def reached (l : Lexer σ) (tables : Nat → IdentTable) : Nat → Lexer σ
  | 0 => l
  | k + 1 => ((l.reached tables k).next (tables k)).lexer

def turn (l : Lexer σ) (tables : Nat → IdentTable) (k : Nat) : LexerStep σ :=
  (l.reached tables k).next (tables k)

theorem options_reached (l : Lexer σ) (tables : Nat → IdentTable) (k : Nat) :
    (l.reached tables k).options = l.options := by
  induction k with
  | zero => rfl
  | succ k ih => exact ih

/-- What a lexer tells of its state. -/
structure Outlook where
  position : Position
  lineText : String
  markedText : String
  pendingIndent : Option Nat
  lineIndent : Nat
deriving DecidableEq, Repr

def outlook (l : Lexer σ) : Outlook :=
  ⟨l.position, l.lineText false, l.lineText true, l.pendingIndent, l.lineIndent⟩

end Lexer

/-- What a caller sees of a call. -/
structure Observation where
  token : Token
  diagnostics : List Diagnostic
  outlook : Lexer.Outlook
deriving DecidableEq, Repr

def LexerStep.observation {σ : Type} [LineSource σ] (step : LexerStep σ) : Observation :=
  ⟨step.token, step.diagnostics, step.lexer.outlook⟩

/-! ## Sources that read alike -/

section Transport

variable {σ τ : Type} [LineSource σ] [LineSource τ] (f : LineSource.Hom σ τ)

@[simp] theorem Lexer.outlook_map (l : Lexer σ) : (l.map f).outlook = l.outlook := by
  simp only [outlook, lineText_map]
  rfl

@[simp] theorem LexerStep.observation_map (step : LexerStep σ) :
    (step.map f).observation = step.observation := by
  simp only [observation, map, Lexer.outlook_map]

theorem Lexer.after_map (l : Lexer σ) (table : IdentTable) (k : Nat) :
    (l.map f).after table k = ((l.after table k).1.map f, (l.after table k).2) := by
  induction k with
  | zero => rfl
  | succ k ih =>
    rw [after_succ, call, ih, next_map]
    rfl

theorem Lexer.call_map (l : Lexer σ) (table : IdentTable) (k : Nat) :
    (l.map f).call table k = (l.call table k).map f := by
  rw [call, after_map, next_map]
  rfl

theorem Lexer.reached_map (l : Lexer σ) (tables : Nat → IdentTable) (k : Nat) :
    (l.map f).reached tables k = (l.reached tables k).map f := by
  induction k with
  | zero => rfl
  | succ k ih =>
    rw [reached, ih, next_map]
    rfl

theorem Lexer.turn_map (l : Lexer σ) (tables : Nat → IdentTable) (k : Nat) :
    (l.map f).turn tables k = (l.turn tables k).map f := by
  rw [turn, reached_map, next_map]
  rfl

end Transport

/-! ## The window size -/

def Options.withWindow (options : Options) (size : Nat) : Options :=
  { options with bufferSize := size }

section WindowSize

variable {σ : Type} [LineSource σ] (options : Options) (size : Nat)

theorem BlankRun.scan_withWindow (offset spaces : Nat) (line : List UInt8) :
    scan (options.withWindow size) offset spaces line = scan options offset spaces line := by
  induction line generalizing offset spaces with
  | nil => rfl
  | cons b rest ih =>
    simp only [scan, ih]
    rfl

theorem Indentation.scan_withWindow (width : Nat) (c : Cursor σ) :
    scan (options.withWindow size) width c = scan options width c := by
  fun_induction scan options width c with
  | case1 width c spaces start h block more ih =>
    rw [scan]
    refine (dif_pos h).trans ?_
    exact congrArg (fun more : Indentation σ =>
      { more with diagnostics := block.diagnostics ++ more.diagnostics }) ih
  | case2 width c spaces start h =>
    rw [scan]
    exact dif_neg h

theorem Blank.scan_withWindow (spaces : Nat) (c : Cursor σ) :
    scan (options.withWindow size) spaces c = scan options spaces c := by
  have hrun : ∀ spaces (c : Cursor σ),
      run (options.withWindow size) spaces c = run options spaces c :=
    fun spaces c => BlankRun.scan_withWindow options size 0 spaces c.rest
  have hahead : ∀ c : Cursor σ, ahead (options.withWindow size) c = ahead options c :=
    fun c => Indentation.scan_withWindow options size 0 c.nextLine
  have hblock : ∀ spaces (c : Cursor σ),
      block (options.withWindow size) spaces c = block options spaces c := by
    intro spaces c
    rw [block, hrun]
    rfl
  induction spaces, c using scanCases (σ := σ) options with
  | token spaces c h =>
    rw [scan_of_token h, scan_of_token (by rwa [hrun]), hrun]
  | last spaces c h hlast =>
    rw [scan_of_isLast h hlast, scan_of_isLast (by rwa [hrun]) hlast, hrun]
  | start spaces c h hlast hstart =>
    rw [scan_of_lineEnd h hlast, scan_of_lineEnd (by rwa [hrun]) hlast, hrun, hahead,
      if_pos hstart]
    exact if_pos hstart
  | comment spaces c h ih =>
    rw [scan_of_block h, scan_of_block (by rwa [hrun]), hrun, hblock, ih]
  | line spaces c h hlast hstart ih =>
    rw [scan_of_lineEnd h hlast, scan_of_lineEnd (by rwa [hrun]) hlast, hrun, hahead, ih]
    rfl

def Lexer.withWindow (l : Lexer σ) : Lexer σ := { l with options := l.options.withWindow size }

def LexerStep.withWindow (step : LexerStep σ) : LexerStep σ :=
  { step with lexer := step.lexer.withWindow size }

theorem Lexer.next_withWindow (l : Lexer σ) (table : IdentTable) :
    (l.withWindow size).next table = (l.next table).withWindow size := by
  have hblank : (l.withWindow size).blank = l.blank :=
    Blank.scan_withWindow l.options size 0 l.cursor
  rw [next, hblank]
  rfl

theorem Lexer.after_withWindow (l : Lexer σ) (table : IdentTable) (k : Nat) :
    (l.withWindow size).after table k =
      ((l.after table k).1.withWindow size, (l.after table k).2) := by
  induction k with
  | zero => rfl
  | succ k ih =>
    rw [after_succ, call, ih, next_withWindow]
    rfl

theorem Lexer.call_withWindow (l : Lexer σ) (table : IdentTable) (k : Nat) :
    (l.withWindow size).call table k = (l.call table k).withWindow size := by
  rw [call, after_withWindow, next_withWindow]
  rfl

end WindowSize
end Lexeme
