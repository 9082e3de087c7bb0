import Lexeme.Proofs.Layout.Route

/-!
# Blanks without their layout

Leave out the spaces counted and the indentation measured, and blanks are a place they lead to
and the diagnostics on the way. Then measuring an indentation makes no difference: whoever starts
over at the beginning of the line gets to the same place. So `Blank.Leads` goes plainly from one
line to the next, and it tells where a scan gets to, whatever has been counted before.
-/

set_option autoImplicit false

namespace Lexeme

theorem leadingSpaces_cons_space (rest : List UInt8) :
    leadingSpaces (Byte.space :: rest) = leadingSpaces rest + 1 := by
  simp [leadingSpaces]

theorem leadingSpaces_cons_of_ne {b : UInt8} (h : b ≠ Byte.space) (rest : List UInt8) :
    leadingSpaces (b :: rest) = 0 := by
  simp [leadingSpaces, h]

theorem Finding.shift_zero : Finding.shift 0 = id := by
  funext f
  rw [Finding.shift, Nat.zero_add]
  rfl

namespace BlankRun

/-- Runs that differ only in their counts of spaces, the second one seen from `n` bytes further
right. -/
structure Alike (n : Nat) (r r' : BlankRun) : Prop where
  length_eq : r.length = n + r'.length
  ending_eq : r.ending = r'.ending
  findings_eq : r.findings = r'.findings.map (Finding.shift n)

theorem alike_scan (options : Options) (n offset spaces spaces' : Nat) (line : List UInt8) :
    Alike n (scan options (n + offset) spaces line) (scan options offset spaces' line) := by
  induction line generalizing offset spaces spaces' with
  | nil => exact ⟨rfl, rfl, rfl⟩
  | cons b rest ih =>
    rw [scan, scan]
    split
    · exact ih (offset + 1) _ _
    · split
      · obtain ⟨hlen, hend, hfind⟩ := ih (offset + 1) spaces spaces'
        dsimp only
        split
        · exact ⟨hlen, hend, hfind⟩
        · exact ⟨hlen, hend, congrArg (_ :: ·) hfind⟩
      · split
        · split
          · refine ⟨?_, rfl, rfl⟩
            simp only [Nat.add_assoc]
          · exact ⟨rfl, rfl, rfl⟩
        · exact ⟨rfl, rfl, rfl⟩

/-- Spaces may be passed before a run starts. -/
theorem alike_leadingSpaces (options : Options) (offset spaces : Nat) (line : List UInt8) :
    Alike (offset + leadingSpaces line) (scan options offset spaces line)
      (scan options 0 0 (line.drop (leadingSpaces line))) := by
  induction line generalizing offset spaces with
  | nil => exact ⟨rfl, rfl, rfl⟩
  | cons b rest ih =>
    by_cases hb : b = Byte.space
    · subst hb
      have hrest := ih (offset + 1) (min (spaces + 1) Token.maxSpaces)
      rw [Nat.add_assoc, Nat.add_comm 1] at hrest
      rw [leadingSpaces_cons_space, List.drop_succ_cons, scan, if_pos (by rfl)]
      exact hrest
    · rw [leadingSpaces_cons_of_ne hb]
      exact alike_scan options offset 0 spaces 0 (b :: rest)

/-- Where a token starts there is nothing to pass. -/
theorem scan_of_startsToken {options : Options} {line : List UInt8}
    (h : Indentation.startsToken options line = true) (offset spaces : Nat) :
    scan options offset spaces line = ⟨offset, spaces, .token, []⟩ := by
  cases line with
  | nil => cases h
  | cons b rest =>
    simp only [Indentation.startsToken, Comment.isVisible, Bool.and_eq_true, decide_eq_true_eq,
      List.head?_cons, Bool.or_eq_true] at h
    obtain ⟨hvisible, hhash⟩ := h
    have hspace : b ≠ Byte.space := by
      rintro rfl
      exact absurd hvisible (by decide)
    have htab : b ≠ Byte.tab := by
      rintro rfl
      exact absurd hvisible (by decide)
    rw [scan, if_neg (by simpa using hspace), if_neg (by simpa using htab)]
    split
    · rename_i hb
      obtain rfl := beq_iff_eq.1 hb
      have hend : endingAtHash options.retainComments rest = .token := by
        rcases hhash with (hne | hdoc) | hretain
        · simp at hne
        · unfold Comment.isDocumentation at hdoc
          split at hdoc
          · rename_i heq
            obtain ⟨-, rfl⟩ := List.cons.inj heq
            rfl
          · cases hdoc
        · rw [hretain]
          cases rest with
          | nil => rfl
          | cons c rest => rw [endingAtHash, Bool.or_true, if_pos rfl]
      rw [hend]
    · rfl

end BlankRun

namespace Cursor

variable {σ : Type}

theorem locate_shift (c : Cursor σ) (n : Nat) (f : Finding) :
    c.locate (f.shift n) = (c.advance n).locate f := by
  simp only [locate, positionAt, Finding.shift, advance, Nat.add_assoc]

theorem map_locate_shift (c : Cursor σ) (n : Nat) (findings : List Finding) :
    (findings.map (Finding.shift n)).map c.locate = findings.map (c.advance n).locate := by
  rw [List.map_map]
  exact List.map_congr_left fun f _ => locate_shift c n f

variable [LineSource σ]

theorem offset_advance (c : Cursor σ) (n : Nat) : (c.advance n).offset = c.offset + n :=
  (Nat.add_assoc _ _ _).symm

/-- Behind some bytes of the line, the last of them stands in front. -/
theorem before?_advance (c : Cursor σ) {n : Nat} (hn : 0 < n) :
    (c.advance n).before? = c.rest[n - 1]? := by
  have hcolumn : (c.advance n).column = c.column + n := rfl
  have hplace : c.column + n - 1 = c.column + (n - 1) := by omega
  rw [before?, if_neg (by omega), hcolumn, hplace, rest, List.getElem?_drop]
  rfl

theorem rest_lineEnd (c : Cursor σ) : c.lineEnd.rest = [] := by
  rw [lineEnd, rest_advance, List.drop_length]

theorem lineEnd_advance {c : Cursor σ} {n : Nat} (hn : n ≤ c.rest.length) :
    (c.advance n).lineEnd = c.lineEnd := by
  rw [lineEnd, lineEnd, advance_advance, rest_advance, List.length_drop, Nat.add_sub_cancel' hn]

theorem lengthHint_advance {c : Cursor σ} {n : Nat} (hn : n ≤ c.rest.length) (limit : Nat) :
    (c.advance n).lengthHint limit = c.lengthHint limit := by
  rw [lengthHint, lengthHint, lineEnd_advance hn]

theorem nextLine_advance {c : Cursor σ} (h : c.isLast = false) (n : Nat) :
    (c.advance n).nextLine = c.nextLine := by
  rw [nextLine, nextLine, isLast_advance, if_neg (by simp [h]), if_neg (by simp [h])]
  rfl

end Cursor

namespace Blank

variable {σ : Type} [LineSource σ] {options : Options}

/-- Spaces counted before change nothing but the count. -/
theorem run_eq (options : Options) (spaces : Nat) (c : Cursor σ) :
    (run options spaces c).length = (run options 0 c).length ∧
      (run options spaces c).ending = (run options 0 c).ending ∧
      (run options spaces c).findings = (run options 0 c).findings := by
  have halike : BlankRun.Alike 0 (run options spaces c) (run options 0 c) :=
    BlankRun.alike_scan options 0 0 spaces 0 c.rest
  obtain ⟨hlen, hend, hfind⟩ := halike
  rw [Finding.shift_zero, List.map_id] at hfind
  rw [Nat.zero_add] at hlen
  exact ⟨hlen, hend, hfind⟩

theorem advance_run_of_lineEnd {c : Cursor σ} (h : (run options 0 c).ending = .lineEnd) :
    c.advance (run options 0 c).length = c.lineEnd := by
  have hstop := stopsAt_run options 0 c
  rw [h, Cursor.rest_advance] at hstop
  have hge := List.drop_eq_nil_iff.1 hstop
  rw [Cursor.lineEnd, Nat.le_antisymm (length_run_le options 0 c) hge]

/-- Blanks lead from a cursor to where a token or the end of the input is, with diagnostics on the
way. -/
inductive Leads (options : Options) : Cursor σ → List Diagnostic → Cursor σ → Prop
  | token {c : Cursor σ} (h : (run options 0 c).ending = .token) :
      Leads options c ((run options 0 c).findings.map c.locate)
        (c.advance (run options 0 c).length)
  | last {c : Cursor σ} (h : (run options 0 c).ending = .lineEnd) (hlast : c.isLast = true) :
      Leads options c ((run options 0 c).findings.map c.locate)
        (c.advance (run options 0 c).length)
  | block {c d : Cursor σ} {ds : List Diagnostic} (h : (run options 0 c).ending = .block)
      (hrest : Leads options (block options 0 c).cursor ds d) :
      Leads options c ((run options 0 c).findings.map c.locate ++
        (block options 0 c).diagnostics ++ ds) d
  | line {c d : Cursor σ} {ds : List Diagnostic} (h : (run options 0 c).ending = .lineEnd)
      (hlast : c.isLast = false) (hrest : Leads options c.nextLine ds d) :
      Leads options c ((run options 0 c).findings.map c.locate ++
        c.lengthHint options.maxLineLength ++ ds) d

theorem Leads.unique {c d d' : Cursor σ} {ds ds' : List Diagnostic} (h : Leads options c ds d)
    (h' : Leads options c ds' d') : ds = ds' ∧ d = d' := by
  induction h generalizing ds' d' with
  | token h => cases h' <;> simp_all
  | last h hlast => cases h' <;> simp_all
  | block h _ ih =>
    cases h' with
    | token h' => simp_all
    | last h' => simp_all
    | line h' => simp_all
    | block _ hrest' =>
      obtain ⟨rfl, rfl⟩ := ih hrest'
      exact ⟨rfl, rfl⟩
  | line h hlast _ ih =>
    cases h' with
    | token h' => simp_all
    | last _ hlast' => simp_all
    | block h' => simp_all
    | line _ _ hrest' =>
      obtain ⟨rfl, rfl⟩ := ih hrest'
      exact ⟨rfl, rfl⟩

/-- Behind the leading spaces a run is the same, that many bytes shorter. -/
theorem alike_run_leadingSpaces (options : Options) (c : Cursor σ) :
    BlankRun.Alike (leadingSpaces c.rest) (run options 0 c)
      (run options 0 (c.advance (leadingSpaces c.rest))) := by
  have halike := BlankRun.alike_leadingSpaces options 0 0 c.rest
  rw [Nat.zero_add] at halike
  rw [run, run, Cursor.rest_advance]
  exact halike

theorem advance_run_leadingSpaces (options : Options) (c : Cursor σ) :
    (c.advance (leadingSpaces c.rest)).advance
        (run options 0 (c.advance (leadingSpaces c.rest))).length =
      c.advance (run options 0 c).length := by
  rw [(alike_run_leadingSpaces options c).length_eq, Cursor.advance_advance]

theorem block_leadingSpaces (options : Options) (c : Cursor σ) :
    block options 0 (c.advance (leadingSpaces c.rest)) = block options 0 c := by
  rw [block, advance_run_leadingSpaces, block]

/-- Leading spaces may be passed first. -/
theorem Leads.of_leadingSpaces {c d : Cursor σ} {ds : List Diagnostic}
    (h : Leads options (c.advance (leadingSpaces c.rest)) ds d) : Leads options c ds d := by
  have hle := leadingSpaces_le c.rest
  have hrun := alike_run_leadingSpaces options c
  have hcursor := advance_run_leadingSpaces options c
  have hfound : (run options 0 c).findings.map c.locate =
      (run options 0 (c.advance (leadingSpaces c.rest))).findings.map
        (c.advance (leadingSpaces c.rest)).locate := by
    rw [hrun.findings_eq, Cursor.map_locate_shift]
  cases h with
  | token h =>
    rw [← hfound, hcursor]
    exact .token (hrun.ending_eq.trans h)
  | last h hlast =>
    rw [← hfound, hcursor]
    exact .last (hrun.ending_eq.trans h) hlast
  | block h hrest =>
    rw [block_leadingSpaces] at hrest ⊢
    rw [← hfound]
    exact .block (hrun.ending_eq.trans h) hrest
  | line h hlast hrest =>
    rw [← hfound, Cursor.lengthHint_advance hle]
    rw [Cursor.nextLine_advance (c := c) hlast] at hrest
    exact .line (hrun.ending_eq.trans h) hlast hrest

/-- At the opener of a block comment that is discarded there is nothing to pass. -/
theorem run_of_opener {c : Cursor σ} (hopener : BlockForm.ordinary.opener <+: c.rest)
    (hretain : options.retainComments = false) (spaces : Nat) :
    run options spaces c = ⟨0, spaces, .block, []⟩ := by
  obtain ⟨rest, hrest⟩ := hopener
  rw [run, ← hrest]
  simp only [BlockForm.opener, List.cons_append, List.nil_append, BlankRun.scan,
    BlankRun.endingAtHash, hretain]
  rfl

theorem block_of_opener {c : Cursor σ} (hopener : BlockForm.ordinary.opener <+: c.rest)
    (hretain : options.retainComments = false) (spaces : Nat) :
    block options spaces c = BlockComment.ordinary options.maxLineLength (c.advance 2) := by
  rw [block, run_of_opener hopener hretain]
  rfl

/-- A discarded block comment may be passed first. -/
theorem Leads.opener {c d : Cursor σ} {ds : List Diagnostic}
    (hopener : BlockForm.ordinary.opener <+: c.rest) (hretain : options.retainComments = false)
    (h : Leads options (BlockComment.ordinary options.maxLineLength (c.advance 2)).cursor ds d) :
    Leads options c
      ((BlockComment.ordinary options.maxLineLength (c.advance 2)).diagnostics ++ ds) d := by
  have hrun := run_of_opener hopener hretain 0
  have hblock := block_of_opener hopener hretain 0
  have hleads := Leads.block (c := c) (by rw [hrun]) (hblock.symm ▸ h)
  rw [hblock, hrun] at hleads
  exact hleads

/-- An indentation may be passed first. -/
theorem Leads.of_indentation (width : Nat) {c d : Cursor σ} {ds : List Diagnostic}
    (h : Leads options (Indentation.scan options width c).cursor ds d) :
    Leads options c ((Indentation.scan options width c).diagnostics ++ ds) d := by
  fun_induction Indentation.scan options width c with
  | case1 width c spaces start hopen block more ih =>
    have hretain : options.retainComments = false := by simpa using hopen.2
    have hstart := Leads.opener (List.isPrefixOf_iff_prefix.1 hopen.1) hretain (ih h)
    rw [List.append_assoc]
    exact hstart.of_leadingSpaces
  | case2 width c spaces start hopen => exact h.of_leadingSpaces

/-- Where a token starts, nothing is passed. -/
theorem Leads.here {c : Cursor σ} (h : Indentation.startsToken options c.rest = true) :
    Leads options c [] c := by
  have hrun : run options 0 c = ⟨0, 0, .token, []⟩ := BlankRun.scan_of_startsToken h 0 0
  have hleads := Leads.token (c := c) (by rw [hrun])
  rw [hrun] at hleads
  exact hleads

/-- A scan gets to where the blanks lead, whatever was counted in front. -/
theorem leads_scan (options : Options) (spaces : Nat) (c : Cursor σ) :
    Leads options c (scan options spaces c).diagnostics (scan options spaces c).cursor := by
  induction spaces, c using scanCases (σ := σ) options with
  | token spaces c h =>
    obtain ⟨hlen, hend, hfind⟩ := run_eq options spaces c
    rw [scan_of_token h, hlen, hfind]
    exact .token (hend ▸ h)
  | last spaces c h hlast =>
    obtain ⟨hlen, hend, hfind⟩ := run_eq options spaces c
    rw [scan_of_isLast h hlast, hlen, hfind]
    exact .last (hend ▸ h) hlast
  | start spaces c h hlast hstart =>
    obtain ⟨-, hend, hfind⟩ := run_eq options spaces c
    have hahead := (Leads.here hstart).of_indentation 0
    rw [List.append_nil] at hahead
    rw [scan_of_lineEnd h hlast, if_pos hstart, hfind]
    exact .line (hend ▸ h) hlast hahead
  | comment spaces c h ih =>
    obtain ⟨hlen, hend, hfind⟩ := run_eq options spaces c
    have hblock : Blank.block options spaces c = Blank.block options 0 c := by
      rw [Blank.block, hlen, Blank.block]
    rw [scan_of_block h, hblock, hfind]
    rw [hblock] at ih
    exact .block (hend ▸ h) ih
  | line spaces c h hlast hstart ih =>
    obtain ⟨-, hend, hfind⟩ := run_eq options spaces c
    rw [scan_of_lineEnd h hlast, if_neg (by simp [hstart]), hfind]
    have hline := Leads.line (hend ▸ h) hlast (ih.of_indentation 0)
    rw [← List.append_assoc] at hline
    exact hline

end Blank

/-! ## Messages -/

/-- Whether a message is about what stands between tokens or about the length of a line. -/
def Message.isLayout : Message → Bool
  | .unterminatedComment | .tabsNotAllowed | .lineTooLong => true
  | _ => false

namespace Diagnostic

/-- The diagnostics with a message. -/
def about (message : Message) (ds : List Diagnostic) : List Diagnostic :=
  ds.filter fun d => d.message = message

theorem about_append (message : Message) (ds ds' : List Diagnostic) :
    about message (ds ++ ds') = about message ds ++ about message ds' :=
  List.filter_append ..

theorem about_eq_nil {message : Message} {ds : List Diagnostic}
    (h : ∀ d ∈ ds, d.message ≠ message) : about message ds = [] :=
  List.filter_eq_nil_iff.2 fun d hd hmessage => h d hd (of_decide_eq_true hmessage)

/-- Messages of a class say nothing of one outside. -/
theorem about_eq_nil_of_class {p : Message → Bool} {message : Message} {ds : List Diagnostic}
    (hm : p message = false) (h : ∀ d ∈ ds, p d.message = true) : about message ds = [] := by
  refine about_eq_nil fun d hd hmessage => ?_
  have hd := h d hd
  rw [hmessage, hm] at hd
  cases hd

end Diagnostic

/-- Tabs are all that a run of blanks complains about. -/
theorem BlankRun.message_scan (options : Options) (offset spaces : Nat) (line : List UInt8) :
    ∀ f ∈ (scan options offset spaces line).findings, f.message = .tabsNotAllowed := by
  fun_induction scan options offset spaces line with
  | case1 offset spaces => exact List.forall_mem_nil _
  | case2 offset spaces b rest hb ih => exact ih
  | case3 offset spaces b rest hb ht run hallow ih => exact ih
  | case4 offset spaces b rest hb ht run hallow ih => exact List.forall_mem_cons.2 ⟨rfl, ih⟩
  | case5 offset spaces b rest hb ht hh hend => exact List.forall_mem_nil _
  | case6 offset spaces b rest hb ht hh hend => exact List.forall_mem_nil _
  | case7 offset spaces b rest hb ht hh => exact List.forall_mem_nil _

section Messages

variable {σ : Type} [LineSource σ]

theorem Cursor.message_lengthHint (limit : Nat) (c : Cursor σ) :
    ∀ d ∈ c.lengthHint limit, d.message = .lineTooLong := by
  rw [lengthHint]
  split
  · exact List.forall_mem_singleton.2 rfl
  · exact List.forall_mem_nil _

theorem Cursor.isLayout_lengthHint (limit : Nat) (c : Cursor σ) :
    ∀ d ∈ c.lengthHint limit, d.message.isLayout = true := by
  intro d hd
  rw [c.message_lengthHint limit d hd]
  rfl

theorem BlockComment.isLayout_scan (form : BlockForm) (limit strip : Nat) (depth : UInt32)
    (c : Cursor σ) :
    ∀ d ∈ (scan form limit strip depth c).diagnostics, d.message.isLayout = true := by
  fun_induction scan form limit strip depth c with
  | case1 depth c l hd => exact List.forall_mem_nil _
  | case2 depth c l depth' hd hlast => exact List.forall_mem_singleton.2 rfl
  | case3 depth c l depth' hd hlast more ih =>
    exact List.forall_mem_append.2 ⟨c.isLayout_lengthHint limit, ih⟩

theorem BlockComment.isLayout_documentation (limit : Nat) (c : Cursor σ) :
    ∀ d ∈ (documentation limit c).diagnostics, d.message.isLayout = true := by
  unfold documentation
  dsimp only
  split
  · exact List.forall_mem_append.2 ⟨c.isLayout_lengthHint limit, isLayout_scan _ _ _ _ _⟩
  · exact isLayout_scan _ _ _ _ _

theorem Comment.isLayout_documentationLines (limit strip : Nat) (c : Cursor σ) :
    ∀ d ∈ (documentationLines limit strip c).diagnostics, d.message.isLayout = true := by
  fun_induction documentationLines limit strip c with
  | case1 c hlast => exact List.forall_mem_nil _
  | case2 c hlast indent next hdoc more ih =>
    exact List.forall_mem_append.2 ⟨c.isLayout_lengthHint limit, ih⟩
  | case3 c hlast indent next hdoc => exact c.isLayout_lengthHint limit

theorem Comment.isLayout_scan (limit : Nat) (c : Cursor σ) :
    ∀ d ∈ (scan limit c).diagnostics, d.message.isLayout = true := by
  unfold scan
  split
  · exact BlockComment.isLayout_documentation limit _
  · split
    · exact isLayout_documentationLines limit _ _
    · split
      · exact BlockComment.isLayout_scan _ limit _ _ _
      · exact List.forall_mem_nil _

theorem Blank.Leads.isLayout {options : Options} {c d : Cursor σ} {ds : List Diagnostic}
    (h : Leads options c ds d) : ∀ e ∈ ds, e.message.isLayout = true := by
  have hfound : ∀ c : Cursor σ, ∀ e ∈ (run options 0 c).findings.map c.locate,
      e.message.isLayout = true := by
    intro c
    refine List.forall_mem_map.2 fun f hf => ?_
    change f.message.isLayout = true
    rw [BlankRun.message_scan options 0 0 c.rest f hf]
    rfl
  induction h with
  | @token c _ => exact hfound c
  | @last c _ _ => exact hfound c
  | @block c d ds _ _ ih =>
    have hblock := BlockComment.isLayout_scan .ordinary options.maxLineLength 0 0
      ((c.advance (run options 0 c).length).advance 2)
    exact List.forall_mem_append.2 ⟨List.forall_mem_append.2 ⟨hfound c, hblock⟩, ih⟩
  | @line c d ds _ _ _ ih =>
    have hhint := c.isLayout_lengthHint options.maxLineLength
    exact List.forall_mem_append.2 ⟨List.forall_mem_append.2 ⟨hfound c, hhint⟩, ih⟩

end Messages
end Lexeme
