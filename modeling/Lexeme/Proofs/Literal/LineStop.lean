import Lexeme.Proofs.Literal.FindingView

/-!
# What the end of the line decides about a literal

An escape that breaks off at the end of its line complains about the byte it finds there, a
terminator or none. Nothing else depends on that byte: contents, lengths and the places of
complaints are the same whatever ends the line. So pieces agree once messages are taken without
their arguments.
-/

set_option autoImplicit false

namespace Lexeme

/-- Which complaint a message is, without its arguments. -/
def Message.bare : Message → Message
  | invalidNumber _ => invalidNumber ""
  | numberOutOfRange _ => numberOutOfRange ""
  | deprecatedOctalPrefix _ => deprecatedOctalPrefix ""
  | invalidOctalPrefix _ => invalidOctalPrefix ""
  | invalidToken _ _ => invalidToken ' ' 0
  | escapeNotAllowedInChar _ => escapeNotAllowedInChar ' '
  | expectedHexDigit _ => expectedHexDigit ' '
  | codePointTooLarge _ => codePointTooLarge ""
  | message => message

theorem Message.severity_bare (m : Message) : m.bare.severity = m.severity := by
  cases m <;> rfl

def Finding.bare (f : Finding) : Finding := { f with message := f.message.bare }

/-- Findings without the arguments of their messages. -/
def bareFindings (findings : List Finding) : List Finding := findings.map Finding.bare

theorem bareFindings_append (fs gs : List Finding) :
    bareFindings (fs ++ gs) = bareFindings fs ++ bareFindings gs :=
  List.map_append

theorem bareFindings_shift (n : Nat) (fs : List Finding) :
    bareFindings (fs.map (Finding.shift n)) = (bareFindings fs).map (Finding.shift n) := by
  rw [bareFindings, bareFindings, List.map_map, List.map_map]
  rfl

namespace Escape

def HexDigits.bare (d : HexDigits) : HexDigits := { d with findings := bareFindings d.findings }

theorem HexDigits.bare_cons {d d' : HexDigits} (h : d.bare = d'.bare) {f f' : Finding}
    (hf : f.bare = f'.bare) : (d.cons f).bare = (d'.cons f').bare := by
  obtain ⟨value, stop, findings⟩ := d
  obtain ⟨value', stop', findings'⟩ := d'
  simp only [bare, mk.injEq] at h
  obtain ⟨rfl, rfl, hfindings⟩ := h
  simp only [cons, bare, bareFindings, List.map_cons, hf]
  rw [← bareFindings, hfindings]
  rfl

theorem bare_noHexDigit (offset : Nat) (b b' : UInt8) :
    (noHexDigit offset b).bare = (noHexDigit offset b').bare := rfl

def bare (e : Escape) : Escape := { e with findings := bareFindings e.findings }

section Stops

variable (stop stop' : UInt8)

theorem bare_hexDigits (count offset value : Nat) (bytes : List UInt8) :
    (hexDigits stop count offset value bytes).bare =
      (hexDigits stop' count offset value bytes).bare := by
  fun_induction hexDigits stop count offset value bytes with
  | case1 offset value bytes => rw [hexDigits]
  | case2 count offset value ih =>
    rw [hexDigits]
    exact HexDigits.bare_cons ih (bare_noHexDigit _ _ _)
  | case3 count offset value b rest digit hd ih =>
    rw [hexDigits, hd]
    exact ih
  | case4 count offset value b rest hd hq ih =>
    rw [hexDigits, hd]
    dsimp only
    rw [if_pos hq]
    exact HexDigits.bare_cons ih rfl
  | case5 count offset value b rest hd hq ih =>
    rw [hexDigits, hd]
    dsimp only
    rw [if_neg hq]
    exact HexDigits.bare_cons ih rfl

theorem bare_bracedDigits (offset value : Nat) (bytes : List UInt8) :
    (bracedDigits stop offset value bytes).bare =
      (bracedDigits stop' offset value bytes).bare := by
  fun_induction bracedDigits stop offset value bytes with
  | case1 offset value => rfl
  | case2 offset value b rest hb => rw [bracedDigits, if_pos hb]
  | case3 offset value b rest hb hq => rw [bracedDigits, if_neg hb, if_pos hq]
  | case4 offset value b rest hb hq digit hd ih =>
    rw [bracedDigits, if_neg hb, if_neg hq, hd]
    exact ih
  | case5 offset value b rest hb hq hd ih =>
    rw [bracedDigits, if_neg hb, if_neg hq, hd]
    exact HexDigits.bare_cons ih rfl

/-- Digits that agree up to the arguments of messages make escapes that do. -/
theorem HexDigits.of_bare_eq {d d' : HexDigits} (h : d.bare = d'.bare) :
    d.value = d'.value ∧ d.stop = d'.stop ∧ bareFindings d.findings = bareFindings d'.findings := by
  simp only [bare, mk.injEq] at h
  exact h

theorem bare_braced (body : List UInt8) : (braced stop body).bare = (braced stop' body).bare := by
  obtain ⟨hvalue, hstop, hfindings⟩ := HexDigits.of_bare_eq (bare_bracedDigits stop stop' 0 0 body)
  unfold braced
  dsimp only
  rw [hvalue, hstop]
  split
  · simp only [bare, bareFindings_append, hfindings]
  · simp only [bare, bareFindings_append, hfindings]

theorem bare_hexByte (rest : List UInt8) :
    (hexByte stop rest).bare = (hexByte stop' rest).bare := by
  obtain ⟨hvalue, hstop, hfindings⟩ := HexDigits.of_bare_eq (bare_hexDigits stop stop' 2 1 0 rest)
  simp only [hexByte, bare, hvalue, hstop, hfindings]

theorem bare_codePoint (rest : List UInt8) :
    (codePoint stop rest).bare = (codePoint stop' rest).bare := by
  unfold codePoint
  split
  · rename_i body
    have hbraced := bare_braced stop stop' body
    simp only [bare, mk.injEq] at hbraced
    obtain ⟨hbytes, hlength, hfindings⟩ := hbraced
    simp only [bare, bareFindings_shift, hbytes, hlength, hfindings]
  · obtain ⟨hvalue, hstop, hfindings⟩ :=
      HexDigits.of_bare_eq (bare_hexDigits stop stop' 4 1 0 rest)
    simp only [bare, hvalue, hstop, hfindings]

end Stops

/-- The context on a line that ends otherwise. -/
def Context.withStop (ctx : Context) (stop : UInt8) : Context := { ctx with stop }

theorem bare_scan (ctx : Context) (stop : UInt8) (bytes : List UInt8) :
    (scan (ctx.withStop stop) bytes).bare = (scan ctx bytes).bare := by
  cases bytes with
  | nil => rfl
  | cons b rest =>
    rw [scan, scan]
    dsimp only
    split
    · rfl
    · split
      · rfl
      · split
        · rfl
        · split
          · exact bare_hexByte stop ctx.stop rest
          · split
            · have hcode := bare_codePoint stop ctx.stop rest
              simp only [bare, mk.injEq] at hcode
              obtain ⟨hbytes, hlength, hfindings⟩ := hcode
              simp only [bare, bareFindings_append, Context.withStop, hbytes, hlength, hfindings]
              rfl
            · split
              · rfl
              · rfl

theorem of_bare_scan (ctx : Context) (stop : UInt8) (bytes : List UInt8) :
    (scan (ctx.withStop stop) bytes).bytes = (scan ctx bytes).bytes ∧
      (scan (ctx.withStop stop) bytes).length = (scan ctx bytes).length ∧
      bareFindings (scan (ctx.withStop stop) bytes).findings =
        bareFindings (scan ctx bytes).findings := by
  have hscan := bare_scan ctx stop bytes
  simp only [bare, mk.injEq] at hscan
  exact hscan

end Escape

/-- Findings are looked at without the arguments of their messages. -/
def FindingView.bare : FindingView := ⟨bareFindings, bareFindings_append, bareFindings_shift⟩

namespace Piece

def bare (p : Piece) : Piece := { p with findings := bareFindings p.findings }

/-- Pieces that agree up to the arguments of messages make the same tokens. -/
theorem of_bare_eq {p p' : Piece} (h : p'.bare = p.bare) (table : IdentTable) :
    p'.toToken table = p.toToken table ∧ p'.length = p.length ∧
      bareFindings p'.findings = bareFindings p.findings :=
  FindingView.of_piece_eq (v := .bare) h table

variable (ctx : Escape.Context) (stop : UInt8)

theorem bare_ofString (o : StringOpening) (line : List UInt8) :
    (ofString (ctx.withStop stop) o line).bare = (ofString ctx o line).bare :=
  FindingView.Agree.ofString (v := .bare) (Escape.of_bare_scan ctx stop) o line

/-- Whatever ends the line, a token on it is the same but for the arguments of messages. -/
theorem bare_ofBytes (b : UInt8) (rest : List UInt8) :
    (ofBytes (ctx.withStop stop) b rest).bare = (ofBytes ctx b rest).bare := by
  refine FindingView.Agree.ofBytes (v := .bare) ?_ b rest
  exact Escape.of_bare_scan { ctx with inCharacter := true } stop

end Piece
end Lexeme
