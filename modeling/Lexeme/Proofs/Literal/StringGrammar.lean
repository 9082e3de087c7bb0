import Mathlib.Data.Bool.AllAny
import Mathlib.Data.List.Basic
import Lexeme.Proofs.Source.Line
import Lexeme.Proofs.Literal.WellFormed

/-!
# How bytes are written in plain strings

Any byte can be written in a plain string, and most can in several ways: as it is, by its value, by
a letter, or behind a backslash. `Escape.Written` lists the escapes of a byte, and `Quoted.Written`
puts the bytes of a string together, each written in a way of its own. A plain string is read back
as the bytes that it was written for, and there is nothing to complain about but zeros in front of
decimal values.
-/

set_option autoImplicit false

namespace Lexeme

namespace Byte

theorem exists_hexValue? {d : UInt8} (h : isHexDigit d = true) :
    ∃ value, hexValue? d = some value := by
  simp only [isHexDigit, Bool.or_eq_true] at h
  rw [hexValue?]
  split
  · exact ⟨_, rfl⟩
  · rename_i hdigit
    split
    · exact ⟨_, rfl⟩
    · rename_i hupper
      have hlower := h.resolve_left fun h => h.elim hdigit hupper
      exact ⟨_, if_pos hlower⟩

theorem hexValue?_of_isDigit {d : UInt8} (h : isDigit d = true) :
    hexValue? d = some (d.toNat - 48) :=
  if_pos h

theorem mem_digits_of_isDigit {d : UInt8} (h : isDigit d = true) : d ∈ ofAscii "0123456789" := by
  simp only [isDigit, Bool.and_eq_true, decide_eq_true_eq, UInt8.le_iff_toNat_le] at h
  have hall : ∀ n < 58, 48 ≤ n → UInt8.ofNat n ∈ ofAscii "0123456789" := by decide
  have hmem := hall d.toNat (Nat.lt_succ_of_le h.2) h.1
  rwa [UInt8.ofNat_toNat] at hmem

end Byte

/-! ## Escapes -/

namespace Escape

/-- The control bytes that have letters, and their letters in both cases. -/
def letters : List (UInt8 × List UInt8) :=
  [(Byte.cr, Byte.ofAscii "rRcC"), (Byte.lf, Byte.ofAscii "lLnNpP"),
    (Byte.formFeed, Byte.ofAscii "fFaAvV"), (Byte.escape, Byte.ofAscii "eE"),
    (Byte.backspace, Byte.ofAscii "bB"), (Byte.tab, Byte.ofAscii "tT")]

/-- What may stand behind a backslash for a byte. -/
inductive Written (b : UInt8) : List UInt8 → Prop
  | hex {letter high low : UInt8} (hletter : letter ∈ Byte.ofAscii "xX")
      (hhigh : Byte.isHexDigit high = true) (hlow : Byte.isHexDigit low = true)
      (hvalue : digitsValue 16 [high, low] = b.toNat) : Written b [letter, high, low]
  | decimal {hundreds tens ones : UInt8}
      (hdigits : ∀ d ∈ [hundreds, tens, ones], Byte.isDigit d = true)
      (hvalue : digitsValue 10 [hundreds, tens, ones] = b.toNat) :
      Written b [hundreds, tens, ones]
  | letter {cs : List UInt8} {c : UInt8} (h : (b, cs) ∈ letters) (hc : c ∈ cs) : Written b [c]
  | itself (h : b ∈ [Byte.quote, Byte.apostrophe, Byte.backslash]) : Written b [b]

section Scan

variable (ctx : Context) {b c : UInt8}

theorem scan_hex (h : c ∈ Byte.ofAscii "xX") (rest : List UInt8) :
    scan ctx (c :: rest) = hexByte ctx.stop rest := by
  have hletters : ∀ c ∈ Byte.ofAscii "xX",
      simple? c = none ∧ Byte.toLower c = Byte.ofChar 'x' :=
    List.all_iff_forall_prop.1 (by decide)
  obtain ⟨hsimple, hlower⟩ := hletters c h
  simp only [scan, hsimple, hlower]
  rfl

theorem scan_digit (h : Byte.isDigit c = true) (rest : List UInt8) :
    scan ctx (c :: rest) = decimalByte (c :: rest) := by
  have hdigits : ∀ c ∈ Byte.ofAscii "0123456789", simple? c = none ∧
      Byte.toLower c ∉ Byte.ofAscii "npxu" := List.all_iff_forall_prop.1 (by decide)
  obtain ⟨hsimple, hletter⟩ := hdigits c (Byte.mem_digits_of_isDigit h)
  have hne : ∀ b ∈ Byte.ofAscii "npxu", ¬(Byte.toLower c == b) = true := by
    intro b hb heq
    exact hletter (beq_iff_eq.1 heq ▸ hb)
  simp only [scan, hsimple]
  rw [if_neg (hne _ (by decide)), if_neg (hne _ (by decide)), if_neg (hne _ (by decide)),
    if_neg (hne _ (by decide)), if_pos h]

/-- Outside characters, no letter is refused. -/
theorem scan_letter (hctx : ctx.inCharacter = false) {cs : List UInt8} (h : (b, cs) ∈ letters)
    (hc : c ∈ cs) (rest : List UInt8) : scan ctx (c :: rest) = ⟨[b], 1, []⟩ := by
  have hletters : ∀ entry ∈ letters, entry.2.all fun c => simple? c = some entry.1 ∨
      entry.1 = Byte.lf ∧ simple? c = none ∧
        (Byte.toLower c = Byte.ofChar 'n' ∨ Byte.toLower c = Byte.ofChar 'p') :=
    List.all_iff_forall_prop.1 (by decide)
  rcases List.all_iff_forall_prop.1 (hletters _ h) c hc with
    hsimple | ⟨rfl, hsimple, hlower | hlower⟩
  · simp only [scan, hsimple]
  · simp [scan, hsimple, hlower, hctx]
  · simp only [scan, hsimple, hlower, hctx]
    rfl

theorem scan_itself (h : b ∈ [Byte.quote, Byte.apostrophe, Byte.backslash]) (rest : List UInt8) :
    scan ctx (b :: rest) = ⟨[b], 1, []⟩ := by
  have hsimple : ∀ b ∈ [Byte.quote, Byte.apostrophe, Byte.backslash], simple? b = some b :=
    List.all_iff_forall_prop.1 (by decide)
  simp only [scan, hsimple b h]

/-- Two hexadecimal digits are a byte. -/
theorem hexByte_eq (stop : UInt8) {high low : UInt8} (hhigh : Byte.isHexDigit high = true)
    (hlow : Byte.isHexDigit low = true) (hvalue : digitsValue 16 [high, low] = b.toNat)
    (rest : List UInt8) : hexByte stop (high :: low :: rest) = ⟨[b], 3, []⟩ := by
  obtain ⟨x, hx⟩ := Byte.exists_hexValue? hhigh
  obtain ⟨y, hy⟩ := Byte.exists_hexValue? hlow
  have hsum : x * 16 + y = b.toNat := by
    simpa [digitsValue, hx, hy] using hvalue
  have hlt := b.toNat_lt
  have hread : appendHex (appendHex 0 x) y = b.toNat := by
    have hmax : pow2 32 - 1 = 4294967295 := by decide
    rw [appendHex, appendHex, hmax]
    omega
  simp only [hexByte, hexDigits, hx, hy, hread, UInt8.ofNat_toNat]

/-- Three decimal digits are a byte if their value is one. At most they get a warning. -/
theorem decimalByte_eq {digits : List UInt8} (hlen : digits.length = 3)
    (hdigits : ∀ d ∈ digits, Byte.isDigit d = true) (hvalue : digitsValue 10 digits = b.toNat)
    (rest : List UInt8) :
    ∃ fs, decimalByte (digits ++ rest) = ⟨[b], 3, fs⟩ ∧ ErrorFree fs := by
  have htake : (digits ++ rest).take 3 = digits := List.take_left' hlen
  have hrun : digits.takeWhile Byte.isDigit = digits := List.takeWhile_eq_self_iff.2 hdigits
  have hread : digits.foldl (fun v d => v * 10 + (d.toNat - 48)) 0 = b.toNat := by
    rw [← hvalue, digitsValue]
    refine List.foldl_ext _ _ _ fun value d hd => ?_
    rw [Byte.hexValue?_of_isDigit (hdigits d hd), Option.getD_some]
  rw [decimalByte]
  simp only [htake, hrun, hread, hlen]
  rw [if_pos b.toNat_lt, UInt8.ofNat_toNat]
  refine ⟨_, rfl, ?_⟩
  split
  · exact List.forall_mem_singleton.2 Severity.noConfusion
  · exact .nil

end Scan

/-- Behind a backslash of a string, an escape is read as the byte it was written for. -/
theorem Written.scan_eq {b : UInt8} {text : List UInt8} (h : Written b text) {ctx : Context}
    (hctx : ctx.inCharacter = false) (rest : List UInt8) :
    ∃ fs, scan ctx (text ++ rest) = ⟨[b], text.length, fs⟩ ∧ ErrorFree fs := by
  cases h with
  | hex hletter hhigh hlow hvalue =>
    refine ⟨[], ?_, .nil⟩
    exact (scan_hex ctx hletter _).trans (hexByte_eq ctx.stop hhigh hlow hvalue rest)
  | decimal hdigits hvalue =>
    obtain ⟨fs, heq, hfree⟩ := decimalByte_eq rfl hdigits hvalue rest
    exact ⟨fs, (scan_digit ctx (hdigits _ List.mem_cons_self) _).trans heq, hfree⟩
  | letter hmem hc => exact ⟨[], scan_letter ctx hctx hmem hc rest, .nil⟩
  | itself hmem => exact ⟨[], scan_itself ctx hmem rest, .nil⟩

/-- There is no terminator in an escape. -/
theorem Written.isText {b : UInt8} {text : List UInt8} (h : Written b text) :
    ∀ c ∈ text, Line.isText c = true := by
  cases h with
  | hex hletter hhigh hlow =>
    have hletters : ∀ c ∈ Byte.ofAscii "xX", Line.isText c = true :=
      List.all_eq_true.1 (by decide)
    simp only [List.forall_mem_cons]
    exact ⟨hletters _ hletter, Line.isText_of_class rfl rfl hhigh,
      Line.isText_of_class rfl rfl hlow, fun _ => nofun⟩
  | decimal hdigits => exact fun c hc => Line.isText_of_class rfl rfl (hdigits c hc)
  | letter hmem hc =>
    have hletters : ∀ entry ∈ letters, entry.2.all Line.isText = true :=
      List.all_eq_true.1 (by decide)
    exact List.forall_mem_singleton.2 (List.all_eq_true.1 (hletters _ hmem) _ hc)
  | itself hmem =>
    have hmarks : ∀ c ∈ [Byte.quote, Byte.apostrophe, Byte.backslash], Line.isText c = true :=
      List.all_eq_true.1 (by decide)
    exact List.forall_mem_singleton.2 (hmarks b hmem)

end Escape

/-! ## Strings -/

namespace Quoted

/-- What may stand between the quotes of a plain string for some bytes. -/
inductive Written : List UInt8 → List UInt8 → Prop
  | nil : Written [] []
  | asIs {b : UInt8} {bytes body : List UInt8}
      (h : b ∉ [Byte.quote, Byte.backslash, Byte.cr, Byte.lf]) (hrest : Written bytes body) :
      Written (b :: bytes) (b :: body)
  | escape {b : UInt8} {bytes text body : List UInt8} (h : Escape.Written b text)
      (hrest : Written bytes body) : Written (b :: bytes) (Byte.backslash :: (text ++ body))

section Read

variable (ctx : Escape.Context) (offset : Nat)

theorem plain_quote (more : List UInt8) :
    plain ctx offset (Byte.quote :: more) = ⟨[], offset + 1, []⟩ := by
  rw [plain]
  exact if_pos rfl

theorem plain_of_ne {b : UInt8} (hquote : b ≠ Byte.quote) (hbackslash : b ≠ Byte.backslash)
    (rest : List UInt8) :
    plain ctx offset (b :: rest) = (plain ctx (offset + 1) rest).prepend [b] [] := by
  rw [plain, if_neg (by simpa using hquote), if_neg (by simpa using hbackslash)]

theorem plain_backslash {text rest : List UInt8} {e : Escape}
    (h : Escape.scan ctx (text ++ rest) = e) (hlen : e.length = text.length) :
    plain ctx offset (Byte.backslash :: (text ++ rest)) =
      (plain ctx (offset + 1 + text.length) rest).prepend e.bytes
        (e.findings.map (Finding.shift (offset + 1))) := by
  rw [plain]
  refine (if_neg (by decide)).trans ((if_pos rfl).trans ?_)
  dsimp only
  rw [h, hlen, List.drop_left]

variable {bytes body : List UInt8}

/-- A string that is written for some bytes is read back as them, up to the closing quote. -/
theorem Written.plain_eq (h : Written bytes body) (hctx : ctx.inCharacter = false)
    (more : List UInt8) :
    ∃ fs, plain ctx offset (body ++ Byte.quote :: more) =
      ⟨bytes, offset + body.length + 1, fs⟩ ∧ ErrorFree fs := by
  induction h generalizing offset with
  | nil => exact ⟨[], plain_quote ctx offset more, .nil⟩
  | @asIs b bytes body hb _ ih =>
    simp only [List.mem_cons, List.not_mem_nil, or_false, not_or] at hb
    obtain ⟨hquote, hbackslash, -, -⟩ := hb
    obtain ⟨fs, hrest, hfree⟩ := ih (offset + 1)
    refine ⟨fs, ?_, hfree⟩
    have hstop : offset + 1 + body.length + 1 = offset + (b :: body).length + 1 := by
      rw [List.length_cons]
      omega
    rw [List.cons_append, plain_of_ne ctx offset hquote hbackslash, hrest, hstop]
    rfl
  | @escape b bytes text body hb _ ih =>
    obtain ⟨es, hescape, hescapeFree⟩ := hb.scan_eq hctx (body ++ Byte.quote :: more)
    obtain ⟨fs, hrest, hfree⟩ := ih (offset + 1 + text.length)
    refine ⟨es.map (Finding.shift (offset + 1)) ++ fs, ?_, ?_⟩
    · have hstop : offset + 1 + text.length + body.length + 1 =
          offset + (Byte.backslash :: (text ++ body)).length + 1 := by
        rw [List.length_cons, List.length_append]
        omega
      rw [List.cons_append, List.append_assoc, plain_backslash ctx offset hescape rfl, hrest, hstop]
      rfl
    · exact ErrorFree.append_iff.2 ⟨ErrorFree.shift_iff.2 hescapeFree, hfree⟩

/-- A string has no terminator in it. -/
theorem Written.isText (h : Written bytes body) : ∀ c ∈ body, Line.isText c = true := by
  induction h with
  | nil => exact fun _ => nofun
  | @asIs b _ _ hb _ ih =>
    simp only [List.mem_cons, List.not_mem_nil, or_false, not_or] at hb
    obtain ⟨-, -, hcr, hlf⟩ := hb
    exact List.forall_mem_cons.2 ⟨Line.isText_of_ne hcr hlf, ih⟩
  | escape hb _ ih =>
    exact List.forall_mem_cons.2 ⟨by decide, List.forall_mem_append.2 ⟨hb.isText, ih⟩⟩

/-- A string does not start with a quote. -/
theorem Written.head?_ne (h : Written bytes body) : body.head? ≠ some Byte.quote := by
  cases h with
  | nil => exact nofun
  | asIs hb =>
    rintro ⟨⟩
    exact hb List.mem_cons_self
  | escape => exact nofun

end Read

end Quoted

end Lexeme
