import Lexeme.Proofs.Text.CodePoint
import Lexeme.Proofs.Literal.StringGrammar

/-!
# How code points are written in plain strings

A code point is written by hexadecimal digits, four of them or any number in braces. The digits are
read into 32 bits and stay at the largest number once there is no more room, so that a number of any
length is judged by its value: one above the largest code point is reported, and one above 31 bits
leaves nothing in the string. `Quoted.Part` is a byte or a code point as it is written, and a plain
string of such parts stands for what the parts stand for.
-/

set_option autoImplicit false

namespace Lexeme

theorem Utf8.lossy_of_lt {bytes : List UInt8} (h : ∀ b ∈ bytes, b < 0x80) :
    lossy bytes = String.ofList (bytes.map Byte.toChar) := by
  have hdecode : decode bytes = bytes.map fun b => some (Byte.toChar b) := by
    induction bytes with
    | nil => rfl
    | cons b bytes ih =>
      obtain ⟨hb, hrest⟩ := List.forall_mem_cons.1 h
      rw [decode, decodeFrom, step, start, if_pos hb, List.map_cons, ← ih hrest]
      rfl
  rw [lossy, hdecode, List.map_map]
  rfl

theorem Byte.lt_of_isHexDigit {d : UInt8} (h : isHexDigit d = true) : d < 0x80 := by
  simp only [isHexDigit, isDigit, Bool.or_eq_true, Bool.and_eq_true, decide_eq_true_eq,
    UInt8.le_iff_toNat_le] at h
  rw [UInt8.lt_iff_toNat_lt]
  have hdigit : (57 : UInt8).toNat = 57 := rfl
  have hupper : (70 : UInt8).toNat = 70 := rfl
  have hlower : (102 : UInt8).toNat = 102 := rfl
  have hlimit : (0x80 : UInt8).toNat = 128 := rfl
  omega

theorem Byte.hexValue?_lt (d : UInt8) : (hexValue? d).getD 0 < 16 := by
  have hall : ∀ n < 256, (hexValue? (UInt8.ofNat n)).getD 0 < 16 := by decide +kernel
  have hd := hall d.toNat d.toNat_lt
  rwa [UInt8.ofNat_toNat] at hd

namespace Escape

/-! ## Digits -/

/-- The number that some digits make of the number read before them. -/
def digitsFrom (value : Nat) (digits : List UInt8) : Nat :=
  digits.foldl (fun value b => value * 16 + (Byte.hexValue? b).getD 0) value

theorem digitsFrom_lt (digits : List UInt8) (value : Nat) :
    digitsFrom value digits < (value + 1) * pow2 (4 * digits.length) := by
  induction digits generalizing value with
  | nil => simp [digitsFrom, pow2]
  | cons d digits ih =>
    have hd := Byte.hexValue?_lt d
    have hpow : pow2 (4 * (digits.length + 1)) = 16 * pow2 (4 * digits.length) := by
      rw [pow2, pow2, Nat.pow_eq, Nat.mul_succ, Nat.pow_add, Nat.mul_comm]
      rfl
    calc digitsFrom value (d :: digits)
        = digitsFrom (value * 16 + (Byte.hexValue? d).getD 0) digits := rfl
      _ < (value * 16 + (Byte.hexValue? d).getD 0 + 1) * pow2 (4 * digits.length) := ih _
      _ ≤ ((value + 1) * 16) * pow2 (4 * digits.length) := Nat.mul_le_mul_right _ (by omega)
      _ = (value + 1) * pow2 (4 * (digits.length + 1)) := by rw [hpow, Nat.mul_assoc]

theorem appendHex_min (value digit : Nat) :
    appendHex (min value (pow2 32 - 1)) digit = min (value * 16 + digit) (pow2 32 - 1) := by
  have hpow : pow2 32 = 4294967296 := rfl
  rw [appendHex, hpow]
  omega

section Digits

variable (stop : UInt8) {digits : List UInt8} (h : ∀ d ∈ digits, Byte.isHexDigit d = true)
include h

theorem bracedDigits_eq (offset value : Nat) (rest : List UInt8) :
    bracedDigits stop offset (min value (pow2 32 - 1)) (digits ++ Byte.braceRight :: rest) =
      ⟨min (digitsFrom value digits) (pow2 32 - 1), offset + digits.length, []⟩ := by
  induction digits generalizing offset value with
  | nil => rfl
  | cons d digits ih =>
    obtain ⟨hd, hdigits⟩ := List.forall_mem_cons.1 h
    obtain ⟨x, hx⟩ := Byte.exists_hexValue? hd
    have hbrace : (d == Byte.braceRight) = false := by
      rw [beq_eq_false_iff_ne]
      rintro rfl
      cases hd
    have hcloses : closesLiteral d = false := by
      rw [closesLiteral, Bool.or_eq_false_iff, beq_eq_false_iff_ne, beq_eq_false_iff_ne]
      constructor
      · rintro rfl
        cases hd
      · rintro rfl
        cases hd
    have hrest := ih hdigits (offset + 1) (value * 16 + x)
    rw [List.cons_append, bracedDigits, hbrace, hcloses, hx]
    simp only [Bool.false_eq_true, if_false, appendHex_min, hrest, digitsFrom, List.foldl_cons, hx,
      Option.getD_some, List.length_cons, Nat.add_assoc, Nat.add_comm 1]

theorem hexDigits_eq (offset value : Nat) (rest : List UInt8) :
    hexDigits stop digits.length offset (min value (pow2 32 - 1)) (digits ++ rest) =
      ⟨min (digitsFrom value digits) (pow2 32 - 1), offset + digits.length, []⟩ := by
  induction digits generalizing offset value with
  | nil => rw [List.length_nil, hexDigits]; rfl
  | cons d digits ih =>
    obtain ⟨hd, hdigits⟩ := List.forall_mem_cons.1 h
    obtain ⟨x, hx⟩ := Byte.exists_hexValue? hd
    have hrest := ih hdigits (offset + 1) (value * 16 + x)
    rw [List.cons_append, List.length_cons, hexDigits, hx]
    simp only [appendHex_min, hrest, digitsFrom, List.foldl_cons, hx, Option.getD_some,
      Nat.add_assoc, Nat.add_comm 1]

end Digits

/-! ## Code points -/

/-- A code point as it stands behind a backslash: its letter, and hexadecimal digits, four of them
or any number in braces. -/
structure Point where
  letter : UInt8
  digits : List UInt8
  braced : Bool
  letter_mem : letter ∈ Byte.ofAscii "uU"
  isHexDigit : ∀ d ∈ digits, Byte.isHexDigit d = true
  ne_nil : digits ≠ []
  length_eq : braced = false → digits.length = 4

namespace Point

variable (p : Point)

def value : Nat := digitsValue 16 p.digits

def text : List UInt8 :=
  p.letter :: if p.braced then Byte.braceLeft :: (p.digits ++ [Byte.braceRight]) else p.digits

/-- The bytes that a string gets from a code point: the form of its value, if it has one. -/
def Means (bytes : List UInt8) : Prop :=
  if p.value ≤ CodePoint.limit then CodePoint.Shortest p.value bytes else bytes = []

/-- The complaint about a value that is too large, with the digits as written. -/
def messages : List Message :=
  if CodePoint.largest < p.value then
    [.codePointTooLarge (String.ofList (p.digits.map Byte.toChar))]
  else []

/-- Four digits are less than any value that there is to complain about. -/
theorem value_lt (h : p.braced = false) : p.value < 65536 := by
  have hlt := digitsFrom_lt p.digits 0
  rw [p.length_eq h] at hlt
  exact hlt

theorem means_encode : p.Means (CodePoint.encode p.value) := by
  rw [Means]
  split
  · rename_i hle
    exact (CodePoint.shortest_iff hle).2 rfl
  · rename_i hlt
    exact CodePoint.encode_of_limit_lt (Nat.not_le.1 hlt)

/-- There is no terminator in a code point. -/
theorem isText : ∀ c ∈ p.text, Line.isText c = true := by
  have hletters : ∀ c ∈ Byte.ofAscii "uU", Line.isText c = true := List.all_eq_true.1 (by decide)
  have hdigits : ∀ d ∈ p.digits, Line.isText d = true :=
    fun d hd => Line.isText_of_class rfl rfl (p.isHexDigit d hd)
  refine List.forall_mem_cons.2 ⟨hletters _ p.letter_mem, ?_⟩
  split
  · refine List.forall_mem_cons.2 ⟨by decide, List.forall_mem_append.2 ⟨hdigits, ?_⟩⟩
    exact List.forall_mem_singleton.2 (by decide)
  · exact hdigits

end Point

/-- Where the digits stop counting, the value is too large for a form already. -/
theorem encode_min (value : Nat) :
    CodePoint.encode (min value (pow2 32 - 1)) = CodePoint.encode value := by
  have hpow : pow2 32 = 4294967296 := rfl
  by_cases h : value ≤ pow2 32 - 1
  · rw [Nat.min_eq_left h]
  · rw [Nat.min_eq_right (by omega), CodePoint.encode_of_limit_lt, CodePoint.encode_of_limit_lt]
    · rw [CodePoint.limit]
      omega
    · rw [CodePoint.limit]
      omega

theorem largest_lt_min_iff {value : Nat} :
    CodePoint.largest < min value (pow2 32 - 1) ↔ CodePoint.largest < value := by
  have hpow : pow2 32 = 4294967296 := rfl
  rw [CodePoint.largest]
  omega

theorem braced_eq (stop : UInt8) (p : Point) (rest : List UInt8) :
    braced stop (p.digits ++ Byte.braceRight :: rest) =
      ⟨CodePoint.encode p.value, p.digits.length + 1, p.messages.map (Finding.mk 0)⟩ := by
  have hdigits := bracedDigits_eq stop p.isHexDigit 0 0 rest
  have hzero : min 0 (pow2 32 - 1) = 0 := rfl
  have hvalue : digitsFrom 0 p.digits = p.value := rfl
  have hne : p.digits.length ≠ 0 := fun hnil => p.ne_nil (List.length_eq_zero_iff.1 hnil)
  have htext := Utf8.lossy_of_lt fun d hd => Byte.lt_of_isHexDigit (p.isHexDigit d hd)
  rw [hzero, hvalue, Nat.zero_add] at hdigits
  rw [braced, hdigits]
  simp only [List.drop_left, List.head?_cons, if_true, hne, if_false, encode_min,
    largest_lt_min_iff, List.take_left, htext, List.nil_append, Point.messages]
  split
  · rfl
  · rfl

theorem codePoint_eq (stop : UInt8) (p : Point) (rest : List UInt8) :
    codePoint stop (p.text.tail ++ rest) =
      ⟨CodePoint.encode p.value, p.text.length, p.messages.map (Finding.mk 2)⟩ := by
  rw [Point.text, List.tail_cons]
  cases hbraced : p.braced with
  | true =>
    rw [if_pos rfl, List.cons_append, List.append_assoc, List.singleton_append]
    change (let e := braced stop (p.digits ++ Byte.braceRight :: rest)
      (⟨e.bytes, 2 + e.length, e.findings.map (Finding.shift 2)⟩ : Escape)) = _
    rw [braced_eq]
    dsimp only
    rw [List.map_map, List.length_cons, List.length_cons, List.length_append, List.length_singleton,
      Nat.add_comm 2]
    rfl
  | false =>
    have hlen := p.length_eq hbraced
    have hdigits := hexDigits_eq stop p.isHexDigit 1 0 rest
    have hzero : min 0 (pow2 32 - 1) = 0 := rfl
    have hvalue : digitsFrom 0 p.digits = p.value := rfl
    have hsmall := p.value_lt hbraced
    have hmessages : p.messages = [] := by
      rw [Point.messages, if_neg]
      rw [CodePoint.largest]
      omega
    rw [hlen, hzero, hvalue] at hdigits
    rw [if_neg Bool.false_ne_true, codePoint, hdigits]
    · dsimp only
      rw [encode_min, hmessages, List.length_cons, Nat.add_comm, hlen]
      rfl
    · intro body hbody
      obtain ⟨d, digits, hcons⟩ := List.exists_cons_of_ne_nil p.ne_nil
      have hd := p.isHexDigit d (hcons ▸ List.mem_cons_self)
      rw [hcons, List.cons_append] at hbody
      rw [(List.cons.inj hbody).1] at hd
      cases hd

/-- Behind a backslash a code point gives the form of its value, and where it is too large a
complaint. In a character it is refused besides. -/
theorem scan_point (ctx : Context) (p : Point) (rest : List UInt8) :
    scan ctx (p.text ++ rest) =
      ⟨CodePoint.encode p.value, p.text.length,
        (if ctx.inCharacter then [⟨0, .escapeNotAllowedInChar 'u'⟩] else []) ++
          p.messages.map (Finding.mk 2)⟩ := by
  have hletters : ∀ c ∈ Byte.ofAscii "uU",
      simple? c = none ∧ Byte.toLower c = Byte.ofChar 'u' :=
    List.all_iff_forall_prop.1 (by decide)
  obtain ⟨hsimple, hlower⟩ := hletters p.letter p.letter_mem
  have hpoint := codePoint_eq ctx.stop p rest
  have htext : p.text = p.letter :: p.text.tail := rfl
  rw [htext, List.cons_append]
  simp only [scan, hsimple, hlower]
  change Escape.mk (codePoint ctx.stop (p.text.tail ++ rest)).bytes
    (codePoint ctx.stop (p.text.tail ++ rest)).length
    (_ ++ (codePoint ctx.stop (p.text.tail ++ rest)).findings) = _
  rw [hpoint]
  rfl

end Escape

/-! ## Strings -/

namespace Quoted

/-- A byte or a code point as it stands in a plain string. -/
inductive Part where
  | asIs (b : UInt8) (h : b ∉ [Byte.quote, Byte.backslash, Byte.cr, Byte.lf])
  | escape (b : UInt8) (text : List UInt8) (written : Escape.Written b text)
  | point (p : Escape.Point)

namespace Part

def text : Part → List UInt8
  | asIs b _ => [b]
  | escape _ text _ => Byte.backslash :: text
  | point p => Byte.backslash :: p.text

/-- The bytes that a string gets from a part. -/
def Means : Part → List UInt8 → Prop
  | asIs b _, bytes => bytes = [b]
  | escape b _ _, bytes => bytes = [b]
  | point p, bytes => p.Means bytes

/-- What there is to report about a part: a decimal value with a zero in front gets a warning. -/
def messages : Part → List Message
  | asIs _ _ => []
  | escape _ text _ =>
    if text.length = 3 ∧ text.head? = some Byte.zero then [.octalEscape] else []
  | point p => p.messages

end Part

theorem messages_decimalByte {b hundreds tens ones : UInt8}
    (hdigits : ∀ d ∈ [hundreds, tens, ones], Byte.isDigit d = true)
    (hvalue : digitsValue 10 [hundreds, tens, ones] = b.toNat) (rest : List UInt8) :
    (Escape.decimalByte ([hundreds, tens, ones] ++ rest)).findings.map Finding.message =
      if hundreds = Byte.zero then [.octalEscape] else [] := by
  obtain ⟨fs, hbyte, -⟩ := Escape.decimalByte_eq rfl hdigits hvalue rest
  have htake : ([hundreds, tens, ones] ++ rest).take 3 = [hundreds, tens, ones] := rfl
  have hrun : [hundreds, tens, ones].takeWhile Byte.isDigit = [hundreds, tens, ones] :=
    List.takeWhile_eq_self_iff.2 hdigits
  rw [Escape.decimalByte, htake, hrun] at hbyte ⊢
  split at hbyte
  · rename_i hsmall
    rw [if_pos hsmall]
    dsimp only
    split
    · rename_i heq
      obtain ⟨rfl, -⟩ := List.cons.inj heq
      rfl
    · rename_i hne
      rw [if_neg]
      · rfl
      · rintro rfl
        exact hne tens [ones] rfl
  · cases hbyte

/-- Of the escapes of a byte, only a decimal value may get a warning. -/
theorem messages_scan {b : UInt8} {text : List UInt8} (h : Escape.Written b text)
    {ctx : Escape.Context} (hctx : ctx.inCharacter = false) (rest : List UInt8) :
    (Escape.scan ctx (text ++ rest)).findings.map Finding.message =
      (Part.escape b text h).messages := by
  cases h with
  | @hex letter high low hletter hhigh hlow hvalue =>
    have hne : letter ≠ Byte.zero := by
      rintro rfl
      exact absurd hletter (by decide)
    have hscan : Escape.scan ctx ([letter, high, low] ++ rest) = ⟨[b], 3, []⟩ :=
      (Escape.scan_hex ctx hletter _).trans (Escape.hexByte_eq ctx.stop hhigh hlow hvalue rest)
    rw [hscan, Part.messages, if_neg]
    · rfl
    · rintro ⟨-, hzero⟩
      exact hne (Option.some.inj hzero)
  | @decimal hundreds tens ones hdigits hvalue =>
    have hscan : Escape.scan ctx ([hundreds, tens, ones] ++ rest) =
        Escape.decimalByte ([hundreds, tens, ones] ++ rest) :=
      Escape.scan_digit ctx (hdigits _ List.mem_cons_self) _
    rw [hscan, messages_decimalByte hdigits hvalue rest]
    simp [Part.messages]
  | letter hmem hc =>
    rw [List.singleton_append, Escape.scan_letter ctx hctx hmem hc rest]
    rfl
  | itself hmem =>
    rw [List.singleton_append, Escape.scan_itself ctx hmem rest]
    rfl

section Read

variable (ctx : Escape.Context)

theorem plain_escape {text rest : List UInt8} {e : Escape}
    (h : Escape.scan ctx (text ++ rest) = e) (hlen : e.length = text.length) (offset : Nat) :
    ∃ fs, fs.map Finding.message = e.findings.map Finding.message ∧
      plain ctx offset (Byte.backslash :: text ++ rest) =
        (plain ctx (offset + (Byte.backslash :: text).length) rest).prepend e.bytes fs := by
  refine ⟨e.findings.map (Finding.shift (offset + 1)), ?_, ?_⟩
  · rw [List.map_map]
    rfl
  · rw [List.cons_append, plain_backslash ctx offset h hlen, List.length_cons, Nat.add_assoc,
      Nat.add_comm 1]

variable (hctx : ctx.inCharacter = false)
include hctx

/-- In front of a string a part adds what it stands for, and what there is to report about it. -/
theorem Part.plain_append (part : Part) (offset : Nat) (rest : List UInt8) :
    ∃ bytes fs, part.Means bytes ∧ fs.map Finding.message = part.messages ∧
      plain ctx offset (part.text ++ rest) =
        (plain ctx (offset + part.text.length) rest).prepend bytes fs := by
  cases part with
  | asIs b hb =>
    simp only [List.mem_cons, List.not_mem_nil, or_false, not_or] at hb
    obtain ⟨hquote, hbackslash, -, -⟩ := hb
    exact ⟨[b], [], rfl, rfl, plain_of_ne ctx offset hquote hbackslash rest⟩
  | escape b text written =>
    obtain ⟨fs, hscan, -⟩ := written.scan_eq hctx rest
    have hmessages := messages_scan written hctx rest
    rw [hscan] at hmessages
    obtain ⟨fs', hsame, hread⟩ := plain_escape ctx hscan rfl offset
    exact ⟨[b], fs', rfl, hsame.trans hmessages, hread⟩
  | point p =>
    have hscan := Escape.scan_point ctx p rest
    rw [hctx, if_neg Bool.false_ne_true, List.nil_append] at hscan
    obtain ⟨fs, hsame, hread⟩ := plain_escape ctx hscan rfl offset
    refine ⟨_, fs, p.means_encode, hsame.trans ?_, hread⟩
    rw [List.map_map]
    exact List.map_id _

/-- A string of parts is read as what the parts stand for, up to the closing quote. -/
theorem plain_parts (parts : List Part) (offset : Nat) (more : List UInt8) :
    ∃ pieces fs, List.Forall₂ Part.Means parts pieces ∧
      fs.map Finding.message = parts.flatMap Part.messages ∧
      plain ctx offset (parts.flatMap Part.text ++ Byte.quote :: more) =
        ⟨pieces.flatten, offset + (parts.flatMap Part.text).length + 1, fs⟩ := by
  induction parts generalizing offset with
  | nil => exact ⟨[], [], .nil, rfl, plain_quote ctx offset more⟩
  | cons part parts ih =>
    obtain ⟨pieces, fs, hmeans, hmessages, hread⟩ := ih (offset + part.text.length)
    obtain ⟨bytes, es, hbytes, hpart, hfirst⟩ :=
      part.plain_append ctx hctx offset (parts.flatMap Part.text ++ Byte.quote :: more)
    refine ⟨bytes :: pieces, es ++ fs, .cons hbytes hmeans, ?_, ?_⟩
    · rw [List.map_append, hpart, hmessages, List.flatMap_cons]
    · rw [List.flatMap_cons, List.append_assoc, hfirst, hread, List.length_append,
        List.flatten_cons, Nat.add_assoc offset]
      rfl

end Read

/-- There is no terminator in a part. -/
theorem Part.isText (part : Part) : ∀ c ∈ part.text, Line.isText c = true := by
  cases part with
  | asIs b hb =>
    simp only [List.mem_cons, List.not_mem_nil, or_false, not_or] at hb
    exact List.forall_mem_singleton.2 (Line.isText_of_ne hb.2.2.1 hb.2.2.2)
  | escape b text written => exact List.forall_mem_cons.2 ⟨by decide, written.isText⟩
  | point p => exact List.forall_mem_cons.2 ⟨by decide, p.isText⟩

/-- A string of parts does not start with a quote. -/
theorem head?_parts (parts : List Part) :
    (parts.flatMap Part.text).head? ≠ some Byte.quote := by
  cases parts with
  | nil => exact nofun
  | cons part parts =>
    cases part with
    | asIs b hb =>
      rintro ⟨⟩
      exact hb List.mem_cons_self
    | escape => exact nofun
    | point => exact nofun

end Quoted
end Lexeme
