/-!
# String literals

A string literal is kept as it is written between its quotes. Reading a document only has to find
where a literal ends; what text it stands for is a second question, and some well-formed literals
stand for none: those that write one half of a surrogate pair.

Both questions are answered by one machine that goes through the characters (`Literal.Mode`).

* `Literal.text?_ofText` — the literal of a text stands for that text.
-/

namespace FlowRecovery

/-- A string literal, as it is written between its quotes. -/
structure Literal where
  /-- The characters between the quotes. -/
  written : List Char
  deriving DecidableEq

namespace Literal

/-! ### Hexadecimal digits -/

/-- The value of a hexadecimal digit. -/
def hexValue? (c : Char) : Option Nat :=
  if '0' ≤ c ∧ c ≤ '9' then some (c.toNat - '0'.toNat)
  else if 'a' ≤ c ∧ c ≤ 'f' then some (c.toNat - 'a'.toNat + 10)
  else if 'A' ≤ c ∧ c ≤ 'F' then some (c.toNat - 'A'.toNat + 10)
  else none

/-- The hexadecimal digit of a number below sixteen. -/
def hexDigit (n : Nat) : Char :=
  if n < 10 then Char.ofNat ('0'.toNat + n) else Char.ofNat ('a'.toNat + (n - 10))

/-! ### The machine -/

/-- Where the machine stands inside a literal. -/
inductive Mode where
  /-- Between characters. -/
  | plain
  /-- Behind a backslash. -/
  | escape
  /-- Inside a numeric escape, with `missing + 1` digits to come; `value` is what the digits so far
  stand for. -/
  | hex (missing value : Nat)

/-- The character that a backslash and `c` stand for. -/
def simpleEscape? (c : Char) : Option Char :=
  if c = '"' then some '"'
  else if c = '\\' then some '\\'
  else if c = '/' then some '/'
  else if c = 'b' then some '\x08'
  else if c = 'f' then some '\x0c'
  else if c = 'n' then some '\n'
  else if c = 'r' then some '\r'
  else if c = 't' then some '\t'
  else none

/-- Reads a literal whose opening quote was read, up to its closing quote. Control characters must
be escaped. -/
def scan : Mode → List Char → Option (List Char × List Char)
  | _, [] => none
  | .plain, c :: rest =>
      if c = '"' then some ([], rest)
      else if c.toNat < 0x20 then none
      else (scan (if c = '\\' then .escape else .plain) rest).map fun p => (c :: p.1, p.2)
  | .escape, c :: rest =>
      if c = 'u' then (scan (.hex 3 0) rest).map fun p => (c :: p.1, p.2)
      else if (simpleEscape? c).isSome then (scan .plain rest).map fun p => (c :: p.1, p.2)
      else none
  | .hex missing value, c :: rest =>
      match hexValue? c, missing with
      | none, _ => none
      | some _, 0 => (scan .plain rest).map fun p => (c :: p.1, p.2)
      | some d, missing + 1 =>
          (scan (.hex missing (16 * value + d)) rest).map fun p => (c :: p.1, p.2)

/-- The code points that a literal writes; a numeric escape may write half of a surrogate pair. -/
def codePoints : Mode → List Char → Option (List Nat)
  | .plain, [] => some []
  | .escape, [] => none
  | .hex _ _, [] => none
  | .plain, c :: rest =>
      if c = '\\' then codePoints .escape rest else (codePoints .plain rest).map (c.toNat :: ·)
  | .escape, c :: rest =>
      if c = 'u' then codePoints (.hex 3 0) rest
      else
        match simpleEscape? c with
        | none => none
        | some e => (codePoints .plain rest).map (e.toNat :: ·)
  | .hex missing value, c :: rest =>
      match hexValue? c, missing with
      | none, _ => none
      | some d, 0 => (codePoints .plain rest).map ((16 * value + d) :: ·)
      | some d, missing + 1 => codePoints (.hex missing (16 * value + d)) rest

/-- The first half of a surrogate pair. -/
def isHighSurrogate (n : Nat) : Bool := 0xD800 ≤ n && n ≤ 0xDBFF

/-- The second half of a surrogate pair. -/
def isLowSurrogate (n : Nat) : Bool := 0xDC00 ≤ n && n ≤ 0xDFFF

/-- The code point of a surrogate pair. -/
def pairValue (high low : Nat) : Nat := 0x10000 + (high - 0xD800) * 0x400 + (low - 0xDC00)

/-- The characters of code points, where each surrogate stands in a pair. `high?` is the first half
of a pair whose second half is to come. -/
def characters : (high? : Option Nat) → List Nat → Option (List Char)
  | none, [] => some []
  | some _, [] => none
  | none, n :: rest =>
      if isHighSurrogate n then characters (some n) rest
      else if isLowSurrogate n then none
      else (characters none rest).map (Char.ofNat n :: ·)
  | some high, n :: rest =>
      if isLowSurrogate n then
        (characters none rest).map (Char.ofNat (pairValue high n) :: ·)
      else none

/-- The text a literal stands for, if it stands for one. -/
def text? (l : Literal) : Option String :=
  ((codePoints .plain l.written).bind (characters none)).map String.ofList

/-! ### Writing literals -/

/-- The letter that stands for a character behind a backslash, for the characters that are written
so. -/
def letter? (c : Char) : Option Char :=
  if c = '"' then some '"'
  else if c = '\\' then some '\\'
  else if c = '\x08' then some 'b'
  else if c = '\x0c' then some 'f'
  else if c = '\n' then some 'n'
  else if c = '\r' then some 'r'
  else if c = '\t' then some 't'
  else none

/-- How a character is written: the quote, the backslash and control characters are escaped, with a
letter where there is one. -/
def escaped (c : Char) : List Char :=
  match letter? c with
  | some e => ['\\', e]
  | none =>
      if c.toNat < 0x20 then
        ['\\', 'u', '0', '0', hexDigit (c.toNat / 16), hexDigit (c.toNat % 16)]
      else [c]

/-- The literal of a text. -/
def ofText (s : String) : Literal := ⟨s.toList.flatMap escaped⟩

/-! ### Reading back what was written -/

theorem hexValue?_hexDigit : ∀ n < 16, hexValue? (hexDigit n) = some n := by decide

theorem simpleEscape?_of_letter? {c e : Char} (h : letter? c = some e) :
    simpleEscape? e = some c ∧ e ≠ 'u' := by
  unfold letter? at h
  repeat' split at h
  all_goals cases h
  all_goals subst_vars
  all_goals decide

theorem ne_of_letter?_eq_none {c : Char} (h : letter? c = none) : c ≠ '"' ∧ c ≠ '\\' := by
  constructor <;> rintro rfl <;> exact absurd h (by decide)

theorem codePoints_escaped (c : Char) (rest : List Char) :
    codePoints .plain (escaped c ++ rest) = (codePoints .plain rest).map (c.toNat :: ·) := by
  unfold escaped
  split
  · rename_i e h
    obtain ⟨he, hu⟩ := simpleEscape?_of_letter? h
    simp [codePoints, he, hu]
  · rename_i h
    split
    · have hq := hexValue?_hexDigit (c.toNat / 16) (by omega)
      have hr := hexValue?_hexDigit (c.toNat % 16) (by omega)
      have hz : hexValue? '0' = some 0 := by decide
      have hc : 16 * (c.toNat / 16) + c.toNat % 16 = c.toNat := by omega
      simp [codePoints, hz, hq, hr, hc]
    · simp [codePoints, ne_of_letter?_eq_none h]

theorem codePoints_flatMap_escaped (cs rest : List Char) :
    codePoints .plain (cs.flatMap escaped ++ rest) =
      (codePoints .plain rest).map (cs.map Char.toNat ++ ·) := by
  induction cs with
  | nil => simp
  | cons c cs ih =>
    rw [List.flatMap_cons, List.append_assoc, codePoints_escaped, ih, Option.map_map]
    rfl

theorem not_isSurrogate (c : Char) :
    isHighSurrogate c.toNat = false ∧ isLowSurrogate c.toNat = false := by
  have h : c.toNat < 0xD800 ∨ 0xDFFF < c.toNat ∧ c.toNat < 0x110000 := c.valid
  simp only [isHighSurrogate, isLowSurrogate, Bool.and_eq_false_iff, decide_eq_false_iff_not]
  omega

theorem characters_map_toNat (cs : List Char) : characters none (cs.map Char.toNat) = some cs := by
  induction cs with
  | nil => rfl
  | cons c cs ih => simp [characters, not_isSurrogate c, ih]

/-- The literal of a text stands for that text. -/
theorem text?_ofText (s : String) : (ofText s).text? = some s := by
  have h := codePoints_flatMap_escaped s.toList []
  simp only [List.append_nil] at h
  simp [text?, ofText, h, codePoints, characters_map_toNat]

theorem scan_escaped (c : Char) (rest : List Char) :
    scan .plain (escaped c ++ rest) =
      (scan .plain rest).map fun p => (escaped c ++ p.1, p.2) := by
  unfold escaped
  split
  · rename_i e h
    obtain ⟨he, hu⟩ := simpleEscape?_of_letter? h
    simp [scan, he, hu, Option.map_map, Function.comp_def]
  · rename_i h
    split
    · have hq := hexValue?_hexDigit (c.toNat / 16) (by omega)
      have hr := hexValue?_hexDigit (c.toNat % 16) (by omega)
      have hz : hexValue? '0' = some 0 := by decide
      simp [scan, hz, hq, hr, Option.map_map, Function.comp_def]
    · rename_i hc
      simp [scan, ne_of_letter?_eq_none h, hc]

/-- A written text is read up to the closing quote behind it. -/
theorem scan_ofText (s : String) (rest : List Char) :
    scan .plain ((ofText s).written ++ '"' :: rest) = some ((ofText s).written, rest) := by
  have go : ∀ cs : List Char, scan .plain (cs.flatMap escaped ++ '"' :: rest) =
      some (cs.flatMap escaped, rest) := by
    intro cs
    induction cs with
    | nil => rfl
    | cons c cs ih => rw [List.flatMap_cons, List.append_assoc, scan_escaped, ih]; rfl
  exact go s.toList

end Literal

end FlowRecovery
