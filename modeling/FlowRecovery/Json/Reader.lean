import FlowRecovery.Json.Nesting

/-!
# Reading JSON

A document is read from the front of a list of characters; what is behind it is given back. Blanks
are the space, the tabulator, the line feed and the carriage return. A numeral has no superfluous
leading zero, and at least one digit on both sides of a point and in an exponent.

The readers of values go through at most `fuel` steps. Every step but one consumes a character, so
twice the number of characters is enough (`Json.parseChars?`).

A text is read down to the depth `Json.nestingLimit`. What is nested deeper only has to be well
formed (`Json.parse?`).
-/

namespace FlowRecovery

namespace Json

/-- A blank between the parts of a document. -/
def isBlank (c : Char) : Bool := c == ' ' || c == '\t' || c == '\n' || c == '\r'

/-- Skips blanks. -/
def skip (cs : List Char) : List Char := cs.dropWhile isBlank

/-- Reads the given characters. -/
def expect (word : List Char) (cs : List Char) : Option (List Char) :=
  if word.isPrefixOf cs then some (cs.drop word.length) else none

/-- Reads one or more decimal digits. -/
def digits? (cs : List Char) : Option (List Char × List Char) :=
  if (cs.takeWhile Char.isDigit).isEmpty then none
  else some (cs.takeWhile Char.isDigit, cs.dropWhile Char.isDigit)

/-- Reads the part of a numeral before the point. -/
def whole? : List Char → Option (Nat × List Char)
  | [] => none
  | c :: rest =>
      if c = '0' then some (0, rest)
      else (digits? (c :: rest)).map fun p => (Nat.ofDigitChars 10 p.1 0, p.2)

/-- Reads the digits behind a point, if a point comes first. -/
def fraction? : List Char → Option (List Char × List Char)
  | '.' :: rest => digits? rest
  | cs => some ([], cs)

/-- Reads the digits of an exponent, and its sign if there is one. -/
def signedExponent? : List Char → Option (Int × List Char)
  | '-' :: rest => (digits? rest).map fun p => (-Int.ofNat (Nat.ofDigitChars 10 p.1 0), p.2)
  | '+' :: rest => (digits? rest).map fun p => (Int.ofNat (Nat.ofDigitChars 10 p.1 0), p.2)
  | cs => (digits? cs).map fun p => (Int.ofNat (Nat.ofDigitChars 10 p.1 0), p.2)

/-- Reads an exponent, if its mark comes first. -/
def exponent? : List Char → Option (Option Int × List Char)
  | [] => some (none, [])
  | c :: rest =>
      if c = 'e' ∨ c = 'E' then (signedExponent? rest).map fun p => (some p.1, p.2)
      else some (none, c :: rest)

/-- Reads a numeral without a sign. -/
def unsigned? (negative : Bool) (cs : List Char) : Option (Numeral × List Char) := do
  let (whole, cs) ← whole? cs
  let (fraction, cs) ← fraction? cs
  let (exponent?, cs) ← exponent? cs
  return (⟨negative, whole, fraction, exponent?⟩, cs)

/-- Reads a numeral. -/
def numeral? : List Char → Option (Numeral × List Char)
  | '-' :: rest => unsigned? true rest
  | cs => unsigned? false cs

/-- Reads a document that is a word or a numeral. -/
def scalar? (cs : List Char) : Option (Json × List Char) :=
  match expect ['n', 'u', 'l', 'l'] cs with
  | some rest => some (null, rest)
  | none =>
      match expect ['t', 'r', 'u', 'e'] cs with
      | some rest => some (bool true, rest)
      | none =>
          match expect ['f', 'a', 'l', 's', 'e'] cs with
          | some rest => some (bool false, rest)
          | none => (numeral? cs).map fun p => (number p.1, p.2)

/-- Reads the key of a member and the colon behind it. -/
def key? (cs : List Char) : Option (Literal × List Char) :=
  match skip cs with
  | '"' :: rest =>
      (Literal.scan .plain rest).bind fun p =>
        match skip p.2 with
        | ':' :: rest => some (⟨p.1⟩, rest)
        | _ => none
  | _ => none

mutual

/-- Reads a document, which may have blanks before it. -/
def value? : (fuel : Nat) → List Char → Option (Json × List Char)
  | 0, _ => none
  | fuel + 1, cs =>
      match skip cs with
      | '"' :: rest => (Literal.scan .plain rest).map fun p => (string ⟨p.1⟩, p.2)
      | '[' :: rest =>
          match skip rest with
          | ']' :: rest => some (array [], rest)
          | _ => (itemsFrom? fuel rest).map fun p => (array p.1, p.2)
      | '\x7b' :: rest =>
          match skip rest with
          | '\x7d' :: rest => some (object [], rest)
          | _ => (membersFrom? fuel rest).map fun p => (object p.1, p.2)
      | cs => scalar? cs

/-- Reads one or more items of an array, and the closing bracket. -/
def itemsFrom? : (fuel : Nat) → List Char → Option (List Json × List Char)
  | 0, _ => none
  | fuel + 1, cs =>
      (value? fuel cs).bind fun p =>
        match skip p.2 with
        | ',' :: rest => (itemsFrom? fuel rest).map fun q => (p.1 :: q.1, q.2)
        | ']' :: rest => some ([p.1], rest)
        | _ => none

/-- Reads one or more members of an object, and the closing brace. -/
def membersFrom? : (fuel : Nat) → List Char → Option (List (Literal × Json) × List Char)
  | 0, _ => none
  | fuel + 1, cs =>
      (key? cs).bind fun k =>
        (value? fuel k.2).bind fun p =>
          match skip p.2 with
          | ',' :: rest => (membersFrom? fuel rest).map fun q => ((k.1, p.1) :: q.1, q.2)
          | '\x7d' :: rest => some ([(k.1, p.1)], rest)
          | _ => none

end

/-- Reads characters that are one document and nothing else but blanks. -/
def parseChars? (cs : List Char) : Option Json :=
  (value? (2 * cs.length + 2) cs).bind fun p => if (skip p.2).isEmpty then some p.1 else none

/-- How deep a text is read. -/
def nestingLimit : Nat := 127

/-- Reads a text that is one document and nothing else but blanks, down to the greatest depth. -/
def parse? (s : String) : Option Json := (parseChars? s.toList).map (upTo nestingLimit)

end Json

end FlowRecovery
