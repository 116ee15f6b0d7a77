import FlowRecovery.Json.Basic

/-!
# Writing JSON

A document is written in two ways: compactly, without any blank, and over several lines, each level
two blanks further in. An array or object without items is written without a line break in both. What was
given up is written as `null`.
-/

namespace FlowRecovery

/-- The characters of a numeral. -/
def Numeral.chars (n : Numeral) : List Char :=
  (if n.negative then ['-'] else []) ++ Nat.toDigits 10 n.whole ++
    (if n.fraction.isEmpty then [] else '.' :: n.fraction) ++
    match n.exponent? with
    | none => []
    | some (.ofNat e) => 'e' :: Nat.toDigits 10 e
    | some (.negSucc e) => 'e' :: '-' :: Nat.toDigits 10 (e + 1)

/-- The characters of a string literal, with its quotes. -/
def Literal.chars (l : Literal) : List Char := '"' :: l.written ++ ['"']

namespace Json

mutual

/-- The characters of a document without blanks. -/
def chars : Json → List Char
  | null | buried => ['n', 'u', 'l', 'l']
  | bool true => ['t', 'r', 'u', 'e']
  | bool false => ['f', 'a', 'l', 's', 'e']
  | number n => n.chars
  | string l => l.chars
  | array items => '[' :: charsOfItems items
  | object members => '\x7b' :: charsOfMembers members

/-- The characters of the items of an array, and the closing bracket. -/
def charsOfItems : List Json → List Char
  | [] => [']']
  | [j] => chars j ++ [']']
  | j :: k :: rest => chars j ++ ',' :: charsOfItems (k :: rest)

/-- The characters of the members of an object, and the closing brace. -/
def charsOfMembers : List (Literal × Json) → List Char
  | [] => ['\x7d']
  | [(key, j)] => key.chars ++ ':' :: (chars j ++ ['\x7d'])
  | (key, j) :: m :: rest => key.chars ++ ':' :: (chars j ++ ',' :: charsOfMembers (m :: rest))

end

/-- The text of a document without blanks. -/
def compact (j : Json) : String := String.ofList j.chars

/-- A line break, and the blanks of a level. -/
def newline (level : Nat) : List Char := '\n' :: List.replicate (2 * level) ' '

mutual

/-- The characters of a document over several lines, the first of which stands at the given
level. -/
def prettyChars (level : Nat) : Json → List Char
  | array (j :: rest) => '[' :: newline (level + 1) ++ prettyItems level (j :: rest)
  | object (m :: rest) => '\x7b' :: newline (level + 1) ++ prettyMembers level (m :: rest)
  | j => chars j

/-- The characters of items, each on a line one level in, and the closing bracket. -/
def prettyItems (level : Nat) : List Json → List Char
  | [] => newline level ++ [']']
  | [j] => prettyChars (level + 1) j ++ newline level ++ [']']
  | j :: k :: rest =>
      prettyChars (level + 1) j ++ ',' :: newline (level + 1) ++ prettyItems level (k :: rest)

/-- The characters of members, each on a line one level in, and the closing brace. -/
def prettyMembers (level : Nat) : List (Literal × Json) → List Char
  | [] => newline level ++ ['\x7d']
  | [(key, j)] =>
      key.chars ++ ':' :: ' ' :: prettyChars (level + 1) j ++ newline level ++ ['\x7d']
  | (key, j) :: m :: rest =>
      key.chars ++ ':' :: ' ' :: prettyChars (level + 1) j ++ ',' :: newline (level + 1) ++
        prettyMembers level (m :: rest)

end

/-- The text of a document over several lines. -/
def pretty (j : Json) : String := String.ofList (prettyChars 0 j)

end Json

end FlowRecovery
