import FlowRecovery.Json.Literal
import FlowRecovery.Json.Numeral

/-!
# JSON documents

A document is kept as it is written, less the blanks: the members of an object stay in order and may
repeat a key, and literals and numerals keep their spelling. What a document means is decided by
those who read it.

An array or an object may be given up, for being nested too deep; then only its place is kept.
-/

namespace FlowRecovery

/-- A JSON document. -/
inductive Json where
  /-- The word `null`. -/
  | null
  /-- The words `true` and `false`. -/
  | bool (b : Bool)
  /-- A numeral. -/
  | number (n : Numeral)
  /-- A string literal. -/
  | string (l : Literal)
  /-- An array. -/
  | array (items : List Json)
  /-- An object, with its members in order. -/
  | object (members : List (Literal × Json))
  /-- The place of an array or an object that was given up. -/
  | buried

namespace Json

instance : Inhabited Json := ⟨null⟩

/-! ### Writing values -/

/-- The document of a text. -/
def ofText (s : String) : Json := string (.ofText s)

/-- The document of a natural number. -/
def ofNat (n : Nat) : Json := number (.ofNat n)

/-- The document of a bounded number. -/
def ofFin {n : Nat} (i : Fin n) : Json := ofNat i.val

/-- The document of something that may be missing. -/
def ofOption {α : Type} (f : α → Json) : Option α → Json
  | none => null
  | some a => f a

/-- An object whose keys are given as texts. -/
def record (members : List (String × Json)) : Json :=
  object (members.map fun p => (.ofText p.1, p.2))

/-! ### Reading values -/

/-- The text that a document is. -/
def text? : Json → Option String
  | string l => l.text?
  | _ => none

/-- The truth value that a document is. -/
def bool? : Json → Option Bool
  | bool b => some b
  | _ => none

/-- The natural number that a document is. -/
def nat? : Json → Option Nat
  | number n => n.natural?
  | _ => none

/-- The number below `n` that a document is. -/
def fin? (n : Nat) (j : Json) : Option (Fin n) :=
  j.nat?.bind fun i => if h : i < n then some ⟨i, h⟩ else none

/-- The items of an array. -/
def items? : Json → Option (List Json)
  | array items => some items
  | _ => none

/-- The items of an array, each read by `f`. -/
def list? {α : Type} (f : Json → Option α) (j : Json) : Option (List α) :=
  j.items?.bind fun items => items.mapM f

/-! ### Meaning -/

mutual

/-- Every literal in a document stands for a text, and every numeral for a finite number; nothing
was given up. -/
def isMeaningful : Json → Bool
  | null => true
  | bool _ => true
  | number n => n.isFinite
  | string l => l.text?.isSome
  | array items => areMeaningful items
  | object members => membersMeaningful members
  | buried => false

/-- Every item is meaningful. -/
def areMeaningful : List Json → Bool
  | [] => true
  | j :: rest => isMeaningful j && areMeaningful rest

/-- Every key and every value is meaningful. -/
def membersMeaningful : List (Literal × Json) → Bool
  | [] => true
  | (key, j) :: rest => key.text?.isSome && isMeaningful j && membersMeaningful rest

end

end Json

end FlowRecovery
