import FlowRecovery.Json.Basic
import FlowRecovery.Labels

/-!
# Label tables as JSON

A label table is an object. Its keys are offsets in decimal, written without escapes and without
superfluous zeros; its values are the labels. Repeated keys are inserted one after the other, so the
last value stands in the place of the first.

A reader that takes keys as texts and not as numbers accepts no key at all (`Keys.asText`); it reads
the empty table only.
-/

namespace FlowRecovery

/-- How the keys of label tables are taken. -/
inductive Keys where
  /-- As they are written, so that they can be numbers. -/
  | asWritten
  /-- As texts, which are no offsets. -/
  | asText
  deriving DecidableEq

/-- The offset that a key writes. -/
def Literal.offset? (key : Literal) : Option Offset :=
  match key.written with
  | [] => none
  | c :: rest =>
      if (c :: rest).all Char.isDigit = true ∧ (c ≠ '0' ∨ rest = []) then
        if h : Nat.ofDigitChars 10 (c :: rest) 0 < 4294967296 then
          some ⟨Nat.ofDigitChars 10 (c :: rest) 0, h⟩
        else none
      else none

namespace Labels

/-- The key of an offset. -/
def key (o : Offset) : Literal := ⟨Nat.toDigits 10 o.val⟩

/-- A label table as a document. -/
def toJson (t : Labels) : Json := .object (t.entries.map fun p => (key p.1, .ofText p.2))

/-- Reads a member of a label table. -/
def entry? (p : Literal × Json) : Option (Offset × String) :=
  p.1.offset?.bind fun o => p.2.text?.map fun name => (o, name)

/-- Reads a label table. -/
def ofJson? (keys : Keys) : Json → Option Labels
  | .object members =>
      match keys with
      | .asWritten => (members.mapM entry?).map ofList
      | .asText => if members.isEmpty then some empty else none
  | _ => none

end Labels

end FlowRecovery
