import FlowRecovery.Json.Basic

/-!
# Records

A record is written as an object with named fields. It is read from an object, or from an array that
lists the fields in their declared order and may stop early. In an object, fields that are not
declared are ignored, and a declared field stands at most once.

A field that is missing is `none` here; whether it may be missing is for the field to say
(`Json.required`, `Json.optional`, `Json.defaulted`).
-/

namespace FlowRecovery

namespace Json

/-- The members of an object with the texts of their keys. -/
def namedMembers? (members : List (Literal × Json)) : Option (List (String × Json)) :=
  members.mapM fun p => p.1.text?.map fun name => (name, p.2)

/-- The value of the field `name`, which may be missing but not stand twice. -/
def field? (members : List (String × Json)) (name : String) : Option (Option Json) :=
  match members.filter fun p => p.1 == name with
  | [] => some none
  | [p] => some (some p.2)
  | _ => none

/-- The values of the declared fields, in declared order. -/
def fields? (names : List String) : Json → Option (List (Option Json))
  | object members => (namedMembers? members).bind fun ms => names.mapM (field? ms)
  | array items =>
      if items.length ≤ names.length then
        some (items.map some ++ List.replicate (names.length - items.length) none)
      else none
  | _ => none

/-- Reads a field that must be there. -/
def required {α : Type} (read : Json → Option α) (field : Option Json) : Option α :=
  field.bind read

/-- Reads a field that may be missing or `null`. -/
def optional {α : Type} (read : Json → Option α) : Option Json → Option (Option α)
  | none => some none
  | some null => some none
  | some j => (read j).map some

/-- Reads a field that has the value `a` when it is missing. -/
def defaulted {α : Type} (a : α) (read : Json → Option α) : Option Json → Option α
  | none => some a
  | some j => read j

end Json

end FlowRecovery
