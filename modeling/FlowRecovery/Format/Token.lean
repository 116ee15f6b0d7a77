import FlowRecovery.Format.Labels
import FlowRecovery.Json.Nesting
import FlowRecovery.Json.Record
import FlowRecovery.Token

/-!
# Tokens as JSON

A token is an object with one member, whose key names the kind of the token. The kinds without
contents are written as the name alone, and may be read from an object whose value is `null`.
-/

namespace FlowRecovery

namespace Token

/-- A token as a document. -/
def toJson : Token → Json
  | expression text => .record [("expression", .ofText text)]
  | jumpIfNot condition target =>
      .record [("jump_if_not",
        .record [("condition", condition.toJson), ("target", .ofFin target)])]
  | jump target => .record [("jump", .record [("target", .ofFin target)])]
  | foreach collection target =>
      .record [("foreach", .record
        [("collection", collection.toJson), ("iterator", .null), ("target", .ofFin target)])]
  | foreachWith collection iterator target =>
      .record [("foreach", .record
        [("collection", collection.toJson), ("iterator", iterator.toJson),
         ("target", .ofFin target)])]
  | iteratorNext => .ofText "iterator_next"
  | iteratorPop => .ofText "iterator_pop"
  | switch discriminant =>
      .record [("switch", .record [("discriminant", discriminant.toJson)])]
  | caseLabel text => .record [("case", .ofText text)]
  | defaultLabel => .ofText "default"
  | ret => .record [("return", .null)]
  | retValue value => .record [("return", value.toJson)]
  | labelTable labels => .record [("label_table", labels.toJson)]
  | nothing => .ofText "nothing"
  | defaultParamValue value => .record [("default_param_value", value.toJson)]
  | undecoded message opcode =>
      .record [("error", .record
        [("message", .ofText message), ("opcode", .ofOption .ofFin opcode)])]

/-- The kinds of tokens without contents. -/
def ofName? (name : String) : Option Token :=
  if name = "iterator_next" then some iteratorNext
  else if name = "iterator_pop" then some iteratorPop
  else if name = "default" then some defaultLabel
  else if name = "nothing" then some nothing
  else none

/-- Reads the fields of a conditional jump; `read` reads the tokens inside. -/
def jumpIfNotOf? (read : Json → Option Token) (j : Json) : Option Token :=
  match j.fields? ["condition", "target"] with
  | some [condition, target] => do
      let condition ← Json.required read condition
      let target ← Json.required (Json.fin? 4294967296) target
      return jumpIfNot condition target
  | _ => none

/-- Reads the field of a jump. -/
def jumpOf? (j : Json) : Option Token :=
  match j.fields? ["target"] with
  | some [target] => (Json.required (Json.fin? 4294967296) target).map jump
  | _ => none

/-- Reads the fields of an iteration; `read` reads the tokens inside. -/
def foreachOf? (read : Json → Option Token) (j : Json) : Option Token :=
  match j.fields? ["collection", "iterator", "target"] with
  | some [collection, iterator?, target] => do
      let collection ← Json.required read collection
      let iterator? ← Json.optional read iterator?
      let target ← Json.required (Json.fin? 4294967296) target
      return foreachOver collection iterator? target
  | _ => none

/-- Reads the field of a selection; `read` reads the token inside. -/
def switchOf? (read : Json → Option Token) (j : Json) : Option Token :=
  match j.fields? ["discriminant"] with
  | some [discriminant] => (Json.required read discriminant).map switch
  | _ => none

/-- Reads the fields of an undecoded instruction. -/
def undecodedOf? (j : Json) : Option Token :=
  match j.fields? ["message", "opcode"] with
  | some [message, opcode] => do
      let message ← Json.required Json.text? message
      let opcode ← Json.optional (Json.fin? 256) opcode
      return undecoded message opcode
  | _ => none

/-- Reads the contents of a token of the kind `name`; `read` reads the tokens inside. -/
def ofMember? (keys : Keys) (read : Json → Option Token) (name : String) (j : Json) :
    Option Token :=
  if name = "expression" then j.text?.map expression
  else if name = "jump_if_not" then jumpIfNotOf? read j
  else if name = "jump" then jumpOf? j
  else if name = "foreach" then foreachOf? read j
  else if name = "switch" then switchOf? read j
  else if name = "case" then j.text?.map caseLabel
  else if name = "return" then (Json.optional read (some j)).map retOf
  else if name = "label_table" then (Labels.ofJson? keys j).map labelTable
  else if name = "default_param_value" then (read j).map defaultParamValue
  else if name = "error" then undecodedOf? j
  else
    match j with
    | .null => ofName? name
    | _ => none

/-- Reads a token from a document of at most the given depth. -/
def ofJsonWithin? (keys : Keys) : (depth : Nat) → Json → Option Token
  | _, .string l => l.text?.bind ofName?
  | depth + 1, .object [(key, j)] =>
      key.text?.bind fun name => ofMember? keys (ofJsonWithin? keys depth) name j
  | _, _ => none

/-- Reads a token. -/
def ofJson? (keys : Keys) (j : Json) : Option Token := ofJsonWithin? keys j.depth j

end Token

end FlowRecovery
