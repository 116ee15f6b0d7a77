import FlowRecovery.Json.Record
import FlowRecovery.Options

/-!
# Options as JSON

Options are a record in which every field may be missing. Only the limit on passes may be `null`.
-/

namespace FlowRecovery

namespace Options

/-- Options as a document. -/
def toJson (o : Options) : Json :=
  .record
    [("create_control_statements", .bool o.structured),
     ("show_start_offsets", .bool o.showOffsets),
     ("indent_width", .ofFin o.indentWidth),
     ("max_passes", .ofOption .ofFin o.maxPasses?),
     ("optional_params", .ofFin o.optionalParams)]

/-- Reads a count. -/
def count? (j : Json) : Option Count := j.fin? 18446744073709551616

/-- Reads options. -/
def ofJson? (j : Json) : Option Options :=
  let names := ["create_control_statements", "show_start_offsets", "indent_width", "max_passes",
    "optional_params"]
  match j.fields? names with
  | some [structured, showOffsets, indentWidth, maxPasses?, optionalParams] => do
      let structured ← Json.defaulted Options.standard.structured Json.bool? structured
      let showOffsets ← Json.defaulted Options.standard.showOffsets Json.bool? showOffsets
      let indentWidth ← Json.defaulted Options.standard.indentWidth count? indentWidth
      let maxPasses? ← Json.optional count? maxPasses?
      let optionalParams ← Json.defaulted Options.standard.optionalParams count? optionalParams
      return { structured, showOffsets, indentWidth, maxPasses?, optionalParams }
  | _ => none

end Options

end FlowRecovery
