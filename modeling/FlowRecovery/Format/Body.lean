import FlowRecovery.Body
import FlowRecovery.Json.Basic

/-!
# Decompiled bodies as JSON
-/

namespace FlowRecovery

/-- A line of a source map as a document. -/
def Span.toJson (s : Span) : Json :=
  .record
    [("line", .ofNat s.line), ("start_offset", .ofFin s.start),
     ("end_offset", .ofOption .ofFin s.stop?)]

/-- A decompiled body as a document. -/
def Body.toJson (b : Body) : Json :=
  .record
    [("text", .ofText b.text), ("has_errors", .bool b.hasErrors),
     ("incomplete_control_flow", .bool b.incomplete),
     ("default_values", .array (b.defaultValues.map (.ofOption .ofText))),
     ("source_map", .array (b.sourceMap.map Span.toJson))]

end FlowRecovery
