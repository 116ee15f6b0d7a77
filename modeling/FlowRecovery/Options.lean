import FlowRecovery.Offset

/-!
# Options

The options of a run. A body is structured, without offsets, four blanks per level, with the limit
on passes that suits it, and without optional parameters, unless the options say otherwise. Options may
ask for more optional parameters than there is room for (`Options.parametersFit`).
-/

namespace FlowRecovery

/-- The number of blanks per level of indentation, if nothing else is asked for. -/
def standardIndent : Count := ⟨4, by decide⟩

/-- How bodies are decompiled. -/
structure Options where
  /-- Structured statements are recovered; otherwise jumps are printed as they are. -/
  structured : Bool
  /-- Instructions are printed with their offsets. -/
  showOffsets : Bool
  /-- The number of blanks per level of indentation. -/
  indentWidth : Count
  /-- A limit on the number of passes over a body. -/
  maxPasses? : Option Count
  /-- The number of optional parameters, whose default values stand at the front of a body. -/
  optionalParams : Count
  deriving DecidableEq

/-- The options that hold if nothing else is asked for. -/
def Options.standard : Options := ⟨true, false, standardIndent, none, Count.zero⟩

instance : Inhabited Options := ⟨Options.standard⟩

/-- The greatest number of optional parameters whose default values fit into a list: with 24 bytes
for each, the list takes up less than half of a 64-bit address space. -/
def Options.parameterLimit : Nat := (Nat.pow 2 63 - 1) / 24

/-- The default values of all optional parameters fit into a list. -/
def Options.parametersFit (o : Options) : Bool := decide (o.optionalParams.val ≤ parameterLimit)

end FlowRecovery
