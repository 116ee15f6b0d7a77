import FlowRecovery.Elision
import FlowRecovery.Listing
import FlowRecovery.Options
import FlowRecovery.Printer
import FlowRecovery.Structuring.FixedPoint

/-!
# Bodies

Decompiling a body takes its label tables out, takes the default values of its optional parameters
off the front, recovers structured statements, drops returns that add nothing, and prints the rest.
A limit that stops the recovery is no failure: what was recovered by then is printed, and the body
is marked as incomplete. A body is also incomplete when jumps were left as they are.

What decompiling makes of a body is `Block.decompile`, whatever the options are. A run has to hold
the default values, though, so it decompiles nothing if they do not fit (`Block.decompile?`,
`decompileAll?`).
-/

namespace FlowRecovery

/-- What decompiling makes of a body. -/
structure Body where
  /-- The text. -/
  text : String
  /-- Some instruction could not be decoded. -/
  hasErrors : Bool
  /-- Some jumps were not turned into structured statements. -/
  incomplete : Bool
  /-- The default values of the optional parameters, in order. -/
  defaultValues : List (Option String)
  /-- The lines of the instructions. -/
  sourceMap : List Span
  deriving DecidableEq

namespace Block

/-- The label tables directly in the block, in order. -/
def labelTables (b : Block) : List Labels :=
  b.statements.filterMap fun s => s.token?.bind Token.labelTable?

/-- The labels of all label tables directly in the block, with the block that has no label tables.
Where two tables name an offset, the later one wins. -/
def takeLabels (b : Block) : Labels × Block :=
  (b.labelTables.foldl Labels.merge ∅,
    { b with
      statements :=
        b.statements.filter fun s => (s.token?.bind Token.labelTable?).isNone })

/-- Structures a body as the options say. -/
def structuredBy (options : Options) (b : Block) : Outcome Block :=
  match options.maxPasses? with
  | some limit => b.structureWithin limit.val
  | none => b.structured

/-- Decompiles a body. -/
def decompile (options : Options) (b : Block) : Body :=
  let (labels, b) := b.takeLabels
  let (defaultValues, b) := b.takeDefaults options.optionalParams.val
  let outcome : Outcome Block :=
    if options.structured then (b.structuredBy options).map withoutRedundantReturns
    else .done b
  let layout : Layout := ⟨options.indentWidth.val, options.showOffsets, labels⟩
  let (text, sourceMap) := outcome.value.print layout 0
  { text
    hasErrors := b.hasErrors
    incomplete := outcome.stopped?.isSome || outcome.value.hasRawJumps
    defaultValues
    sourceMap }

/-- Decompiles a body, if its default values fit. -/
def decompile? (options : Options) (b : Block) : Option Body :=
  if options.parametersFit then some (b.decompile options) else none

end Block

/-- Decompiles the body of a listing. -/
def Listing.decompile (options : Options) (l : Listing) : Except InvalidListing Body :=
  (Listing.body l).map (Block.decompile options)

/-- Decompiles listings independently of each other. -/
def decompileAll (options : Options) (ls : List Listing) : List (Except InvalidListing Body) :=
  ls.map (Listing.decompile options)

/-- Decompiles listings, if the default values of all bodies fit. A listing that is not accepted has
no body. Where the values of one body do not fit, nothing is left of the others either. -/
def decompileAll? (options : Options) (ls : List Listing) :
    Option (List (Except InvalidListing Body)) :=
  if options.parametersFit || ls.all (fun l => (Listing.fault? l).isSome) then
    some (decompileAll options ls)
  else none

end FlowRecovery
