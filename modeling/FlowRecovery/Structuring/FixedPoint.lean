import FlowRecovery.Structuring.Outcome
import FlowRecovery.Structuring.Rewrite

/-!
# Structuring

A pass over a block applies its first rewrite. A rewrite that makes a composite statement also
structures the children of that statement, as a block of their own, and tidies them. Passes are
repeated until one finds no rewrite, or until more of them rewrite than a limit allows; then the
block is left as the last of them made it.

The limit concerns one block. The children of new composite statements are always structured with
the limit that suits them, one more than their number, which `Block.structured` uses for the block
itself as well.

The children of a composite statement are fewer than the statements of the block that it was made
in, so the nesting that structuring goes through is bounded by the length of the block; `structureTo`
takes that bound as its first argument.
-/

namespace FlowRecovery

/-- Structures the children of a composite statement by `inner` and tidies them. If `inner` was
stopped, the children stay as it left them. -/
def Statement.finish (inner : Block → Outcome Block) : Statement → Outcome Statement
  | .composite start scope head stop frames children =>
      ((inner ⟨frames, children⟩).andThen fun b => .done (b.tidy head start stop)).map fun b =>
        .composite start scope head stop frames b.statements
  | s => .done s

/-- Finishes statements one after the other, up to the first that is stopped. -/
def Statement.finishAll (inner : Block → Outcome Block) :
    List Statement → Outcome (List Statement)
  | [] => .done []
  | s :: rest =>
      match s.finish inner with
      | ⟨finished, none⟩ => (finishAll inner rest).map (finished :: ·)
      | ⟨left, some e⟩ => ⟨[left], some e⟩

namespace Block

/-- Applies a rewrite: the new statements are put into the scope of the block and finished. -/
def apply (inner : Block → Outcome Block) (b : Block) (r : Rewrite) : Outcome Block :=
  (Statement.finishAll inner (Statement.adoptAll b.scope r.made)).map fun made =>
    { b with statements := b.statements.take r.first ++ made ++ b.statements.drop r.after }

/-- One pass: the first rewrite of the block, if there is one, is applied. -/
def pass? (inner : Block → Outcome Block) (b : Block) : Option (Outcome Block) :=
  b.firstRewrite?.map (b.apply inner)

/-- Passes until one finds nothing to rewrite. After `remaining` passes that rewrite, one more is an
error, reported against `limit`. -/
def runPasses (inner : Block → Outcome Block) (limit : Nat) : Nat → Block → Outcome Block
  | 0, b =>
      match b.pass? inner with
      | none => .done b
      | some r => r.andThen fun b => ⟨b, some ⟨limit + 1, b.start⟩⟩
  | remaining + 1, b =>
      match b.pass? inner with
      | none => .done b
      | some r => r.andThen (runPasses inner limit remaining)

/-- Structures a block through at most `depth` levels of nesting. -/
def structureTo : (depth : Nat) → Block → Outcome Block
  | 0, b => .done b
  | depth + 1, b => runPasses (structureTo depth) (b.length + 1) (b.length + 1) b

/-- Structures a block with a limit on the number of its own passes. -/
def structureWithin (limit : Nat) (b : Block) : Outcome Block :=
  runPasses (structureTo b.length) limit limit b

/-- Structures a block. -/
def structured (b : Block) : Outcome Block := b.structureWithin (b.length + 1)

@[simp] theorem runPasses_of_pass?_eq_none {inner : Block → Outcome Block} {b : Block}
    (h : b.pass? inner = none) (limit remaining : Nat) :
    runPasses inner limit remaining b = .done b := by
  cases remaining <;> simp [runPasses, h]

end Block

end FlowRecovery
