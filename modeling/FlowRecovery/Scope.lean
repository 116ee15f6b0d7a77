import FlowRecovery.Offset

/-!
# Scopes

A frame describes one composite statement to the statements inside it: its kind, where it starts,
and the offset at which control goes on once it is done. A scope is the chain of frames around a
block, innermost first; the scope of a whole body is empty.
-/

namespace FlowRecovery

/-- The kinds of composite statements. -/
inductive BlockKind where
  /-- The first branch of a conditional. -/
  | ifBlock
  /-- The second branch of a conditional. -/
  | elseBlock
  /-- The body of a conditional loop. -/
  | whileLoop
  /-- The body of an iteration. -/
  | foreachLoop
  /-- The clauses of a selection. -/
  | switchBlock
  deriving DecidableEq

/-- The kinds that a `break` out of a loop can leave. -/
def BlockKind.isLoop : BlockKind → Bool
  | .whileLoop | .foreachLoop => true
  | _ => false

/-- A composite statement as the statements inside it see it. -/
structure Frame where
  /-- What the composite statement is. -/
  kind : BlockKind
  /-- Where it starts. -/
  start : Offset
  /-- Where control goes on after it. -/
  stop : Offset
  deriving DecidableEq

/-- The frames around a block, innermost first. -/
abbrev Scope := List Frame

/-- The innermost loop around a block that exits to `target`. -/
def Scope.loopExit? (scope : Scope) (target : Offset) : Option Frame :=
  scope.find? fun frame => frame.kind.isLoop && frame.stop == target

end FlowRecovery
