import FlowRecovery.Block

/-!
# Tidying new composite statements

The instructions that frame a loop or a clause are still among the children when a composite
statement is made, because the structuring of the children needs them. They are taken away
afterwards: the jump back of a conditional loop, the step and the end of an iteration, the jumps out
of a selection.
-/

namespace FlowRecovery

namespace Statement

mutual

/-- Removes, at every depth of a statement, the ends of iterators that stand directly before a
return. -/
def withoutPops : Statement → Statement
  | composite start scope head stop inner children =>
      composite start scope head stop inner (removePops children)
  | s => s

/-- Removes the ends of iterators that stand directly before a return, at every depth. -/
def removePops : List Statement → List Statement
  | [] => []
  | s :: rest =>
      if s.isPlain Token.isIteratorPop && rest.head?.any (isPlain Token.isReturn) then
        removePops rest
      else withoutPops s :: removePops rest

end

/-- Turns the jumps to `stop` among the statements of a selection into breaks. A jump directly
after a return is never reached and is deleted; `afterReturn` says that the statement before the
list is a return. -/
def breaksTo (stop : Offset) (scope : Scope) (afterReturn : Bool) :
    List Statement → List Statement
  | [] => []
  | s :: rest =>
      if s.jumpTarget? == some stop then
        if afterReturn then breaksTo stop scope true rest
        else escape s.start scope .leave (.jump stop) :: breaksTo stop scope false rest
      else s :: breaksTo stop scope (s.isPlain Token.isReturn) rest

theorem removePops_cons_of_not {s : Statement} {rest : List Statement}
    (h : s.isPlain Token.isIteratorPop = false) :
    removePops (s :: rest) = s.withoutPops :: removePops rest := by
  simp [removePops, h]

end Statement

namespace Block

/-- Takes the framing instructions out of the structured children of a composite statement with the
given head, start and end. -/
def tidy (head : Head) (start stop : Offset) (b : Block) : Block :=
  match head with
  | .whileHead _ => b.trimLast (Token.isJumpTo start)
  | .foreachHead _ _ =>
      let b := (b.trimLast Token.isIteratorPop).trimLast Token.isIteratorNext
      { b with statements := Statement.removePops b.statements }
  | .switchHead _ =>
      { b with statements := Statement.breaksTo stop b.scope false b.statements }.trimLast
        Token.isDefaultLabel
  | .ifHead _ | .elseHead => b

@[simp] theorem scope_tidy (head : Head) (start stop : Offset) (b : Block) :
    (b.tidy head start stop).scope = b.scope := by
  cases head <;> simp [tidy]

end Block

end FlowRecovery
