import FlowRecovery.Inspection

/-!
# Elision of returns

The stream of a body ends with a return that was never written: an undecoded one, or one without a
value. Such returns are dropped, with everything behind the first return of the body. This is done
only when no jump was left as it is, because a jump might lead behind the return.
-/

namespace FlowRecovery

namespace Block

/-- Drops an undecoded return at the end. -/
def withoutTrailingErrorReturn (b : Block) : Block := b.trimLast Token.isErrorReturn

/-- Drops everything behind the first return directly in the block, and the return itself if it has
no value. -/
def upToReturn (b : Block) : Block :=
  match b.statements.findIdx? (Statement.isPlain Token.isReturn) with
  | none => b
  | some i =>
      if b.statements[i]?.any (Statement.isPlain Token.isValuelessReturn) then
        { b with statements := b.statements.take i }
      else { b with statements := b.statements.take (i + 1) }

/-- Drops the returns that add nothing. -/
def withoutRedundantReturns (b : Block) : Block :=
  let b := b.withoutTrailingErrorReturn
  if b.hasRawJumps then b else b.upToReturn

end Block

end FlowRecovery
