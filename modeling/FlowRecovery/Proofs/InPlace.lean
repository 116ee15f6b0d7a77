import FlowRecovery.Structuring.FixedPoint
import Mathlib.Data.Nat.PSub

/-!
# Structuring in place

Structuring as a program on one list of statements that it changes place by place. A rewrite cuts
ranges out of the list, puts composite statements back in and goes into their children; the tidying
loops run over the children by index. Nothing is taken for granted: an index that no statement stands
at, a range that does not fit, a place to insert at behind the end, and a difference below zero have no
result, and neither has nesting deeper than the bound that is given. So a program with a result has
gone through without any of these.

Putting a statement into a block need not go into a composite statement that is in the right scope
already, provided that this can be seen without comparing scopes: `Sameness` is a test that may find two
scopes to be the same object. `Statement.moveTo` adopts a statement under such a test.
-/

namespace FlowRecovery

/-- A test that may find two scopes to be one object. It can miss equal scopes, but it never takes
different ones for the same. -/
structure Sameness where
  /-- The two scopes are found to be the same. -/
  same : Scope → Scope → Bool
  /-- Scopes that are found to be the same are equal. -/
  eq_of_same : ∀ {scope scope' : Scope}, same scope scope' = true → scope = scope'

/-- The test that never finds anything. -/
def Sameness.never : Sameness := ⟨fun _ _ => false, nofun⟩

namespace Statement

mutual

/-- Puts a statement into the scope `scope`. A composite statement is left alone if the scope around
its children is found to be that scope. -/
def moveTo (t : Sameness) (scope : Scope) : Statement → Statement
  | plain start stop? _ token => plain start stop? scope token
  | escape start _ how token => escape start scope how token
  | composite start _ head stop inner children =>
      if t.same inner.tail scope then composite start scope head stop inner children
      else
        composite start scope head stop (⟨head.kind, start, stop⟩ :: scope)
          (moveAllTo t (⟨head.kind, start, stop⟩ :: scope) children)

/-- Puts statements into the scope `scope`. -/
def moveAllTo (t : Sameness) (scope : Scope) : List Statement → List Statement
  | [] => []
  | s :: rest => moveTo t scope s :: moveAllTo t scope rest

end

/-- A composite statement over the statements `children`, in no block yet. -/
def wrapBy (t : Sameness) (start : Offset) (head : Head) (children : List Statement)
    (stop : Offset) : Statement :=
  composite start [] head stop [⟨head.kind, start, stop⟩]
    (moveAllTo t [⟨head.kind, start, stop⟩] children)

mutual

/-- Removes the ends of iterators that stand directly before a return, inside a statement. -/
def popsWithin? : Statement → Option Statement
  | composite start scope head stop inner children =>
      (popsFrom? children 0 children).map (composite start scope head stop inner)
  | s => some s

/-- Removes the ends of iterators that stand directly before a return, from place `i` of the list `l`
on, where the statements `ahead` stand. -/
def popsFrom? (l : List Statement) (i : Nat) : List Statement → Option (List Statement)
  | [] => some l
  | [last] => do
      let last ← popsWithin? last
      if i < l.length then some (l.set i last) else none
  | s :: next :: rest => do
      if (← l[i]?).isPlain Token.isIteratorPop && (← l[i + 1]?).isPlain Token.isReturn then
        popsFrom? (l.eraseIdx i) (i + 1) rest
      else
        let s ← popsWithin? s
        if i < l.length then popsFrom? (l.set i s) (i + 1) (next :: rest) else none

end

end Statement

namespace Block

/-! ### Changing a block -/

/-- Appends a statement. -/
def pushBy (t : Sameness) (b : Block) (s : Statement) : Block :=
  { b with statements := b.statements ++ [s.moveTo t b.scope] }

/-- Inserts a statement at place `i`, which may be the end. -/
def insertBy? (t : Sameness) (b : Block) (i : Nat) (s : Statement) : Option Block :=
  if i ≤ b.length then
    some
      { b with statements := b.statements.take i ++ s.moveTo t b.scope :: b.statements.drop i }
  else none

/-- Replaces `count` statements from place `i` on by one statement, if there are so many. -/
def replaceRangeBy? (t : Sameness) (b : Block) (i count : Nat) (s : Statement) : Option Block := do
  let b ← b.removeRange? i count
  b.insertBy? t i s

/-- The statement before place `i` is an instruction of a given kind; there need be none. -/
def follows? (b : Block) (i : Nat) (p : Token → Bool) : Option Bool :=
  if 0 < i then do
    let s ← b.statements[← i.psub 1]?
    some (s.isPlain p)
  else some false

/-! ### Tidying -/

/-- Turns the jumps to `stop` among the `ahead` statements from place `i` on into breaks, and deletes
those that stand directly after a return. -/
def breaksFrom? (t : Sameness) (stop : Offset) : (ahead i : Nat) → Block → Option Block
  | 0, _, b => some b
  | ahead + 1, i, b => do
      let s ← b.statements[i]?
      if s.jumpTarget? == some stop then
        if ← b.follows? i Token.isReturn then
          breaksFrom? t stop ahead i (← b.removeRange? i 1)
        else
          breaksFrom? t stop ahead (i + 1)
            (← b.replaceRangeBy? t i 1 (.escape s.start [] .leave (.jump stop)))
      else breaksFrom? t stop ahead (i + 1) b

/-- Takes the framing instructions out of the structured children of a composite statement. -/
def tidyInPlace? (t : Sameness) (head : Head) (start stop : Offset) (b : Block) : Option Block :=
  match head with
  | .whileHead _ => some (b.trimLast (Token.isJumpTo start))
  | .foreachHead _ _ => do
      let b := (b.trimLast Token.isIteratorPop).trimLast Token.isIteratorNext
      some { b with statements := ← Statement.popsFrom? b.statements 0 b.statements }
  | .switchHead _ => do
      let b ← b.breaksFrom? t stop b.length 0
      some (b.trimLast Token.isDefaultLabel)
  | .ifHead _ | .elseHead => some b

/-! ### Rewrites

In what follows, `inner` structures the children of a composite statement. -/

/-- Structures and tidies the children of the statement at place `i`. -/
def finishAt? (t : Sameness) (inner : Block → Option (Outcome Block)) (b : Block) (i : Nat) :
    Option (Outcome Block) :=
  match b.statements[i]? with
  | some (.composite start scope head stop frames children) => do
      let r ← inner ⟨frames, children⟩
      let tidied ← match r.stopped? with
        | none => r.value.tidyInPlace? t head start stop
        | some _ => some r.value
      some
        ⟨{ b with
            statements :=
              b.statements.set i (.composite start scope head stop frames tidied.statements) },
          r.stopped?⟩
  | _ => some (.done b)

/-- Cuts out the statements between place `i` and place `bodyEnd`, replaces `count` statements from
place `i` on by a composite statement over them, and goes into it. -/
def fold? (t : Sameness) (inner : Block → Option (Outcome Block)) (b : Block)
    (i bodyEnd count : Nat) (start : Offset) (head : Head) (stop : Offset) :
    Option (Outcome Block) := do
  let (body, b) ← b.cutRange? (i + 1) (← (← bodyEnd.psub i).psub 1)
  let b ← b.replaceRangeBy? t i count (.wrapBy t start head body.statements stop)
  b.finishAt? t inner i

/-- What a conditional jump becomes: the head, the place and the offset at which the first branch ends,
and where the second branch ends, if there is one. -/
structure BranchShape where
  /-- The head of the composite statement. -/
  head : Head
  /-- The place behind the body. -/
  bodyEnd : Nat
  /-- Where control goes on after the composite statement. -/
  stop : Offset
  /-- The place behind the second branch, and where control goes on after it. -/
  second? : Option (Nat × Offset)

/-- What the conditional jump at the offset `start` becomes, whose target leads to place `split`. -/
def branchShape? (b : Block) (condition : Token) (start target : Offset) (split : Nat) :
    Option BranchShape := do
  let before ← split.psub 1
  let last ← b.statements[before]?
  match last.jumpTarget? with
  | none => some ⟨.ifHead condition, split, target, none⟩
  | some x =>
      if x = start then some ⟨.whileHead condition, split, target, none⟩
      else
        match b.secondBranchEnd? split x with
        | none => some ⟨.ifHead condition, split, target, none⟩
        | some after => some ⟨.ifHead condition, before, last.start, some (after, x)⟩

/-- Rewrites the conditional jump at place `i`, whose target leads to place `split`. The second branch
is cut out first, so that the places before it stay where they are. -/
def foldBranch? (t : Sameness) (inner : Block → Option (Outcome Block)) (b : Block) (i : Nat)
    (condition : Token) (target : Offset) (split : Nat) : Option (Outcome Block) := do
  let s ← b.statements[i]?
  let shape ← b.branchShape? condition s.start target split
  let count := 1 + (← split.psub shape.bodyEnd)
  match shape.second? with
  | none => b.fold? t inner i shape.bodyEnd count s.start shape.head shape.stop
  | some (after, stop) => do
      let o ← b.statements[split]?
      let (other, b) ← b.cutRange? split (← after.psub split)
      let r ← b.fold? t inner i shape.bodyEnd count s.start shape.head shape.stop
      match r.stopped? with
      | some _ => some r
      | none => do
          let b ← r.value.insertBy? t (i + 1) (.wrapBy t o.start .elseHead other.statements stop)
          b.finishAt? t inner (i + 1)

/-- Rewrites the jump at place `i`, if it leads out of a loop. -/
def turnJump? (t : Sameness) (b : Block) (i : Nat) (target : Offset) : Option (Option Block) :=
  match b.scope.loopExit? target with
  | none => some none
  | some frame => do
      let s ← b.statements[i]?
      if frame.kind = .foreachLoop ∧ (← b.follows? i Token.isIteratorNext) = true then
        some (← b.replaceRangeBy? t (← i.psub 1) 2 (.escape s.start [] .advance (.jump target)))
      else some (← b.replaceRangeBy? t i 1 (.escape s.start [] .leave (.jump target)))

/-- Where a selection ends, if that can be told: looks through `ahead` statements from place `j` on. The
clauses start at place `first`. -/
def selectionEndAt? (b : Block) (first : Nat) :
    (ahead j : Nat) → Option (Option (Nat × Offset))
  | 0, _ =>
      match b.last? with
      | some s =>
          if s.isPlain Token.isErrorReturn && first < b.length then do
            some (some (← b.length.psub 1, s.start))
          else some (some (b.length, b.stop))
      | none => some (some (b.length, b.stop))
  | ahead + 1, j => do
      let s ← b.statements[j]?
      let leads ←
        if s.isPlain Token.isCaseLabel then do
          let previous ← b.statements[← j.psub 1]?
          some previous.jumpTarget?
        else some none
      match leads with
      | some target => some ((b.find? target j).map fun after => (after, target))
      | none =>
          if s.isPlain Token.isSwitch then some none
          else b.selectionEndAt? first ahead (j + 1)

/-- Looks for a rewrite at place `i` and makes it. -/
def rewriteInPlace? (t : Sameness) (inner : Block → Option (Outcome Block)) (b : Block) (i : Nat) :
    Option (Option (Outcome Block)) := do
  let s ← b.statements[i]?
  let iteration (collection : Token) (iterator? : Option Token) (target : Offset) :=
    match target.next?.bind fun exit => b.find? exit (i + 1) with
    | none => some none
    | some after => do
        some (← b.fold? t inner i after 1 s.start (.foreachHead collection iterator?) target)
  match s.token? with
  | some (.jumpIfNot condition target) =>
      match b.find? target 0 with
      | none => some none
      | some split =>
          if i < split then do some (← b.foldBranch? t inner i condition target split)
          else some none
  | some (.jump target) => do
      let b ← b.turnJump? t i target
      some (b.map .done)
  | some (.foreach collection target) => iteration collection none target
  | some (.foreachWith collection iterator target) => iteration collection (some iterator) target
  | some (.switch discriminant) => do
      match ← b.selectionEndAt? (i + 1) (b.length - (i + 1)) (i + 1) with
      | none => some none
      | some (after, stop) =>
          some (← b.fold? t inner i after 1 s.start (.switchHead discriminant) stop)
  | _ => some none

/-! ### Passes -/

/-- One pass over the `ahead` statements from place `i` on. -/
def passFrom? (t : Sameness) (inner : Block → Option (Outcome Block)) (b : Block) :
    (ahead i : Nat) → Option (Option (Outcome Block))
  | 0, _ => some none
  | ahead + 1, i => do
      match ← b.rewriteInPlace? t inner i with
      | some r => some (some r)
      | none => b.passFrom? t inner ahead (i + 1)

/-- Passes until one finds nothing to rewrite; after `remaining` passes that rewrite, one more is an
error. -/
def passesInPlace? (t : Sameness) (inner : Block → Option (Outcome Block)) (limit : Nat) :
    (remaining : Nat) → Block → Option (Outcome Block)
  | 0, b => do
      match ← b.passFrom? t inner b.length 0 with
      | none => some (.done b)
      | some r => some (r.andThen fun b => ⟨b, some ⟨limit + 1, b.start⟩⟩)
  | remaining + 1, b => do
      match ← b.passFrom? t inner b.length 0 with
      | none => some (.done b)
      | some r =>
          match r.stopped? with
          | none => passesInPlace? t inner limit remaining r.value
          | some _ => some r

/-- Structures a block in place through fewer than `depth` levels of nesting. The children of composite
statements are structured with the limit that suits them. -/
def structureInPlace? (t : Sameness) : (depth limit : Nat) → Block → Option (Outcome Block)
  | 0, _, _ => none
  | depth + 1, limit, b =>
      passesInPlace? t (fun c => structureInPlace? t depth (c.length + 1) c) limit limit b

end Block

end FlowRecovery
