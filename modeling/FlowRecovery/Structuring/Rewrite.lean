import FlowRecovery.Structuring.Tidy

/-!
# Rewrites

A rewrite replaces a run of statements in a block by one or two new ones. The shapes are those in
which a compiler lays out structured code:

```text
if:       jumpIfNot c END   body...                        END:
if-else:  jumpIfNot c ELSE  body...  jump END  ELSE: body...  END:
while:    HEAD: jumpIfNot c END  body...  jump HEAD        END:
foreach:  foreach e POP     body...  iteratorNext  POP: iteratorPop
switch:   switch d          label:... jump END  label:...  END:
```

A jump to the end of a loop around the block becomes a `break`, or a `continue` where it stands
directly behind the step of an iterator.

`Block.firstRewrite?` finds the rewrite at the earliest place that has one. Finding a rewrite does
not look inside composite statements, and does not change the block.
-/

namespace FlowRecovery

/-- The statements from place `first` up to but not including place `after` give way to `made`. -/
structure Rewrite where
  /-- The first place that is replaced. -/
  first : Nat
  /-- The place after the last one that is replaced. -/
  after : Nat
  /-- The statements that take their place. -/
  made : List Statement

namespace Block

/-! ### Conditional jumps -/

/-- Where the second branch of a conditional ends, if there is one: the first branch ends, before
place `split`, with a jump to `target`, and the jump leads over some statements and not out of a
loop. -/
def secondBranchEnd? (b : Block) (split : Nat) (target : Offset) : Option Nat :=
  if (b.scope.loopExit? target).isSome then none
  else (b.find? target (split + 1)).filter fun after => split < after

/-- The rewrite for the conditional jump at place `i`, whose target leads to the later place
`split`. -/
def branchRewrite (b : Block) (i : Nat) (condition : Token) (target : Offset) (split : Nat) :
    Rewrite :=
  let start := b.startAt i
  let conditional : Rewrite :=
    ⟨i, split, [.wrap start (.ifHead condition) (b.slice (i + 1) split) target]⟩
  match b.jumpTargetAt? (split - 1) with
  | none => conditional
  | some jumpTarget =>
      if jumpTarget = start then
        ⟨i, split, [.wrap start (.whileHead condition) (b.slice (i + 1) split) target]⟩
      else
        match b.secondBranchEnd? split jumpTarget with
        | none => conditional
        | some after =>
            ⟨i, after,
              [.wrap start (.ifHead condition) (b.slice (i + 1) (split - 1))
                (b.startAt (split - 1)),
               .wrap (b.startAt split) .elseHead (b.slice split after) jumpTarget]⟩

/-- The rewrite for a conditional jump at place `i`, which has to lead forward. -/
def branchRewrite? (b : Block) (i : Nat) (condition : Token) (target : Offset) : Option Rewrite :=
  match b.find? target 0 with
  | none => none
  | some split => if i < split then some (b.branchRewrite i condition target split) else none

/-! ### Jumps out of loops -/

/-- The statement directly before place `i` is the step of an iterator. -/
def followsNext (b : Block) : Nat → Bool
  | 0 => false
  | k + 1 => b.statements[k]?.any (Statement.isPlain Token.isIteratorNext)

/-- The rewrite for a jump at place `i`, which has to lead to the end of a loop. -/
def escapeRewrite? (b : Block) (i : Nat) (target : Offset) : Option Rewrite :=
  (b.scope.loopExit? target).map fun frame =>
    if frame.kind = .foreachLoop ∧ b.followsNext i = true then
      ⟨i - 1, i + 1, [.escape (b.startAt i) [] .advance (.jump target)]⟩
    else ⟨i, i + 1, [.escape (b.startAt i) [] .leave (.jump target)]⟩

/-! ### Iterations -/

/-- The rewrite for the head of an iteration at place `i`. The end of the iterator is the last
instruction of the loop and is one byte long. -/
def iterationRewrite? (b : Block) (i : Nat) (collection : Token) (iterator? : Option Token)
    (target : Offset) : Option Rewrite :=
  match Offset.next? target with
  | none => none
  | some exit =>
      (b.find? exit (i + 1)).map fun after =>
        ⟨i, after,
          [.wrap (b.startAt i) (.foreachHead collection iterator?) (b.slice (i + 1) after) target]⟩

/-! ### Selections -/

/-- Where a selection ends that has no break before its last clause: before an undecoded return at
the end of the block, otherwise with the block. The clauses start at place `first`. -/
def openSelectionEnd (b : Block) (first : Nat) : Nat × Offset :=
  match b.last? with
  | some s =>
      if s.isPlain Token.isErrorReturn && first < b.length then (b.length - 1, s.start)
      else (b.length, b.stop)
  | none => (b.length, b.stop)

/-- Where a selection ends, as a place and as an offset: `rest` are the statements from place `j`
on, `previous` is the one before them, and the clauses start at place `first`. The jump before a
clause label tells the end. There is no answer yet if that jump leads nowhere in the block, or if
another selection comes first. -/
def selectionEndFrom? (b : Block) (first : Nat) (previous : Statement) (j : Nat) :
    List Statement → Option (Nat × Offset)
  | [] => some (b.openSelectionEnd first)
  | s :: rest =>
      if s.isPlain Token.isSwitch then none
      else
        match s.isPlain Token.isCaseLabel, previous.jumpTarget? with
        | true, some target => (b.find? target j).map fun after => (after, target)
        | _, _ => b.selectionEndFrom? first s (j + 1) rest

/-- The rewrite for the head of a selection, the statement `s` at place `i`. -/
def selectionRewrite? (b : Block) (i : Nat) (s : Statement) (discriminant : Token) :
    Option Rewrite :=
  (b.selectionEndFrom? (i + 1) s (i + 1) (b.statements.drop (i + 1))).map fun (after, stop) =>
    ⟨i, after, [.wrap s.start (.switchHead discriminant) (b.slice (i + 1) after) stop]⟩

/-! ### The next rewrite -/

/-- The rewrite for the statement at place `i`, if it has one. -/
def rewriteAt? (b : Block) (i : Nat) : Option Rewrite :=
  match b.statements[i]? with
  | none => none
  | some s =>
      match s.token? with
      | some (.jumpIfNot condition target) => b.branchRewrite? i condition target
      | some (.jump target) => b.escapeRewrite? i target
      | some (.foreach collection target) => b.iterationRewrite? i collection none target
      | some (.foreachWith collection iterator target) =>
          b.iterationRewrite? i collection (some iterator) target
      | some (.switch discriminant) => b.selectionRewrite? i s discriminant
      | _ => none

/-- The rewrite at the earliest place that has one. -/
def firstRewrite? (b : Block) : Option Rewrite := (List.range b.length).findSome? b.rewriteAt?

end Block

end FlowRecovery
