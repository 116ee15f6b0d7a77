import FlowRecovery.Statement

/-!
# Blocks

A block is the list of statements of a body or of a composite statement, together with the scope it
lies in. Every operation that puts a statement into a block hands it the block's scope
(`Statement.adopt`); a range that is cut out keeps the scopes it had until it is put elsewhere.

`Block.find?` resolves a jump target to a place in the block. The place after the last statement is
the target that control reaches when the block is done: the `stop` of the innermost frame, and for a
whole body every offset beyond the start of its last statement.
-/

namespace FlowRecovery

/-- Statements in the order of the code, and the scope they lie in. -/
structure Block where
  /-- The frames around the block, innermost first. -/
  scope : Scope
  /-- The statements. -/
  statements : List Statement

namespace Block

instance : Inhabited Block := ⟨⟨[], []⟩⟩

/-- A body that consists of the given statements. -/
def ofStatements (l : List Statement) : Block := ⟨[], Statement.adoptAll [] l⟩

/-- A body that consists of the given instructions. -/
def ofTokens (l : List (Offset × Token)) : Block := ⟨[], l.map fun p => .ofToken p.1 p.2⟩

/-- The number of statements directly in the block. -/
def length (b : Block) : Nat := b.statements.length

/-- The start of the statement at place `i`, zero where there is none. -/
def startAt (b : Block) (i : Nat) : Offset := (b.statements[i]?.map Statement.start).getD Offset.zero

/-- The start of the first statement, zero in an empty block. -/
def start (b : Block) : Offset := b.startAt 0

/-- The last statement. -/
def last? (b : Block) : Option Statement := b.statements.getLast?

/-! ### Changing a block -/

/-- Replaces `count` statements from place `i` on by the statements `new`. -/
def splice (b : Block) (i count : Nat) (new : List Statement) : Block :=
  { b with
    statements :=
      b.statements.take i ++ Statement.adoptAll b.scope new ++ b.statements.drop (i + count) }

/-- Appends a statement. -/
def push (b : Block) (s : Statement) : Block :=
  { b with statements := b.statements ++ [s.adopt b.scope] }

/-- Inserts a statement at place `i`, which may be the end. -/
def insert? (b : Block) (i : Nat) (s : Statement) : Option Block :=
  if i ≤ b.length then some (b.splice i 0 [s]) else none

/-- Replaces `count` statements from place `i` on by one statement, if there are so many. -/
def replaceRange? (b : Block) (i count : Nat) (s : Statement) : Option Block :=
  if i + count ≤ b.length then some (b.splice i count [s]) else none

/-- Removes `count` statements from place `i` on, if there are so many. -/
def removeRange? (b : Block) (i count : Nat) : Option Block :=
  if i + count ≤ b.length then some (b.splice i count []) else none

/-- Removes `count` statements from place `i` on, if there are so many. The first result is a block
in no scope that holds them; they keep the scopes they had. -/
def cutRange? (b : Block) (i count : Nat) : Option (Block × Block) :=
  (b.removeRange? i count).map fun rest => (⟨[], (b.statements.drop i).take count⟩, rest)

/-- Removes the statement at place `i`, if there is one. It keeps the scopes it had. -/
def remove? (b : Block) (i : Nat) : Option (Statement × Block) :=
  b.statements[i]?.map fun s => (s, b.splice i 1 [])

/-- The last statement is an instruction of a given kind. -/
def endsWith (p : Token → Bool) (b : Block) : Bool := b.last?.any (Statement.isPlain p)

/-- Removes the last statement if it is an instruction of a given kind. -/
def trimLast (p : Token → Bool) (b : Block) : Block :=
  if b.endsWith p then { b with statements := b.statements.dropLast } else b

/-- Takes the default value of an optional parameter off the front: the text of a leading default
value, or nothing for a leading instruction that does nothing. Any other block stays as it is. -/
def takeDefault (b : Block) : Option String × Block :=
  match b.statements with
  | .plain _ _ _ .nothing :: rest => (none, { b with statements := rest })
  | .plain _ _ _ (.defaultParamValue value) :: rest =>
      (some value.text, { b with statements := rest })
  | _ => (none, b)

/-- Takes `count` default values off the front. -/
def takeDefaults (b : Block) : Nat → List (Option String) × Block
  | 0 => ([], b)
  | count + 1 =>
      let (value?, rest) := b.takeDefault
      let (more, rest) := takeDefaults rest count
      (value? :: more, rest)

/-! ### Resolving targets -/

/-- Control that goes to `target` has left the block at its end. -/
def endsAt (b : Block) (target : Offset) : Bool :=
  match b.scope with
  | frame :: _ => frame.stop == target
  | [] => b.last?.any fun s => s.start < target

/-- The place in the block, at or after `first`, that `target` leads to; the number of statements
where it leads to the end of the block. -/
def find? (b : Block) (target : Offset) (first : Nat) : Option Nat :=
  if b.endsAt target then some b.length
  else ((b.statements.drop first).findIdx? fun s => s.start == target).map (· + first)

/-- The offset that the end of the block stands for. -/
def stop (b : Block) : Offset :=
  match b.scope with
  | frame :: _ => frame.stop
  | [] => (b.last?.map fun s => Offset.nextCapped s.start).getD Offset.zero

/-- The target of the unconditional jump at place `i`. -/
def jumpTargetAt? (b : Block) (i : Nat) : Option Offset :=
  b.statements[i]?.bind Statement.jumpTarget?

/-- The statements from place `i` up to but not including place `j`. -/
def slice (b : Block) (i j : Nat) : List Statement := (b.statements.drop i).take (j - i)

/-! ### Laws -/

theorem find?_le_length {b : Block} {target : Offset} {first i : Nat}
    (h : b.find? target first = some i) : i ≤ b.length := by
  unfold find? at h
  split at h
  · cases h; exact Nat.le_refl _
  · obtain ⟨k, hk, rfl⟩ := Option.map_eq_some_iff.1 h
    have hlt : k < (b.statements.drop first).length :=
      (List.findIdx?_eq_some_iff_findIdx_eq.1 hk).1
    simp only [List.length_drop] at hlt
    unfold length
    omega

@[simp] theorem scope_trimLast (p : Token → Bool) (b : Block) : (b.trimLast p).scope = b.scope := by
  unfold trimLast; split <;> rfl

/-- What is taken off the end, if anything is, is an instruction of the given kind. -/
theorem trimLast_cases (p : Token → Bool) (b : Block) :
    b.trimLast p = b ∨
      ∃ s, s.isPlain p = true ∧ b.statements = (b.trimLast p).statements ++ [s] := by
  unfold trimLast
  split
  · next h =>
    obtain ⟨s, hs, hp⟩ := (Option.any_eq_true _ _).1 h
    obtain ⟨l, hl⟩ := List.getLast?_eq_some_iff.1 hs
    exact .inr ⟨s, hp, by rw [hl, List.dropLast_concat]⟩
  · exact .inl rfl

end Block

end FlowRecovery
