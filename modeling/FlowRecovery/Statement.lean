import FlowRecovery.Scope
import FlowRecovery.Token

/-!
# Statements

A statement is a single instruction, a `break` or `continue` that a jump was turned into, or a
composite statement with a head and children. Every statement carries the scope it stands in, and a
composite statement carries beside it the scope it gives to its children.

A statement is made on its own (`Statement.wrap` for a composite one) and gets its scope when it is
put into a block: `Statement.adopt` hands the scope down through all its descendants.

* `Statement.start_adopt`, `Statement.token?_adopt` — adoption changes scopes only.
* `Statement.adopt_adopt` — only the last adoption counts.
-/

namespace FlowRecovery

/-- What a composite statement is, with the tokens of its head line. -/
inductive Head where
  /-- A conditional. -/
  | ifHead (condition : Token)
  /-- The second branch of the conditional before it. -/
  | elseHead
  /-- A conditional loop. -/
  | whileHead (condition : Token)
  /-- An iteration. -/
  | foreachHead (collection : Token) (iterator? : Option Token)
  /-- A selection. -/
  | switchHead (discriminant : Token)
  deriving DecidableEq

namespace Head

/-- The kind of the block under a head. -/
def kind : Head → BlockKind
  | ifHead _ => .ifBlock
  | elseHead => .elseBlock
  | whileHead _ => .whileLoop
  | foreachHead _ _ => .foreachLoop
  | switchHead _ => .switchBlock

/-- The head line. -/
def text : Head → String
  | ifHead condition => "if (" ++ condition.text ++ ")"
  | elseHead => "else"
  | whileHead condition => "while (" ++ condition.text ++ ")"
  | foreachHead collection iterator? =>
      Token.foreachText collection.text (iterator?.map Token.text)
  | switchHead discriminant => "switch (" ++ discriminant.text ++ ")"

/-- The condition, collection or discriminant is an undecoded instruction. -/
def hasError : Head → Bool
  | ifHead condition => condition.hasError
  | elseHead => false
  | whileHead condition => condition.hasError
  | foreachHead collection _ => collection.hasError
  | switchHead discriminant => discriminant.hasError

end Head

/-- The two ways in which a jump can leave the statements it stands in. -/
inductive Escape where
  /-- Leaves the loop or selection. -/
  | leave
  /-- Goes on with the next element. -/
  | advance
  deriving DecidableEq

/-- The keyword of an escape. -/
def Escape.keyword : Escape → String
  | .leave => "break"
  | .advance => "continue"

/-- A statement of a body. -/
inductive Statement where
  /-- One instruction, with the offset of its end where that is known. -/
  | plain (start : Offset) (stop? : Option Offset) (scope : Scope) (token : Token)
  /-- A `break` or `continue`, with the instruction it was made from. -/
  | escape (start : Offset) (scope : Scope) (how : Escape) (token : Token)
  /-- A composite statement. Control goes on at `stop` after it, and `inner` is the scope of its
  children. -/
  | composite (start : Offset) (scope : Scope) (head : Head) (stop : Offset) (inner : Scope)
      (children : List Statement)

namespace Statement

instance : Inhabited Statement := ⟨plain 0 none [] .nothing⟩

/-- An instruction that stands in no block yet. -/
def ofToken (start : Offset) (token : Token) : Statement := plain start none [] token

/-- The offset of the first instruction of a statement. -/
def start : Statement → Offset
  | plain start _ _ _ | escape start _ _ _ | composite start _ _ _ _ _ => start

/-- The offset at which the instruction of a statement ends, where that is known. -/
def stop? : Statement → Option Offset
  | plain _ stop? _ _ => stop?
  | _ => none

/-- The scope a statement stands in. -/
def scope : Statement → Scope
  | plain _ _ scope _ | escape _ scope _ _ | composite _ scope _ _ _ _ => scope

/-- The instruction of a statement that is one. -/
def token? : Statement → Option Token
  | plain _ _ _ token => some token
  | _ => none

/-- The statement is an instruction of a given kind. -/
def isPlain (p : Token → Bool) (s : Statement) : Bool := s.token?.any p

/-- The target of a statement that is an unconditional jump. -/
def jumpTarget? (s : Statement) : Option Offset := s.token?.bind Token.jumpTarget?

/-- The statement is a jump that was not turned into anything else. -/
def isRawJump (s : Statement) : Bool := s.isPlain Token.isJump

mutual

/-- Puts a statement into the scope `scope`, and everything inside it below that scope. -/
def adopt (scope : Scope) : Statement → Statement
  | plain start stop? _ token => plain start stop? scope token
  | escape start _ how token => escape start scope how token
  | composite start _ head stop _ children =>
      composite start scope head stop (⟨head.kind, start, stop⟩ :: scope)
        (adoptAll (⟨head.kind, start, stop⟩ :: scope) children)

/-- Puts statements into the scope `scope`. -/
def adoptAll (scope : Scope) : List Statement → List Statement
  | [] => []
  | s :: rest => adopt scope s :: adoptAll scope rest

end

/-- A composite statement over the statements `children`, in no block yet. -/
def wrap (start : Offset) (head : Head) (children : List Statement) (stop : Offset) : Statement :=
  composite start [] head stop [⟨head.kind, start, stop⟩]
    (adoptAll [⟨head.kind, start, stop⟩] children)

/-! ### Adoption -/

theorem adoptAll_eq_map (scope : Scope) (l : List Statement) :
    adoptAll scope l = l.map (adopt scope) := by
  induction l with
  | nil => simp [adoptAll]
  | cons s rest ih => simp [adoptAll, ih]

@[simp] theorem length_adoptAll (scope : Scope) (l : List Statement) :
    (adoptAll scope l).length = l.length := by
  simp [adoptAll_eq_map]

@[simp] theorem start_adopt (scope : Scope) (s : Statement) : (s.adopt scope).start = s.start := by
  cases s <;> simp [adopt, start]

@[simp] theorem scope_adopt (scope : Scope) (s : Statement) : (s.adopt scope).scope = scope := by
  cases s <;> simp [adopt, Statement.scope]

@[simp] theorem token?_adopt (scope : Scope) (s : Statement) :
    (s.adopt scope).token? = s.token? := by
  cases s <;> simp [adopt, token?]

mutual

/-- Only the last adoption counts. -/
theorem adopt_adopt (outer inner : Scope) :
    (s : Statement) → (s.adopt inner).adopt outer = s.adopt outer
  | plain _ _ _ _ => by simp [adopt]
  | escape _ _ _ _ => by simp [adopt]
  | composite start _ head stop _ children => by
      simp [adopt, adoptAll_adoptAll _ _ children]

/-- Only the last adoption of a list counts. -/
theorem adoptAll_adoptAll (outer inner : Scope) :
    (l : List Statement) → adoptAll outer (adoptAll inner l) = adoptAll outer l
  | [] => by simp [adoptAll]
  | s :: rest => by simp [adoptAll, adopt_adopt _ _ s, adoptAll_adoptAll _ _ rest]

end

theorem adopt_wrap (scope : Scope) (start : Offset) (head : Head) (children : List Statement)
    (stop : Offset) :
    (wrap start head children stop).adopt scope =
      composite start scope head stop (⟨head.kind, start, stop⟩ :: scope)
        (adoptAll (⟨head.kind, start, stop⟩ :: scope) children) := by
  simp [wrap, adopt, adoptAll_adoptAll]

end Statement

end FlowRecovery
