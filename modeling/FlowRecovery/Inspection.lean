import FlowRecovery.Block

/-!
# Inspection

Questions about a whole tree of statements: whether a jump was left as it is anywhere, and whether
an undecoded instruction occurs anywhere. Both ask every statement at every depth.
-/

namespace FlowRecovery

namespace Statement

mutual

/-- Some statement, at some depth of `s` or `s` itself, satisfies `p`. -/
def any (p : Statement → Bool) : Statement → Bool
  | plain start stop? scope token => p (plain start stop? scope token)
  | escape start scope how token => p (escape start scope how token)
  | composite start scope head stop inner children =>
      p (composite start scope head stop inner children) || anyOf p children

/-- Some statement at some depth of a list satisfies `p`. -/
def anyOf (p : Statement → Bool) : List Statement → Bool
  | [] => false
  | s :: rest => any p s || anyOf p rest

end

/-- The statement shows an undecoded instruction: it is one, or has one in its head. -/
def showsError : Statement → Bool
  | plain _ _ _ token => token.hasError
  | composite _ _ head _ _ _ => head.hasError
  | escape _ _ _ _ => false

theorem anyOf_eq_any (p : Statement → Bool) (l : List Statement) : anyOf p l = l.any (any p) := by
  induction l with
  | nil => rfl
  | cons s rest ih => rw [anyOf, ih, List.any_cons]

theorem anyOf_append (p : Statement → Bool) (l m : List Statement) :
    anyOf p (l ++ m) = (anyOf p l || anyOf p m) := by
  induction l with
  | nil => simp [anyOf]
  | cons s rest ih => simp [anyOf, ih, Bool.or_assoc]

theorem any_of_isPlain {p q : Token → Bool} (hpq : ∀ t, q t = true → p t = false) {s : Statement}
    (h : s.isPlain q = true) : s.any (isPlain p) = false := by
  cases s with
  | plain _ _ _ t => exact hpq t h
  | escape | composite => cases h

end Statement

namespace Block

/-- Taking an instruction of one kind off the end leaves the ones of another kind. -/
theorem anyOf_trimLast {p q : Token → Bool} (hpq : ∀ t, q t = true → p t = false) (b : Block) :
    Statement.anyOf (Statement.isPlain p) (b.trimLast q).statements =
      Statement.anyOf (Statement.isPlain p) b.statements := by
  rcases b.trimLast_cases q with h | ⟨s, hs, h⟩
  · rw [h]
  · rw [h, Statement.anyOf_append, Statement.anyOf, Statement.any_of_isPlain hpq hs, Statement.anyOf,
      Bool.or_false, Bool.or_false]

/-- A jump was left as it is somewhere in the block. -/
def hasRawJumps (b : Block) : Bool := Statement.anyOf Statement.isRawJump b.statements

/-- An undecoded instruction occurs somewhere in the block. -/
def hasErrors (b : Block) : Bool := Statement.anyOf Statement.showsError b.statements

end Block

end FlowRecovery
