import FlowRecovery.Offset

/-!
# Outcomes

Structuring may be stopped by a limit on the number of its passes. What it has done by then is not
lost: an outcome is the value that is left, with the error if there was one.
-/

namespace FlowRecovery

/-- The passes over a body went on rewriting beyond their limit. -/
structure PassLimitExceeded where
  /-- The number of passes that rewrote, the one beyond the limit included. -/
  passes : Nat
  /-- Where the body starts. -/
  offset : Offset
  deriving DecidableEq

/-- The text of the error. -/
def PassLimitExceeded.message (e : PassLimitExceeded) : String :=
  "control flow did not reach a fixed point after " ++ Nat.repr e.passes ++
    " passes (body at offset " ++ e.offset.text ++ ")"

/-- The value that a computation leaves, and the error that cut it short, if one did. -/
structure Outcome (α : Type) where
  /-- The value that is left. -/
  value : α
  /-- The error that cut the computation short. -/
  stopped? : Option PassLimitExceeded

namespace Outcome

/-- A computation that went through. -/
def done {α : Type} (value : α) : Outcome α := ⟨value, none⟩

/-- Changes the value, whether or not the computation was cut short. -/
def map {α β : Type} (f : α → β) (r : Outcome α) : Outcome β := ⟨f r.value, r.stopped?⟩

/-- Goes on with the value, unless the computation was cut short. -/
def andThen {α : Type} (r : Outcome α) (next : α → Outcome α) : Outcome α :=
  match r.stopped? with
  | none => next r.value
  | some _ => r

@[simp] theorem value_done {α : Type} (a : α) : (done a).value = a := rfl

@[simp] theorem stopped?_done {α : Type} (a : α) : (done a).stopped? = none := rfl

@[simp] theorem value_map {α β : Type} (f : α → β) (r : Outcome α) :
    (r.map f).value = f r.value := rfl

@[simp] theorem stopped?_map {α β : Type} (f : α → β) (r : Outcome α) :
    (r.map f).stopped? = r.stopped? := rfl

@[simp] theorem map_done {α β : Type} (f : α → β) (a : α) : (done a).map f = done (f a) := rfl

@[simp] theorem done_andThen {α : Type} (a : α) (next : α → Outcome α) :
    (done a).andThen next = next a := rfl

theorem eq_done_of_stopped? {α : Type} {r : Outcome α} (h : r.stopped? = none) :
    r = done r.value := by
  cases r; cases h; rfl

end Outcome

end FlowRecovery
