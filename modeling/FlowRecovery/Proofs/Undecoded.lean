import FlowRecovery.Inspection
import FlowRecovery.Listing
import FlowRecovery.Proofs.Accounting

/-!
# Undecoded instructions in a structured body

A block has errors if an undecoded instruction is one of its statements, or the value of a return among
them. The operand of a branch, which is its condition, collection or discriminant, is looked at in the head
of a composite statement, but not in an instruction. So structuring may bring an undecoded operand to
light (`Listing.not_hasErrors_eq_veiledCondition`). It does so exactly if an instruction with such an operand is
turned into a composite statement, and it never hides anything that was seen before
(`Block.hasErrors_structured_iff`).
-/

namespace FlowRecovery

/-- The condition, collection or discriminant of an instruction is undecoded. -/
def Token.hidesError : Token → Bool
  | jumpIfNot condition _ => condition.hasError
  | foreach collection _ | foreachWith collection _ _ => collection.hasError
  | switch discriminant => discriminant.hasError
  | _ => false

theorem Token.hidesError_foreachOver (collection : Token) (iterator? : Option Token) (target : Offset) :
    (foreachOver collection iterator? target).hidesError = collection.hasError := by
  cases iterator? <;> rfl

theorem Token.hasError_foreachOver (collection : Token) (iterator? : Option Token) (target : Offset) :
    (foreachOver collection iterator? target).hasError = false := by
  cases iterator? <;> rfl

namespace Item

/-- The item shows an undecoded instruction. -/
def showsError : Item → Bool
  | instruction _ token => token.hasError
  | escape _ _ => false
  | head h => h.hasError

/-- The item is an instruction with an undecoded operand. -/
def hidesError : Item → Bool
  | instruction _ token => token.hidesError
  | _ => false

/-- An item that is turned into another one showed nothing, and the new one shows what it hid. -/
theorem Becomes.cases_error {item item' : Item} (h : item.Becomes item') :
    item' = item ∨
      item.showsError = false ∧ item'.showsError = item.hidesError ∧ item'.hidesError = false := by
  cases h with
  | same => exact .inl rfl
  | escape | conditional | loop | selection => exact .inr ⟨rfl, rfl, rfl⟩
  | iteration stop? collection iterator? target =>
    exact .inr ⟨Token.hasError_foreachOver collection iterator? target,
      (Token.hidesError_foreachOver collection iterator? target).symm, rfl⟩

/-- What may be dropped neither shows nor hides an undecoded instruction. -/
theorem not_error_of_isFraming {token : Token} (h : token.isFraming = true) (stop? : Option Offset) :
    (instruction stop? token).showsError = false ∧ (instruction stop? token).hidesError = false := by
  cases token <;> first | exact ⟨rfl, rfl⟩ | cases h

end Item

namespace Outline

/-- Some line shows an undecoded instruction. -/
def showsError (l : Outline) : Bool := l.any fun line => line.2.showsError

/-- The instructions with an undecoded operand. -/
def veiled (l : Outline) : Outline := l.filter fun line => line.2.hidesError

variable {l m : Outline} {start : Offset} {item : Item}

@[simp] theorem showsError_cons :
    showsError ((start, item) :: l) = (item.showsError || showsError l) := List.any_cons

theorem showsError_append : showsError (l ++ m) = (showsError l || showsError m) := List.any_append

theorem veiled_cons_of_pos (h : item.hidesError = true) :
    veiled ((start, item) :: l) = (start, item) :: veiled l := List.filter_cons_of_pos h

theorem veiled_cons_of_neg (h : item.hidesError = false) :
    veiled ((start, item) :: l) = veiled l := List.filter_cons_of_neg (by simp [h])

end Outline

namespace Accounted

open Outline

variable {l m : Outline}

/-- Instructions with an undecoded operand stay or go. -/
theorem veiled_sublist (h : Accounted l m) : (veiled m).Sublist (veiled l) := by
  induction h with
  | nil => exact .slnil
  | @keep start item item' l m becomes _ ih =>
    rcases becomes.cases_error with rfl | ⟨-, -, hides⟩
    · rw [veiled, veiled, List.filter_cons, List.filter_cons]
      split
      · exact ih.cons_cons _
      · exact ih
    · rw [veiled_cons_of_neg hides]
      exact ih.trans ((List.sublist_cons_self ..).filter _)
  | @drop start stop? _ _ _ framing _ ih =>
    rw [veiled_cons_of_neg (Item.not_error_of_isFraming framing stop?).2]
    exact ih

/-- Afterwards an undecoded instruction shows if one did before, or if an instruction with an undecoded
operand is gone. -/
theorem showsError_iff (h : Accounted l m) :
    showsError m = true ↔ showsError l = true ∨ veiled m ≠ veiled l := by
  induction h with
  | nil => simp [showsError]
  | @keep start item item' l m becomes rest ih =>
    rcases becomes.cases_error with rfl | ⟨shows, shown, hides⟩
    · by_cases hidden : item'.hidesError = true
      · simp [veiled_cons_of_pos hidden, ih, or_assoc]
      · rw [Bool.not_eq_true] at hidden
        simp [veiled_cons_of_neg hidden, ih, or_assoc]
    · rw [veiled_cons_of_neg hides]
      by_cases hidden : item.hidesError = true
      · -- The operand shows now, and its instruction is missing among those that hide one.
        have gone : veiled m ≠ (start, item) :: veiled l := fun heq => by
          have := rest.veiled_sublist.length_le
          rw [heq, List.length_cons] at this
          omega
        simp [veiled_cons_of_pos hidden, shown, hidden, gone]
      · rw [Bool.not_eq_true] at hidden
        simp [veiled_cons_of_neg hidden, shown, hidden, shows, ih]
  | @drop start stop? _ _ _ framing _ ih =>
    obtain ⟨shows, hides⟩ := Item.not_error_of_isFraming framing stop?
    rw [showsError_cons, shows, Bool.false_or, ih, veiled_cons_of_neg hides]

end Accounted

namespace Statement

mutual

/-- An outline shows the undecoded instructions of a statement. -/
theorem any_showsError : (s : Statement) → s.any showsError = s.outline.showsError
  | .plain start stop? scope token => (Bool.or_false _).symm
  | .escape start scope how token => rfl
  | .composite start scope head stop inner children => by
    have ih := anyOf_showsError children
    rw [any, ih]
    cases head with
    | elseHead => rfl
    | ifHead | whileHead | foreachHead | switchHead => rfl

theorem anyOf_showsError : (l : List Statement) → anyOf showsError l = (outlineOf l).showsError
  | [] => rfl
  | s :: rest => by
    rw [anyOf, any_showsError s, anyOf_showsError rest, outlineOf_cons, Outline.showsError_append]

end

end Statement

namespace Block

open Statement

/-- The instructions of a block, at any depth, that have an undecoded operand. -/
def veiled (b : Block) : Outline := (outlineOf b.statements).veiled

/-- Under any limit, structuring brings undecoded operands to light and hides nothing. -/
theorem hasErrors_structureWithin (limit : Nat) (b : Block) :
    (b.structureWithin limit).value.hasErrors = true ↔
      b.hasErrors = true ∨ (b.structureWithin limit).value.veiled ≠ b.veiled := by
  rw [hasErrors, hasErrors, anyOf_showsError, anyOf_showsError]
  exact (accounted_structureWithin limit b).showsError_iff

/-- **Whether structuring changes that a body has errors**: it does not exactly if the body has errors
anyway, or if all instructions with an undecoded operand are left as they are. -/
theorem hasErrors_structured_iff (b : Block) :
    b.structured.value.hasErrors = b.hasErrors ↔
      b.hasErrors = true ∨ b.structured.value.veiled = b.veiled := by
  have after := hasErrors_structureWithin (b.length + 1) b
  change b.structured.value.hasErrors = true ↔ _ ∨ b.structured.value.veiled ≠ b.veiled at after
  rw [Bool.eq_iff_iff, after]
  constructor
  · intro h
    by_cases same : b.structured.value.veiled = b.veiled
    · exact .inr same
    · exact .inl (h.1 (.inr same))
  · rintro (errors | same)
    · exact iff_of_true (.inl errors) errors
    · exact ⟨fun h => h.resolve_right fun gone => gone same, .inl⟩

end Block

namespace Listing

/-- A conditional with a condition that could not be decoded. -/
def veiledCondition : Listing :=
  [⟨0, none, .jumpIfNot (.undecoded "unknown opcode" none) 20⟩, ⟨10, none, .expression "A()"⟩,
    ⟨20, none, .expression "B()"⟩]

/-- The condition comes to light when the conditional is made. -/
theorem not_hasErrors_eq_veiledCondition :
    (veiledCondition.map Entry.offset).Pairwise (· < ·) ∧
      veiledCondition.block.hasErrors = false ∧ veiledCondition.block.structured.value.hasErrors = true :=
  ⟨by decide, rfl, rfl⟩

end Listing

end FlowRecovery
