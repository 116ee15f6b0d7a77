import FlowRecovery.Labels

/-!
# Tokens

A token is one decoded instruction. Recovery looks only at which constructor a token has and at its
targets; the texts inside conditions, collections and labels were rendered by the decoder and are
carried along unread. `Token.text` is the text of a token on a line of its own.

The only text that any decision depends on is the value of a `return`: a value that renders to
nothing counts as no value (`Token.isValuelessReturn`).
-/

namespace FlowRecovery

/-- A decoded instruction. -/
inductive Token where
  /-- An ordinary statement or expression, already rendered. -/
  | expression (text : String)
  /-- Goes to `target` when `condition` is false. -/
  | jumpIfNot (condition : Token) (target : Offset)
  /-- Goes to `target`. -/
  | jump (target : Offset)
  /-- Starts an iteration over `collection`; the loop exits to `target`. -/
  | foreach (collection : Token) (target : Offset)
  /-- Starts an iteration over `collection` with a named iterator. -/
  | foreachWith (collection iterator : Token) (target : Offset)
  /-- Advances the iterator. -/
  | iteratorNext
  /-- Discards the iterator. -/
  | iteratorPop
  /-- Starts a selection on `discriminant`. -/
  | switch (discriminant : Token)
  /-- A case label of a selection. -/
  | caseLabel (text : String)
  /-- The default label of a selection. -/
  | defaultLabel
  /-- Returns without a value. -/
  | ret
  /-- Returns a value, which may itself be an undecoded instruction. -/
  | retValue (value : Token)
  /-- Names offsets of the body. -/
  | labelTable (labels : Labels)
  /-- Does nothing. -/
  | nothing
  /-- The default value of an optional parameter. -/
  | defaultParamValue (value : Token)
  /-- An instruction that could not be decoded, with its opcode where that is known. -/
  | undecoded (message : String) (opcode : Option (Fin 256))
  deriving DecidableEq

namespace Token

instance : Inhabited Token := ⟨nothing⟩

/-- The head of an iteration, with or without a named iterator. -/
def foreachOver (collection : Token) (iterator? : Option Token) (target : Offset) : Token :=
  match iterator? with
  | none => foreach collection target
  | some iterator => foreachWith collection iterator target

/-- A return, with or without a value. -/
def retOf : Option Token → Token
  | none => ret
  | some value => retValue value

/-- A return whose value could not be decoded. -/
def errorReturn (message : String) : Token := retValue (undecoded message none)

/-! ### Kinds of tokens -/

/-- A conditional or unconditional jump. -/
def isJump : Token → Bool
  | jumpIfNot _ _ | jump _ => true
  | _ => false

/-- The target of an unconditional jump. -/
def jumpTarget? : Token → Option Offset
  | jump target => some target
  | _ => none

/-- An unconditional jump to `o`. -/
def isJumpTo (o : Offset) (t : Token) : Bool := t.jumpTarget? == some o

/-- A label of a selection. -/
def isCaseLabel : Token → Bool
  | caseLabel _ | defaultLabel => true
  | _ => false

/-- The default label. -/
def isDefaultLabel : Token → Bool
  | defaultLabel => true
  | _ => false

/-- The head of a selection. -/
def isSwitch : Token → Bool
  | switch _ => true
  | _ => false

/-- The step of an iterator. -/
def isIteratorNext : Token → Bool
  | iteratorNext => true
  | _ => false

/-- The end of an iterator. -/
def isIteratorPop : Token → Bool
  | iteratorPop => true
  | _ => false

/-- A return, with or without a value. -/
def isReturn : Token → Bool
  | ret | retValue _ => true
  | _ => false

/-- An undecoded instruction. -/
def isError : Token → Bool
  | undecoded _ _ => true
  | _ => false

/-- An undecoded instruction, or a return (of a return …) of one. -/
def hasError : Token → Bool
  | undecoded _ _ => true
  | retValue value => value.hasError
  | _ => false

/-- A return whose value is an undecoded instruction. -/
def isErrorReturn : Token → Bool
  | retValue value => value.isError
  | _ => false

/-- The label table a token carries. -/
def labelTable? : Token → Option Labels
  | labelTable labels => some labels
  | _ => none

/-! ### Text -/

/-- The head line of an iteration. -/
def foreachText (collection : String) (iterator? : Option String) : String :=
  match iterator? with
  | none => "foreach " ++ collection
  | some iterator => "foreach " ++ collection ++ "(" ++ iterator ++ ")"

/-- The line of a return; a value that renders to nothing is left out. -/
def returnText (value : String) : String :=
  if value.isEmpty then "return" else "return " ++ value

/-- The text of a token. -/
def text : Token → String
  | expression text => text
  | jumpIfNot condition target => "if (!(" ++ condition.text ++ ")) goto " ++ target.text
  | jump target => "goto " ++ target.text
  | foreach collection _ => foreachText collection.text none
  | foreachWith collection iterator _ => foreachText collection.text (some iterator.text)
  | iteratorNext => "IteratorNext"
  | iteratorPop => "IteratorPop"
  | switch discriminant => "switch (" ++ discriminant.text ++ ")"
  | caseLabel text => "case " ++ text
  | defaultLabel => "default"
  | ret => "return"
  | retValue value => returnText value.text
  | labelTable _ => ""
  | nothing => ""
  | defaultParamValue value => value.text
  | undecoded message _ => message

/-- A return that carries no value, or a value that renders to nothing. -/
def isValuelessReturn : Token → Bool
  | ret => true
  | retValue value => value.text.isEmpty
  | _ => false

/-! ### Relations between the kinds -/

theorem isJump_of_jumpTarget? {t : Token} {o : Offset} (h : t.jumpTarget? = some o) :
    t.isJump = true := by
  cases t <;> simp_all [jumpTarget?, isJump]

theorem jumpTarget?_eq_some_iff {t : Token} {o : Offset} :
    t.jumpTarget? = some o ↔ t = jump o := by
  cases t <;> simp [jumpTarget?]

theorem isReturn_of_isErrorReturn {t : Token} (h : t.isErrorReturn = true) :
    t.isReturn = true := by
  cases t <;> simp_all [isErrorReturn, isReturn]

end Token

end FlowRecovery
