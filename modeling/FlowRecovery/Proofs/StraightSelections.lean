import FlowRecovery.Proofs.Frontier
import FlowRecovery.Proofs.Selections

/-!
# Selections whose clauses run straight on

A clause runs straight on if it is a label, ordinary statements, perhaps a return that could be decoded,
and perhaps a jump behind the selection. A selection of such clauses is recovered exactly, whichever of the
three rules tells its end: a jump directly before a label (`StraightBody.EndsByBreak`), or, where there is
no jump at all, an undecoded return at the end of the body or the end of the body itself
(`StraightBody.EndsOpen`). The clauses come out as they are written in `StraightClause.leftOf`
(`StraightBody.structured_straight`).
-/

namespace FlowRecovery

/-- An ordinary statement or expression. -/
def Token.isExpression : Token → Bool
  | expression _ => true
  | _ => false

/-- A clause that runs straight on, in a selection whose jumps lead to `exit`. -/
structure StraightClause (exit : Offset) where
  /-- The label. -/
  label : Entry
  /-- The statements behind it. -/
  steps : Listing
  /-- The return behind these. -/
  ret? : Option Entry
  /-- The jump out of the selection at the end. -/
  leave? : Option Entry
  /-- The label is one. -/
  isLabel : label.token.isCaseLabel = true
  /-- The statements have no control flow. -/
  areSteps : ∀ e ∈ steps, e.token.isExpression = true
  /-- The return is one, and was decoded. -/
  isReturn : ∀ e ∈ ret?, e.token.isReturn = true ∧ e.token.isErrorReturn = false
  /-- The jump is one, and leads out of the selection. -/
  isLeave : ∀ e ∈ leave?, e.token = .jump exit

namespace StraightClause

variable {exit : Offset}

/-- The instructions of a clause other than the jump. -/
def kept (c : StraightClause exit) : Listing := c.label :: (c.steps ++ c.ret?.toList)

/-- The instructions of a clause. -/
def code (c : StraightClause exit) : Listing := c.kept ++ c.leave?.toList

/-- What is left of the jump: a `break`, or nothing if a return stands directly before it. -/
def leftLeave (scope : Scope) (c : StraightClause exit) : List Statement :=
  match c.ret?, c.leave? with
  | none, some e => [.escape e.offset scope .leave (.jump exit)]
  | _, _ => []

/-- What is left of a clause. -/
def left (scope : Scope) (c : StraightClause exit) : List Statement :=
  c.kept.placed scope ++ c.leftLeave scope

/-- The clause is nothing but the default label. -/
def isBareDefault (c : StraightClause exit) : Bool :=
  c.label.token.isDefaultLabel && c.code.length == 1

/-- What is left of the clauses. A default label at the very end is taken away. -/
def leftOf (scope : Scope) : List (StraightClause exit) → List Statement
  | [] => []
  | [c] => if c.isBareDefault then [] else c.left scope
  | c :: d :: rest => c.left scope ++ leftOf scope (d :: rest)

end StraightClause

/-- A body with one selection, whose clauses run straight on. -/
structure StraightBody where
  /-- What is in front of the selection. -/
  front : Listing
  /-- The head of the selection. -/
  head : Entry
  /-- The value that is looked for. -/
  discriminant : Token
  /-- Where the jumps lead. -/
  exit : Offset
  /-- The clauses. -/
  clauses : List (StraightClause exit)
  /-- What is behind the selection. -/
  behind : Listing
  /-- In front there are only ordinary statements. -/
  areInFront : ∀ e ∈ front, e.token.isExpression = true
  /-- The head is one. -/
  isHead : head.token = .switch discriminant
  /-- Behind there are only ordinary statements and returns. -/
  areBehind : ∀ e ∈ behind, e.token.isExpression = true ∨ e.token.isReturn = true

namespace StraightBody

/-- The instructions of the clauses. -/
def code (s : StraightBody) : Listing := s.clauses.flatMap StraightClause.code

/-- The instructions of the body. -/
def listing (s : StraightBody) : Listing := s.front ++ (s.head :: s.code ++ s.behind)

/-- A clause other than the last ends with a jump, and the jumps lead to what is behind the selection, or
beyond the body if nothing is. -/
structure EndsByBreak (s : StraightBody) : Prop where
  /-- The clause with the jump. -/
  breaks : ∃ c ∈ s.clauses.dropLast, c.leave?.isSome = true
  /-- The jumps lead to what is behind. -/
  leads : ∀ e ∈ s.behind.head?, e.offset = s.exit
  /-- The jumps lead beyond the body. -/
  beyond : s.behind = [] → ∀ e ∈ s.listing, e.offset < s.exit

/-- No clause ends with a jump, and behind the selection there is nothing but perhaps an undecoded
return. -/
structure EndsOpen (s : StraightBody) : Prop where
  /-- There is no jump. -/
  unbroken : ∀ c ∈ s.clauses, c.leave? = none
  /-- What is behind. -/
  behind : s.behind = [] ∨ ∃ e, s.behind = [e] ∧ e.token.isErrorReturn = true

/-- The last instruction of the selection. -/
def last (s : StraightBody) : Entry := (s.head :: s.code).getLast (List.cons_ne_nil _ _)

/-- The offset at which control goes on behind the selection. -/
def stop (s : StraightBody) : Offset :=
  match s.behind with
  | e :: _ => e.offset
  | [] =>
      if s.clauses.any fun c => c.leave?.isSome then s.exit else Offset.nextCapped s.last.offset

/-- The scope of the clauses. -/
def scope (s : StraightBody) : Scope := [⟨.switchBlock, s.head.offset, s.stop⟩]

/-- The recovered selection. -/
def selection (s : StraightBody) : Statement :=
  .composite s.head.offset [] (.switchHead s.discriminant) s.stop s.scope
    (StraightClause.leftOf s.scope s.clauses)

/-- The recovered body. -/
def recovered (s : StraightBody) : Block :=
  ⟨[], s.front.placed [] ++ s.selection :: s.behind.placed []⟩

end StraightBody

/-! ### Tokens that stay -/

namespace Token

variable {t : Token}

/-- An instruction that stays within any scope: it is no branch and no step of an iterator. -/
def IsStill (t : Token) : Prop := t.isBranch = false ∧ t.isIteratorNext = false

theorem isStill_of_isExpression (h : t.isExpression = true) : t.IsStill := by
  cases t <;> first | exact ⟨rfl, rfl⟩ | cases h

theorem isStill_of_isReturn (h : t.isReturn = true) : t.IsStill := by
  cases t <;> first | exact ⟨rfl, rfl⟩ | cases h

theorem isStill_of_isCaseLabel (h : t.isCaseLabel = true) : t.IsStill := by
  cases t <;> first | exact ⟨rfl, rfl⟩ | cases h

theorem IsStill.jumpTarget? (h : t.IsStill) : t.jumpTarget? = none := by
  cases t <;> first | rfl | cases h.1

theorem IsStill.isJump (h : t.IsStill) : t.isJump = false := by
  cases t <;> first | rfl | cases h.1

theorem IsStill.stays (h : t.IsStill) (scope : Scope) : t.Stays scope :=
  ⟨.inl h.1, h.2, by cases t <;> first | rfl | cases h.1⟩

theorem isReturn_of_isExpression (h : t.isExpression = true) : t.isReturn = false := by
  cases t <;> first | rfl | cases h

theorem isReturn_of_isCaseLabel (h : t.isCaseLabel = true) : t.isReturn = false := by
  cases t <;> first | rfl | cases h

theorem isDefaultLabel_of_isExpression (h : t.isExpression = true) : t.isDefaultLabel = false := by
  cases t <;> first | rfl | cases h

theorem isDefaultLabel_of_isReturn (h : t.isReturn = true) : t.isDefaultLabel = false := by
  cases t <;> first | rfl | cases h

theorem isErrorReturn_of_not_isReturn (h : t.isReturn = false) : t.isErrorReturn = false :=
  Bool.eq_false_iff.2 fun he => Bool.eq_false_iff.1 h (isReturn_of_isErrorReturn he)

end Token

/-! ### The end of a block that is tidied -/

namespace Block

variable {p : Token → Bool} {scope : Scope} {l m : List Statement}

theorem trimLast_append (hm : m ≠ []) :
    (Block.mk scope (l ++ m)).trimLast p = ⟨scope, l ++ ((Block.mk scope m).trimLast p).statements⟩ := by
  have last : (l ++ m).getLast? = m.getLast? := by
    rw [List.getLast?_append, List.getLast?_eq_some_getLast hm, Option.some_or]
  rw [trimLast, trimLast, endsWith, endsWith, last?, last?, last]
  split
  · rw [List.dropLast_append_of_ne_nil hm]
  · rfl

theorem trimLast_of_forall (h : ∀ s ∈ l, s.isPlain p = false) :
    (Block.mk scope l).trimLast p = ⟨scope, l⟩ := by
  rw [trimLast, if_neg]
  intro ends
  obtain ⟨s, hs, hp⟩ := (Option.any_eq_true _ _).1 ends
  rw [h s (List.mem_of_getLast? hs)] at hp
  cases hp

end Block

namespace StraightClause

open Statement

variable {exit stop : Offset} {scope : Scope} {c : StraightClause exit} {e : Entry}

/-! ### One clause -/

/-- All instructions of a clause but the jump stay. -/
theorem isStill_of_mem (he : e ∈ c.kept) : e.token.IsStill := by
  rcases List.mem_cons.1 he with rfl | he
  · exact Token.isStill_of_isCaseLabel c.isLabel
  rcases List.mem_append.1 he with he | he
  · exact Token.isStill_of_isExpression (c.areSteps e he)
  · exact Token.isStill_of_isReturn (c.isReturn e (Option.mem_toList.1 he)).1

theorem isStill_or_isLeave (he : e ∈ c.code) : e.token.IsStill ∨ e ∈ c.leave? :=
  (List.mem_append.1 he).imp isStill_of_mem Option.mem_toList.1

theorem stays_of_mem_code (outside : scope.loopExit? exit = none) (he : e ∈ c.code) :
    e.token.Stays scope := by
  rcases isStill_or_isLeave he with kept | he
  · exact kept.stays scope
  · rw [c.isLeave e he]
    exact ⟨.inr ⟨exit, rfl, outside⟩, rfl, rfl⟩

theorem isErrorReturn_of_mem_code (he : e ∈ c.code) : e.token.isErrorReturn = false := by
  rcases List.mem_append.1 he with he | he
  · rcases List.mem_cons.1 he with rfl | he
    · exact Token.isErrorReturn_of_not_isReturn (Token.isReturn_of_isCaseLabel c.isLabel)
    rcases List.mem_append.1 he with he | he
    · exact Token.isErrorReturn_of_not_isReturn (Token.isReturn_of_isExpression (c.areSteps e he))
    · exact (c.isReturn e (Option.mem_toList.1 he)).2
  · rw [c.isLeave e (Option.mem_toList.1 he)]
    rfl

theorem breaksTo_entry (still : e.token.IsStill) (afterReturn : Bool) (m : List Statement) :
    breaksTo stop scope afterReturn (e.placed scope :: m) =
      e.placed scope :: breaksTo stop scope e.token.isReturn m :=
  breaksTo_cons still.jumpTarget?

/-- Ordinary statements stay, and none of them is a return. -/
theorem breaksTo_steps {l : Listing} (hl : ∀ e ∈ l, e.token.isExpression = true) (m : List Statement) :
    breaksTo stop scope false (l.placed scope ++ m) =
      l.placed scope ++ breaksTo stop scope false m := by
  induction l with
  | nil => rfl
  | cons e l ih =>
    have he := hl e (List.mem_cons_self ..)
    rw [Listing.placed_cons, List.cons_append, breaksTo_entry (Token.isStill_of_isExpression he),
      Token.isReturn_of_isExpression he, ih fun x hx => hl x (List.mem_cons_of_mem _ hx)]
    rfl

/-- Directly before the jump stands a return if the clause has one. -/
theorem breaksTo_kept (c : StraightClause exit) (afterReturn : Bool) (m : List Statement) :
    breaksTo stop scope afterReturn (c.kept.placed scope ++ m) =
      c.kept.placed scope ++ breaksTo stop scope c.ret?.isSome m := by
  have ret : breaksTo stop scope false (Listing.placed scope c.ret?.toList ++ m) =
      Listing.placed scope c.ret?.toList ++ breaksTo stop scope c.ret?.isSome m := by
    cases hret : c.ret? with
    | none => rfl
    | some r =>
      have hr := (c.isReturn r hret).1
      have kept : breaksTo stop scope false (r.placed scope :: m) = _ :=
        breaksTo_entry (Token.isStill_of_isReturn hr) false m
      rw [hr] at kept
      exact kept
  rw [kept, Listing.placed_cons, List.cons_append,
    breaksTo_entry (Token.isStill_of_isCaseLabel c.isLabel), Token.isReturn_of_isCaseLabel c.isLabel,
    Listing.placed_append, List.append_assoc, breaksTo_steps c.areSteps, ret]
  simp

/-- The jump becomes a `break`, or is deleted behind a return. -/
theorem breaksTo_leave (c : StraightClause exit) (leads : ∀ e ∈ c.leave?, exit = stop)
    (m : List Statement) :
    breaksTo stop scope c.ret?.isSome (Listing.placed scope c.leave?.toList ++ m) =
      c.leftLeave scope ++ breaksTo stop scope c.ret?.isSome m := by
  cases hleave : c.leave? with
  | none => cases hret : c.ret? <;> simp [leftLeave, hleave, hret]
  | some e =>
    have jump : (e.placed scope).jumpTarget? = some stop := by
      rw [jumpTarget?, Entry.placed, token?, c.isLeave e hleave, leads e hleave]
      rfl
    cases hret : c.ret? with
    | none =>
      have hstart : (e.placed scope).start = e.offset := rfl
      simp [leftLeave, hleave, hret, breaksTo, jump, leads e hleave, hstart]
    | some r => simp [leftLeave, hleave, hret, breaksTo, jump]

/-- **What is left of a clause**, with the jump out of the selection turned into a `break`. -/
theorem breaksTo_code (c : StraightClause exit) (leads : ∀ e ∈ c.leave?, exit = stop)
    (afterReturn : Bool) (m : List Statement) :
    breaksTo stop scope afterReturn (c.code.placed scope ++ m) =
      c.left scope ++ breaksTo stop scope c.ret?.isSome m := by
  rw [code, Listing.placed_append, List.append_assoc, breaksTo_kept, breaksTo_leave c leads, left,
    List.append_assoc]

theorem eq_escape_of_mem_leftLeave {m : Statement} (hm : m ∈ c.leftLeave scope) :
    ∃ start, m = .escape start scope .leave (.jump exit) := by
  unfold leftLeave at hm
  split at hm
  · exact ⟨_, List.mem_singleton.1 hm⟩
  · cases hm

theorem left_ne_nil (c : StraightClause exit) : c.left scope ≠ [] := by
  simp [left, kept]

/-- Of what is left of a clause, only the label may be a default label. -/
theorem isDefaultLabel_of_mem_left {m : Statement}
    (hm : m ∈ Listing.placed scope (c.steps ++ c.ret?.toList) ++ c.leftLeave scope) :
    m.isPlain Token.isDefaultLabel = false := by
  rcases List.mem_append.1 hm with hm | hm
  · obtain ⟨e, he, rfl⟩ := Listing.mem_placed.1 hm
    rw [Listing.isPlain_placed]
    rcases List.mem_append.1 he with he | he
    · exact Token.isDefaultLabel_of_isExpression (c.areSteps e he)
    · exact Token.isDefaultLabel_of_isReturn (c.isReturn e (Option.mem_toList.1 he)).1
  · obtain ⟨start, rfl⟩ := eq_escape_of_mem_leftLeave hm
    rfl

/-- Nothing but the label is left only of a clause that is nothing else. -/
theorem length_code_eq_one_iff (scope : Scope) (c : StraightClause exit) :
    c.code.length = 1 ↔
      Listing.placed scope (c.steps ++ c.ret?.toList) ++ c.leftLeave scope = [] := by
  cases hret : c.ret? <;> cases hleave : c.leave? <;>
    simp [code, kept, leftLeave, hret, hleave, Listing.placed]

/-- A default label at the end is taken away only from a clause that is nothing else. -/
theorem trimLast_left (c : StraightClause exit) :
    (Block.mk scope (c.left scope)).trimLast Token.isDefaultLabel =
      ⟨scope, if c.isBareDefault then [] else c.left scope⟩ := by
  have split : c.left scope = [c.label.placed scope] ++
      (Listing.placed scope (c.steps ++ c.ret?.toList) ++ c.leftLeave scope) := rfl
  -- Only the label may be a default label, and it is last only if nothing is left behind it.
  by_cases bare : c.code.length = 1
  · have alone := (length_code_eq_one_iff scope c).1 bare
    rw [split, alone, List.append_nil, isBareDefault, bare]
    cases h : c.label.token.isDefaultLabel with
    | true => exact Block.trimLast_concat (l := []) h
    | false => exact Block.trimLast_of_forall fun m hm => List.mem_singleton.1 hm ▸ h
  · have behind := mt (length_code_eq_one_iff scope c).2 bare
    have kept : c.isBareDefault = false := by simp [isBareDefault, bare]
    rw [split, Block.trimLast_append behind,
      Block.trimLast_of_forall fun m => isDefaultLabel_of_mem_left, ← split, kept]
    rfl

theorem any_isRawJump_of_mem_left {m : Statement} (hm : m ∈ c.left scope) :
    m.any isRawJump = false := by
  rcases List.mem_append.1 hm with hm | hm
  · obtain ⟨e, he, rfl⟩ := Listing.mem_placed.1 hm
    exact (isStill_of_mem he).isJump
  · obtain ⟨start, rfl⟩ := eq_escape_of_mem_leftLeave hm
    rfl

/-! ### The clauses of a selection -/

/-- **What is left of the clauses** before the last label is looked at. -/
theorem breaksTo_clauses {clauses : List (StraightClause exit)}
    (leads : ∀ c ∈ clauses, ∀ e ∈ c.leave?, exit = stop) (afterReturn : Bool) :
    breaksTo stop scope afterReturn (Listing.placed scope (clauses.flatMap code)) =
      clauses.flatMap (left scope) := by
  induction clauses generalizing afterReturn with
  | nil => rfl
  | cons c rest ih =>
    rw [List.flatMap_cons, Listing.placed_append, breaksTo_code c (leads c (List.mem_cons_self ..)),
      ih fun d hd => leads d (List.mem_cons_of_mem _ hd), List.flatMap_cons]

theorem trimLast_clauses (clauses : List (StraightClause exit)) :
    (Block.mk scope (clauses.flatMap (left scope))).trimLast Token.isDefaultLabel =
      ⟨scope, leftOf scope clauses⟩ := by
  induction clauses with
  | nil => rfl
  | cons c rest ih =>
    cases rest with
    | nil =>
      rw [List.flatMap_cons, List.flatMap_nil, List.append_nil]
      exact trimLast_left c
    | cons d rest =>
      rw [List.flatMap_cons, Block.trimLast_append (by simp [left_ne_nil]), ih]
      rfl

/-- No jump is left as it is. -/
theorem anyOf_isRawJump_leftOf (scope : Scope) (clauses : List (StraightClause exit)) :
    anyOf isRawJump (leftOf scope clauses) = false := by
  have untrimmed : anyOf isRawJump (clauses.flatMap (left scope)) = false := by
    rw [anyOf_eq_any, List.any_eq_false]
    intro m hm
    obtain ⟨c, -, hm⟩ := List.mem_flatMap.1 hm
    exact Bool.eq_false_iff.1 (any_isRawJump_of_mem_left hm)
  rw [← untrimmed, show leftOf scope clauses = _ from
    (congrArg Block.statements (trimLast_clauses clauses)).symm]
  exact Block.anyOf_trimLast (fun t ht => by cases t <;> first | rfl | cases ht) _

end StraightClause

namespace Block

/-- Without a jump and without another selection behind it, a selection goes up to the end of the
block. -/
theorem selectionEndFrom?_of_jumpless {b : Block} {first : Nat} {rest : List Statement}
    (switchless : Switchless rest) :
    ∀ {previous : Statement} {j : Nat}, (∀ s ∈ previous :: rest, s.jumpTarget? = none) →
      b.selectionEndFrom? first previous j rest = some (b.openSelectionEnd first) := by
  induction rest with
  | nil => intro previous j _; rfl
  | cons s rest ih =>
    intro previous j jumpless
    rw [selectionEndFrom?_of_skip (switchless s (List.mem_cons_self ..))
      fun _ => jumpless previous (List.mem_cons_self ..)]
    exact ih switchless.tail fun m hm => jumpless m (List.mem_cons_of_mem _ hm)

theorem stop_of_last? {b : Block} {m : Statement} (whole : b.scope = []) (last : b.last? = some m) :
    b.stop = Offset.nextCapped m.start := by
  simp [stop, whole, last]

theorem openSelectionEnd_of_decoded {b : Block} {m : Statement} (last : b.last? = some m)
    (decoded : m.isPlain Token.isErrorReturn = false) (first : Nat) :
    b.openSelectionEnd first = (b.length, b.stop) := by
  simp [openSelectionEnd, last, decoded]

theorem openSelectionEnd_of_undecoded {b : Block} {m : Statement} {first : Nat}
    (last : b.last? = some m) (undecoded : m.isPlain Token.isErrorReturn = true)
    (hfirst : first < b.length) : b.openSelectionEnd first = (b.length - 1, m.start) := by
  simp [openSelectionEnd, last, undecoded, hfirst]

end Block

namespace StraightBody

open Listing

variable {s : StraightBody}

/-! ### The body -/

/-- At the head it is found that the selection ends behind its clauses. -/
def EndFound (s : StraightBody) : Prop :=
  Block.selectionEndFrom? ⟨[], placed [] (s.head :: s.code ++ s.behind)⟩ (0 + 1) (s.head.placed [])
    (0 + 1) (placed [] (s.code ++ s.behind)) = some ((s.head :: s.code).length, s.stop)

theorem isStill_of_mem_behind {e : Entry} (he : e ∈ s.behind) : e.token.IsStill :=
  (s.areBehind e he).elim Token.isStill_of_isExpression Token.isStill_of_isReturn

theorem stays_of_mem {scope : Scope} (outside : scope.loopExit? s.exit = none) {e : Entry}
    (he : e ∈ s.code ++ s.behind) : e.token.Stays scope := by
  rcases List.mem_append.1 he with he | he
  · obtain ⟨c, -, he⟩ := List.mem_flatMap.1 he
    exact StraightClause.stays_of_mem_code outside he
  · exact (isStill_of_mem_behind he).stays scope

/-- The jumps all lead out of the selection. -/
theorem of_jump_mem {e : Entry} (he : e ∈ s.head :: s.code ++ s.behind) (target : Offset)
    (token : e.token = .jump target) : target = s.exit ∧ ∃ c ∈ s.clauses, e ∈ c.leave? := by
  rcases List.mem_append.1 he with he | he
  · rcases List.mem_cons.1 he with rfl | he
    · rw [s.isHead] at token
      cases token
    · obtain ⟨c, hc, he⟩ := List.mem_flatMap.1 he
      rcases StraightClause.isStill_or_isLeave he with kept | he
      · rw [token] at kept
        cases kept.1
      · rw [c.isLeave e he] at token
        exact ⟨(Token.jump.inj token).symm, c, hc, he⟩
  · have kept := isStill_of_mem_behind he
    rw [token] at kept
    cases kept.1

theorem isErrorReturn_of_mem {e : Entry} (he : e ∈ s.head :: s.code) :
    e.token.isErrorReturn = false := by
  rcases List.mem_cons.1 he with rfl | he
  · rw [s.isHead]
    rfl
  · obtain ⟨c, -, he⟩ := List.mem_flatMap.1 he
    exact StraightClause.isErrorReturn_of_mem_code he

section

variable (accepted : s.listing.fault? = none)

include accepted

theorem ascending : Block.Ascending (s.listing.placed []) := by
  rw [Block.Ascending, map_start_placed]
  exact (fault?_eq_none_iff _).1 accepted

theorem ascending_selection : Block.Ascending (placed [] (s.head :: s.code ++ s.behind)) := by
  have whole := ascending accepted
  rw [listing, placed_append] at whole
  exact whole.right

/-- The head is the only one of a selection. -/
theorem orderly : (s.code ++ s.behind).Orderly := by
  have whole := ascending_selection accepted
  rw [Block.Ascending, map_start_placed] at whole
  exact ⟨whole.of_cons, fun e he => (show e.token.Stays [] from stays_of_mem rfl he).2.2⟩

/-- The selection over what is left of the clauses. -/
theorem under_head (leads : ∀ c ∈ s.clauses, ∀ e ∈ c.leave?, s.exit = s.stop) :
    s.code.under s.head.offset [] (.switchHead s.discriminant) s.stop = s.selection := by
  have stays : s.code.recovered s.scope = s.code.placed s.scope :=
    recovered_of_stays (orderly accepted).left fun e he =>
      stays_of_mem rfl (List.mem_append_left _ he)
  have tidied : ((Block.mk s.scope (s.code.placed s.scope)).tidy (.switchHead s.discriminant)
      s.head.offset s.stop).statements = StraightClause.leftOf s.scope s.clauses := by
    rw [Block.tidy, code, StraightClause.breaksTo_clauses leads, StraightClause.trimLast_clauses]
  rw [selection, ← tidied, ← stays]
  rfl

/-- What is left of the body, once the end of the selection is known. -/
theorem recovered_listing (found : s.EndFound)
    (leads : ∀ c ∈ s.clauses, ∀ e ∈ c.leave?, s.exit = s.stop) :
    s.listing.block.recovered = s.recovered := by
  have behind : Listing.recovered [] s.behind = s.behind.placed [] :=
    recovered_of_stays (orderly accepted).right fun e he => (isStill_of_mem_behind he).stays []
  have whole : Listing.recovered [] s.listing =
      s.front.placed [] ++ s.selection :: s.behind.placed [] := by
    rw [listing, recovered_append (ascending accepted) fun e he =>
        Token.isStill_of_isExpression (s.areInFront e he),
      recovered_selection_of_ends (ascending_selection accepted) s.isHead found,
      under_head accepted leads, behind]
  exact (statements_recovered [] s.listing).trans (congrArg (Block.mk []) whole)

end

/-! ### Where the selection ends -/

theorem EndsByBreak.stop_eq (h : s.EndsByBreak) : s.stop = s.exit := by
  obtain ⟨c, hc, leaves⟩ := h.breaks
  have hleads := h.leads
  unfold stop
  split
  · next e rest behind =>
    rw [behind] at hleads
    exact hleads e rfl
  · exact if_pos (List.any_eq_true.2 ⟨c, List.dropLast_subset _ hc, leaves⟩)

/-- The jump before a label tells the end. -/
theorem EndsByBreak.endFound (h : s.EndsByBreak) (accepted : s.listing.fault? = none) :
    s.EndFound := by
  have order := orderly accepted
  have leads : Leads [] s.exit s.code s.behind := by
    refine ⟨fun e he => ?_, h.leads, fun _ _ => nofun, fun _ _ => nofun⟩
    -- The clauses start before the exit, since what starts there is behind them.
    cases hbehind : s.behind with
    | nil => exact h.beyond hbehind e (by simp [listing, he])
    | cons b rest =>
      rw [← h.leads b (by rw [hbehind]; rfl)]
      exact order.lt_of_append he (hbehind ▸ List.mem_cons_self ..)
  obtain ⟨c, hc, leaves⟩ := h.breaks
  obtain ⟨j, hj⟩ := Option.isSome_iff_exists.1 leaves
  obtain ⟨before, next, more, clauses⟩ := exists_of_mem_dropLast hc
  have split : s.code = (before.flatMap StraightClause.code ++ c.kept) ++
      j :: next.label :: (next.steps ++ next.ret?.toList ++ next.leave?.toList ++
        more.flatMap StraightClause.code) := by
    rw [code, clauses]
    simp [StraightClause.code, StraightClause.kept, hj]
  rw [EndFound, h.stop_eq]
  exact selectionEndFrom?_placed order leads (fun _ he target token => (of_jump_mem he target token).1)
    split (c.isLeave j hj) next.isLabel

theorem EndsOpen.stop_eq (h : s.EndsOpen) (behind : s.behind = []) :
    s.stop = Offset.nextCapped s.last.offset := by
  rw [stop, behind]
  refine if_neg fun leaves => ?_
  obtain ⟨c, hc, hleave⟩ := List.any_eq_true.1 leaves
  rw [h.unbroken c hc] at hleave
  cases hleave

/-- Without a jump the selection goes up to an undecoded return at the end of the body, or else up to the
end. -/
theorem EndsOpen.openSelectionEnd (h : s.EndsOpen) :
    Block.openSelectionEnd ⟨[], placed [] (s.head :: s.code ++ s.behind)⟩ (0 + 1) =
      ((s.head :: s.code).length, s.stop) := by
  rcases h.behind with behind | ⟨r, behind, isError⟩
  · have last : Block.last? ⟨[], placed [] (s.head :: s.code)⟩ = some (s.last.placed []) := by
      rw [Block.last?, placed, List.getLast?_map, List.getLast?_eq_some_getLast (List.cons_ne_nil _ _)]
      rfl
    have decoded : (s.last.placed []).isPlain Token.isErrorReturn = false :=
      isErrorReturn_of_mem (List.getLast_mem _)
    have beyond : Block.stop ⟨[], placed [] (s.head :: s.code)⟩ = Offset.nextCapped s.last.offset :=
      Block.stop_of_last? rfl last
    rw [behind, List.append_nil, Block.openSelectionEnd_of_decoded last decoded, beyond,
      h.stop_eq behind, Block.length, length_placed]
  · have last : Block.last? ⟨[], placed [] (s.head :: s.code ++ [r])⟩ = some (r.placed []) := by
      rw [Block.last?, placed, List.getLast?_map, List.getLast?_concat]
      rfl
    have stop : s.stop = r.offset := by rw [StraightBody.stop, behind]
    rw [behind, Block.openSelectionEnd_of_undecoded last isError (by simp [Block.length]), stop,
      Block.length, length_placed, List.length_append]
    rfl

/-- There is no jump that could tell the end earlier. -/
theorem EndsOpen.endFound (h : s.EndsOpen) (accepted : s.listing.fault? = none) :
    s.EndFound := by
  have jumpless : ∀ m ∈ placed [] (s.head :: s.code ++ s.behind), m.jumpTarget? = none := by
    intro m hm
    obtain ⟨e, he, rfl⟩ := mem_placed.1 hm
    refine Option.eq_none_iff_forall_ne_some.2 fun target htarget => ?_
    obtain ⟨-, c, hc, hleave⟩ := of_jump_mem he target (Token.jumpTarget?_eq_some_iff.1 htarget)
    rw [h.unbroken c hc] at hleave
    cases hleave
  rw [EndFound, Block.selectionEndFrom?_of_jumpless (orderly accepted).switchless_placed jumpless,
    h.openSelectionEnd]

/-! ### Recovery -/

theorem hasRawJumps_recovered (s : StraightBody) : s.recovered.hasRawJumps = false := by
  have kept (l : Listing) (hl : ∀ e ∈ l, e.token.IsStill) :
      Statement.anyOf (Statement.isPlain Token.isJump) (l.placed []) = false := by
    rw [Statement.anyOf_placed, List.any_eq_false]
    exact fun e he => Bool.eq_false_iff.1 (hl e he).isJump
  have front := kept s.front fun e he => Token.isStill_of_isExpression (s.areInFront e he)
  have behind := kept s.behind fun e => isStill_of_mem_behind
  have children := StraightClause.anyOf_isRawJump_leftOf s.scope s.clauses
  have selection : s.selection.any (Statement.isPlain Token.isJump) = false := by
    rw [StraightBody.selection, Statement.any]
    exact children
  change Statement.anyOf (Statement.isPlain Token.isJump) s.recovered.statements = false
  rw [recovered, Statement.anyOf_append, Statement.anyOf, front, selection, behind]
  rfl

/-- **A selection whose clauses run straight on is recovered exactly**, whatever tells where it ends: what
is in front of it and behind it stays, and it becomes one composite statement over what is left of its
clauses. No jump is left as it is. -/
theorem structured_straight (s : StraightBody) (accepted : s.listing.fault? = none)
    (ends : s.EndsByBreak ∨ s.EndsOpen) :
    s.listing.block.structured = .done s.recovered ∧
      s.listing.block.structured.value.hasRawJumps = false := by
  have whole : s.listing.block.recovered = s.recovered := by
    rcases ends with breaks | opens
    · refine recovered_listing accepted (breaks.endFound accepted) fun _ _ _ _ => ?_
      exact breaks.stop_eq.symm
    · refine recovered_listing accepted (opens.endFound accepted) fun c hc e he => ?_
      -- There is no jump that would have to lead to the end.
      rw [opens.unbroken c hc] at he
      cases he
  rw [Block.structured_eq_done, whole]
  exact ⟨rfl, hasRawJumps_recovered s⟩

/-- A clause with a `break`, one whose return makes the `break` useless, and a default label without
statements. -/
def modes : StraightBody where
  front := [⟨0, none, .expression "Start()"⟩]
  head := ⟨5, none, .switch (.expression "Mode")⟩
  discriminant := .expression "Mode"
  exit := 60
  clauses :=
    [{ label := ⟨10, none, .caseLabel "1"⟩
       steps := [⟨14, none, .expression "A()"⟩]
       ret? := none
       leave? := some ⟨20, none, .jump 60⟩
       isLabel := rfl
       areSteps := by simp [Token.isExpression]
       isReturn := nofun
       isLeave := by simp },
      { label := ⟨25, none, .caseLabel "2"⟩
        steps := []
        ret? := some ⟨30, none, .retValue (.expression "B()")⟩
        leave? := some ⟨40, none, .jump 60⟩
        isLabel := rfl
        areSteps := nofun
        isReturn := by simp [Token.isReturn, Token.isErrorReturn, Token.isError]
        isLeave := by simp },
      { label := ⟨50, none, .defaultLabel⟩
        steps := []
        ret? := none
        leave? := none
        isLabel := rfl
        areSteps := nofun
        isReturn := nofun
        isLeave := nofun }]
  behind := [⟨60, none, .ret⟩]
  areInFront := by simp [Token.isExpression]
  isHead := rfl
  areBehind := by simp [Token.isReturn]

/-- A clause without a `break`, and an undecoded return at the end of the body. -/
def screens : StraightBody where
  front := []
  head := ⟨0, none, .switch (.expression "Screen")⟩
  discriminant := .expression "Screen"
  exit := 0
  clauses :=
    [{ label := ⟨7, none, .caseLabel "0"⟩
       steps := []
       ret? := some ⟨17, none, .ret⟩
       leave? := none
       isLabel := rfl
       areSteps := nofun
       isReturn := by simp [Token.isReturn, Token.isErrorReturn]
       isLeave := nofun }]
  behind := [⟨77, none, .errorReturn "invalid"⟩]
  areInFront := nofun
  isHead := rfl
  areBehind := by simp [Token.isReturn, Token.errorReturn]

theorem endsByBreak_modes : modes.EndsByBreak := by
  refine ⟨⟨_, List.mem_cons_self .., rfl⟩, ?_, nofun⟩
  rintro e ⟨⟩
  rfl

theorem endsOpen_screens : screens.EndsOpen := by
  refine ⟨fun c hc => ?_, .inr ⟨_, rfl, rfl⟩⟩
  cases List.mem_singleton.1 hc
  rfl

theorem structured_straight_modes_screens :
    (modes.listing.fault? = none ∧ modes.EndsByBreak ∧
      let scope : Scope := [⟨.switchBlock, 5, 60⟩]
      modes.listing.block.structured =
          .done ⟨[], [.plain 0 none [] (.expression "Start()"),
            .composite 5 [] (.switchHead (.expression "Mode")) 60 scope
              [.plain 10 none scope (.caseLabel "1"), .plain 14 none scope (.expression "A()"),
                .escape 20 scope .leave (.jump 60), .plain 25 none scope (.caseLabel "2"),
                .plain 30 none scope (.retValue (.expression "B()"))],
            .plain 60 none [] .ret]⟩ ∧
        modes.listing.block.structured.value.hasRawJumps = false) ∧
    screens.listing.fault? = none ∧ screens.EndsOpen ∧
      let scope : Scope := [⟨.switchBlock, 0, 77⟩]
      screens.listing.block.structured =
          .done ⟨[], [.composite 0 [] (.switchHead (.expression "Screen")) 77 scope
              [.plain 7 none scope (.caseLabel "0"), .plain 17 none scope .ret],
            .plain 77 none [] (.errorReturn "invalid")]⟩ ∧
        screens.listing.block.structured.value.hasRawJumps = false :=
  ⟨⟨rfl, endsByBreak_modes, structured_straight modes rfl (.inl endsByBreak_modes)⟩,
    rfl, endsOpen_screens, structured_straight screens rfl (.inr endsOpen_screens)⟩

end StraightBody

end FlowRecovery
