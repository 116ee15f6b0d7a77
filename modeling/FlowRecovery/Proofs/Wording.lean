import FlowRecovery.Proofs.Convergence
import FlowRecovery.Inspection

/-!
# Structuring does not read texts

The texts in a block can be changed all at once by a function on strings (`Block.reword`): those of
expressions and labels, the messages of undecoded instructions and the names in label tables, also where
they are inside conditions, collections, discriminants and values of returns.

Everything that structuring asks of an instruction is answered by its constructor and its target, so the
same rewrites are found in a reworded block (`rewriteAt?_reword`), and what they make is reworded too. So
structuring comes to the same tree, with the texts changed in the same way (`structured_reword`).
-/

namespace FlowRecovery

/-! ### Rewording -/

/-- Changes all names in a label table. -/
def Labels.reword (g : String → String) (t : Labels) : Labels where
  entries := t.entries.map fun p => (p.1, g p.2)
  nodup := by
    rw [List.map_map]
    exact t.nodup

namespace Token

/-- Changes all texts in a token. -/
def reword (g : String → String) : Token → Token
  | expression text => expression (g text)
  | jumpIfNot condition target => jumpIfNot (condition.reword g) target
  | jump target => jump target
  | foreach collection target => foreach (collection.reword g) target
  | foreachWith collection iterator target =>
      foreachWith (collection.reword g) (iterator.reword g) target
  | iteratorNext => iteratorNext
  | iteratorPop => iteratorPop
  | switch discriminant => switch (discriminant.reword g)
  | caseLabel text => caseLabel (g text)
  | defaultLabel => defaultLabel
  | ret => ret
  | retValue value => retValue (value.reword g)
  | labelTable labels => labelTable (labels.reword g)
  | nothing => nothing
  | defaultParamValue value => defaultParamValue (value.reword g)
  | undecoded message opcode => undecoded (g message) opcode

end Token

/-- Changes all texts in a head. -/
def Head.reword (g : String → String) : Head → Head
  | ifHead condition => ifHead (condition.reword g)
  | elseHead => elseHead
  | whileHead condition => whileHead (condition.reword g)
  | foreachHead collection iterator? =>
      foreachHead (collection.reword g) (iterator?.map (Token.reword g))
  | switchHead discriminant => switchHead (discriminant.reword g)

namespace Statement

mutual

/-- Changes all texts in a statement and in the statements inside it. -/
def reword (g : String → String) : Statement → Statement
  | plain start stop? scope token => plain start stop? scope (token.reword g)
  | escape start scope how token => escape start scope how (token.reword g)
  | composite start scope head stop inner children =>
      composite start scope (head.reword g) stop inner (rewordAll g children)

/-- Changes all texts in statements. -/
def rewordAll (g : String → String) : List Statement → List Statement
  | [] => []
  | s :: rest => reword g s :: rewordAll g rest

end

end Statement

/-- Changes all texts in a block. -/
def Block.reword (g : String → String) (b : Block) : Block :=
  ⟨b.scope, Statement.rewordAll g b.statements⟩

/-- Changes all texts in what a rewrite makes. -/
def Rewrite.reword (g : String → String) (r : Rewrite) : Rewrite :=
  ⟨r.first, r.after, Statement.rewordAll g r.made⟩

variable {g : String → String}

/-! ### Tokens and statements -/

namespace Token

variable (t : Token)

@[simp] theorem jumpTarget?_reword : (t.reword g).jumpTarget? = t.jumpTarget? := by cases t <;> rfl

@[simp] theorem isJump_reword : (t.reword g).isJump = t.isJump := by cases t <;> rfl

@[simp] theorem isJumpTo_reword (o : Offset) : (t.reword g).isJumpTo o = t.isJumpTo o := by
  simp [isJumpTo]

@[simp] theorem isReturn_reword : (t.reword g).isReturn = t.isReturn := by cases t <;> rfl

@[simp] theorem isCaseLabel_reword : (t.reword g).isCaseLabel = t.isCaseLabel := by cases t <;> rfl

@[simp] theorem isDefaultLabel_reword : (t.reword g).isDefaultLabel = t.isDefaultLabel := by
  cases t <;> rfl

@[simp] theorem isSwitch_reword : (t.reword g).isSwitch = t.isSwitch := by cases t <;> rfl

@[simp] theorem isIteratorNext_reword : (t.reword g).isIteratorNext = t.isIteratorNext := by
  cases t <;> rfl

@[simp] theorem isIteratorPop_reword : (t.reword g).isIteratorPop = t.isIteratorPop := by
  cases t <;> rfl

@[simp] theorem isError_reword : (t.reword g).isError = t.isError := by cases t <;> rfl

@[simp] theorem isErrorReturn_reword : (t.reword g).isErrorReturn = t.isErrorReturn := by
  cases t <;> first | rfl | exact isError_reword _

end Token

@[simp] theorem Head.kind_reword (head : Head) : (head.reword g).kind = head.kind := by
  cases head <;> rfl

namespace Statement

theorem rewordAll_eq_map (l : List Statement) : rewordAll g l = l.map (reword g) := by
  induction l with
  | nil => rfl
  | cons s rest ih => rw [rewordAll, ih, List.map_cons]

@[simp] theorem start_reword (s : Statement) : (s.reword g).start = s.start := by cases s <;> rfl

@[simp] theorem token?_reword (s : Statement) :
    (s.reword g).token? = s.token?.map (Token.reword g) := by
  cases s <;> rfl

/-- A question about instructions that texts do not matter to. -/
theorem isPlain_reword {p : Token → Bool} (hp : ∀ t : Token, p (t.reword g) = p t) (s : Statement) :
    (s.reword g).isPlain p = s.isPlain p := by
  rw [isPlain, isPlain, token?_reword, Option.any_map]
  simp only [hp]

@[simp] theorem jumpTarget?_reword (s : Statement) : (s.reword g).jumpTarget? = s.jumpTarget? := by
  rw [jumpTarget?, jumpTarget?, token?_reword, Option.bind_map]
  congr 1
  funext t
  exact t.jumpTarget?_reword

mutual

theorem adopt_reword (scope : Scope) : (s : Statement) →
    (s.reword g).adopt scope = (s.adopt scope).reword g
  | plain .. => rfl
  | escape .. => rfl
  | composite _ _ head _ _ children => by
    rw [reword, adopt, head.kind_reword, adoptAll_rewordAll _ children, adopt, reword]

theorem adoptAll_rewordAll (scope : Scope) : (l : List Statement) →
    adoptAll scope (rewordAll g l) = rewordAll g (adoptAll scope l)
  | [] => rfl
  | s :: rest => by
    rw [rewordAll, adoptAll, adopt_reword scope s, adoptAll_rewordAll scope rest, adoptAll, rewordAll]

end

theorem wrap_reword (start stop : Offset) (head : Head) (l : List Statement) :
    (wrap start head l stop).reword g = wrap start (head.reword g) (rewordAll g l) stop := by
  rw [wrap, wrap, reword, head.kind_reword, adoptAll_rewordAll]

mutual

theorem withoutPops_reword : (s : Statement) → (s.reword g).withoutPops = s.withoutPops.reword g
  | plain .. => rfl
  | escape .. => rfl
  | composite _ _ _ _ _ children => by
    rw [reword, withoutPops, removePops_rewordAll children, withoutPops, reword]

theorem removePops_rewordAll : (l : List Statement) →
    removePops (rewordAll g l) = rewordAll g (removePops l)
  | [] => rfl
  | s :: rest => by
    have next : (rewordAll g rest).head?.any (isPlain Token.isReturn) =
        rest.head?.any (isPlain Token.isReturn) := by
      cases rest with
      | nil => rfl
      | cons x rest => exact isPlain_reword Token.isReturn_reword x
    rw [rewordAll, removePops, removePops, next, isPlain_reword Token.isIteratorPop_reword]
    split
    · exact removePops_rewordAll rest
    · rw [withoutPops_reword s, removePops_rewordAll rest, rewordAll]

end

theorem breaksTo_rewordAll (stop : Offset) (scope : Scope) (l : List Statement) :
    ∀ afterReturn, breaksTo stop scope afterReturn (rewordAll g l) =
      rewordAll g (breaksTo stop scope afterReturn l) := by
  induction l with
  | nil => exact fun _ => rfl
  | cons s rest ih =>
    intro afterReturn
    rw [rewordAll, breaksTo, breaksTo, jumpTarget?_reword, isPlain_reword Token.isReturn_reword]
    split
    · split
      · exact ih true
      · rw [ih false, rewordAll, start_reword]
        rfl
    · rw [ih, rewordAll]

mutual

/-- What is asked of every statement of a tree, if texts do not matter to it. -/
theorem any_reword {p : Statement → Bool} (hp : ∀ s : Statement, p (s.reword g) = p s) :
    (s : Statement) → (s.reword g).any p = s.any p
  | plain .. => hp (plain ..)
  | escape .. => hp (escape ..)
  | composite start scope head stop inner children => by
    have here := hp (composite start scope head stop inner children)
    rw [reword] at here ⊢
    rw [any, any, here, anyOf_rewordAll hp children]

theorem anyOf_rewordAll {p : Statement → Bool} (hp : ∀ s : Statement, p (s.reword g) = p s) :
    (l : List Statement) → anyOf p (rewordAll g l) = anyOf p l
  | [] => rfl
  | s :: rest => by rw [rewordAll, anyOf, anyOf, any_reword hp s, anyOf_rewordAll hp rest]

end

end Statement

namespace Block

open Statement

/-! ### The parts of a reworded block -/

variable (b : Block)

@[simp] theorem scope_reword : (b.reword g).scope = b.scope := rfl

@[simp] theorem getElem?_reword (i : Nat) :
    (b.reword g).statements[i]? = b.statements[i]?.map (Statement.reword g) := by
  rw [reword, rewordAll_eq_map, List.getElem?_map]

@[simp] theorem length_reword : (b.reword g).length = b.length := by
  rw [length, reword, rewordAll_eq_map, List.length_map, length]

@[simp] theorem last?_reword : (b.reword g).last? = b.last?.map (Statement.reword g) := by
  rw [last?, reword, rewordAll_eq_map, List.getLast?_map, last?]

theorem take_reword (i : Nat) :
    (b.reword g).statements.take i = rewordAll g (b.statements.take i) := by
  rw [reword, rewordAll_eq_map, rewordAll_eq_map, List.map_take]

theorem drop_reword (i : Nat) :
    (b.reword g).statements.drop i = rewordAll g (b.statements.drop i) := by
  rw [reword, rewordAll_eq_map, rewordAll_eq_map, List.map_drop]

theorem slice_reword (i j : Nat) : (b.reword g).slice i j = rewordAll g (b.slice i j) := by
  rw [slice, slice, drop_reword, rewordAll_eq_map, rewordAll_eq_map, List.map_take]

@[simp] theorem startAt_reword (i : Nat) : (b.reword g).startAt i = b.startAt i := by
  simp [startAt, Function.comp_def]

@[simp] theorem jumpTargetAt?_reword (i : Nat) : (b.reword g).jumpTargetAt? i = b.jumpTargetAt? i := by
  simp only [jumpTargetAt?, getElem?_reword, Option.bind_map, Function.comp_def, jumpTarget?_reword]

@[simp] theorem followsNext_reword : ∀ i, (b.reword g).followsNext i = b.followsNext i
  | 0 => rfl
  | i + 1 => by
    simp [followsNext, Option.any_map, isPlain_reword Token.isIteratorNext_reword]

theorem trimLast_reword {p : Token → Bool} (hp : ∀ t : Token, p (t.reword g) = p t) :
    (b.reword g).trimLast p = (b.trimLast p).reword g := by
  have ends : (b.reword g).endsWith p = b.endsWith p := by
    simp [endsWith, Option.any_map, isPlain_reword hp]
  rw [trimLast, trimLast, ends]
  split
  · rw [reword, reword, rewordAll_eq_map, rewordAll_eq_map, List.map_dropLast]
  · rfl

/-! ### Where targets lead in a reworded block -/

@[simp] theorem endsAt_reword (target : Offset) : (b.reword g).endsAt target = b.endsAt target := by
  simp [endsAt, Option.any_map]

@[simp] theorem find?_reword (target : Offset) (first : Nat) :
    (b.reword g).find? target first = b.find? target first := by
  simp [find?, drop_reword, rewordAll_eq_map, -List.map_drop, List.findIdx?_map, Function.comp_def]

@[simp] theorem stop_reword : (b.reword g).stop = b.stop := by
  simp [Block.stop, Function.comp_def]

@[simp] theorem secondBranchEnd?_reword (split : Nat) (target : Offset) :
    (b.reword g).secondBranchEnd? split target = b.secondBranchEnd? split target := by
  simp [secondBranchEnd?]

/-! ### The rewrites of a reworded block -/

theorem reword_wrapped (first after : Nat) (start stop : Offset) (head : Head) (l : List Statement) :
    Rewrite.reword g ⟨first, after, [.wrap start head l stop]⟩ =
      ⟨first, after, [.wrap start (head.reword g) (rewordAll g l) stop]⟩ := by
  rw [← wrap_reword]
  rfl

theorem branchRewrite_reword (i : Nat) (condition : Token) (target : Offset) (split : Nat) :
    (b.reword g).branchRewrite i (condition.reword g) target split =
      (b.branchRewrite i condition target split).reword g := by
  rw [branchRewrite, branchRewrite, jumpTargetAt?_reword, startAt_reword, slice_reword]
  cases b.jumpTargetAt? (split - 1) with
  | none => exact (reword_wrapped _ _ _ _ (.ifHead condition) _).symm
  | some x =>
    simp only [secondBranchEnd?_reword]
    split
    · exact (reword_wrapped _ _ _ _ (.whileHead condition) _).symm
    · cases b.secondBranchEnd? split x with
      | none => exact (reword_wrapped _ _ _ _ (.ifHead condition) _).symm
      | some after =>
        dsimp only
        rw [Rewrite.reword, rewordAll, rewordAll, rewordAll, wrap_reword, wrap_reword, slice_reword,
          slice_reword, startAt_reword, startAt_reword]
        rfl

theorem branchRewrite?_reword (i : Nat) (condition : Token) (target : Offset) :
    (b.reword g).branchRewrite? i (condition.reword g) target =
      (b.branchRewrite? i condition target).map (Rewrite.reword g) := by
  rw [branchRewrite?, branchRewrite?, find?_reword]
  cases b.find? target 0 with
  | none => rfl
  | some split =>
    dsimp only
    split
    · rw [branchRewrite_reword, Option.map_some]
    · rfl

theorem escapeRewrite?_reword (i : Nat) (target : Offset) :
    (b.reword g).escapeRewrite? i target = (b.escapeRewrite? i target).map (Rewrite.reword g) := by
  rw [escapeRewrite?, escapeRewrite?, scope_reword, Option.map_map]
  congr 1
  funext frame
  simp only [Function.comp, followsNext_reword, startAt_reword]
  split <;> rfl

theorem iterationRewrite?_reword (i : Nat) (collection : Token) (iterator? : Option Token)
    (target : Offset) :
    (b.reword g).iterationRewrite? i (collection.reword g) (iterator?.map (Token.reword g)) target =
      (b.iterationRewrite? i collection iterator? target).map (Rewrite.reword g) := by
  rw [iterationRewrite?, iterationRewrite?]
  cases target.next? with
  | none => rfl
  | some exit =>
    simp only [find?_reword, Option.map_map]
    congr 1
    funext after
    rw [slice_reword, startAt_reword]
    exact (reword_wrapped _ _ _ _ (.foreachHead collection iterator?) _).symm

theorem openSelectionEnd_reword (first : Nat) :
    (b.reword g).openSelectionEnd first = b.openSelectionEnd first := by
  rw [openSelectionEnd, openSelectionEnd, last?_reword, length_reword, stop_reword]
  cases b.last? with
  | none => rfl
  | some s => simp only [Option.map_some, isPlain_reword Token.isErrorReturn_reword, start_reword]

theorem selectionEndFrom?_reword (first : Nat) (rest : List Statement) :
    ∀ (previous : Statement) (j : Nat),
      (b.reword g).selectionEndFrom? first (previous.reword g) j (rewordAll g rest) =
        b.selectionEndFrom? first previous j rest := by
  induction rest with
  | nil => exact fun _ _ => congrArg some (b.openSelectionEnd_reword first)
  | cons s rest ih =>
    intro previous j
    rw [rewordAll, selectionEndFrom?, selectionEndFrom?, isPlain_reword Token.isSwitch_reword,
      isPlain_reword Token.isCaseLabel_reword, Statement.jumpTarget?_reword, ih]
    simp only [find?_reword]

theorem selectionRewrite?_reword (i : Nat) (s : Statement) (discriminant : Token) :
    (b.reword g).selectionRewrite? i (s.reword g) (discriminant.reword g) =
      (b.selectionRewrite? i s discriminant).map (Rewrite.reword g) := by
  rw [selectionRewrite?, selectionRewrite?, drop_reword, selectionEndFrom?_reword, Option.map_map]
  congr 1
  funext ends
  obtain ⟨after, stop⟩ := ends
  simp only [Function.comp, slice_reword, start_reword]
  exact (reword_wrapped _ _ _ _ (.switchHead discriminant) _).symm

/-- What is rewritten at a place of a reworded block is what is rewritten there, reworded. -/
theorem rewriteAt?_reword (i : Nat) :
    (b.reword g).rewriteAt? i = (b.rewriteAt? i).map (Rewrite.reword g) := by
  rw [rewriteAt?, rewriteAt?, getElem?_reword]
  cases b.statements[i]? with
  | none => rfl
  | some s =>
    simp only [Option.map_some, token?_reword]
    cases s.token? with
    | none => rfl
    | some t =>
      cases t with
      | jumpIfNot => exact b.branchRewrite?_reword i _ _
      | jump => exact b.escapeRewrite?_reword i _
      | foreach => exact b.iterationRewrite?_reword i _ none _
      | foreachWith => exact b.iterationRewrite?_reword i _ (some _) _
      | switch => exact b.selectionRewrite?_reword i s _
      | _ => rfl

theorem firstRewrite?_reword :
    (b.reword g).firstRewrite? = b.firstRewrite?.map (Rewrite.reword g) := by
  rw [firstRewrite?, firstRewrite?, length_reword, List.map_findSome?]
  congr 1
  funext i
  exact b.rewriteAt?_reword i

/-! ### Passes over a reworded block -/

theorem tidy_reword (head : Head) (start stop : Offset) :
    (b.reword g).tidy (head.reword g) start stop = (b.tidy head start stop).reword g := by
  cases head with
  | ifHead | elseHead => rfl
  | whileHead => exact b.trimLast_reword fun t => t.isJumpTo_reword start
  | foreachHead =>
    have trims := (congrArg (trimLast Token.isIteratorNext)
      (b.trimLast_reword (g := g) Token.isIteratorPop_reword)).trans
      (trimLast_reword _ Token.isIteratorNext_reword)
    rw [Head.reword, tidy, trims]
    exact congrArg (Block.mk _) (removePops_rewordAll _)
  | switchHead =>
    have breaks := breaksTo_rewordAll (g := g) stop b.scope b.statements false
    exact (congrArg (fun l => trimLast Token.isDefaultLabel ⟨b.scope, l⟩) breaks).trans
      (trimLast_reword ⟨b.scope, breaksTo stop b.scope false b.statements⟩ Token.isDefaultLabel_reword)

variable {b} {r : Rewrite}

/-- A pass over a reworded block, if structuring of shorter blocks is reworded along. -/
theorem rewritten_reword {i : Nat} (hi : RewriteAt b i r)
    (inner : ∀ c : Block, c.length < b.length → (c.reword g).recovered = c.recovered.reword g) :
    (b.reword g).rewritten (r.reword g) = (b.rewritten r).reword g := by
  have finished : ∀ s ∈ adoptAll b.scope r.made, (s.reword g).finished = s.finished.reword g := by
    intro s hs
    cases s with
    | plain | escape => rfl
    | composite start scope head stop frames children =>
      have shorter : (Block.mk frames children).length < b.length := by
        rw [adoptAll_eq_map, List.mem_map] at hs
        obtain ⟨m, hm, heq⟩ := hs
        rcases hi.made_cases hm with ⟨_, _, _, rfl⟩ | ⟨_, _, _, _, rfl, hlt⟩
        · cases heq
        · rw [adopt_wrap] at heq
          cases heq
          simpa [length] using hlt
      have tidied := (recovered ⟨frames, children⟩).tidy_reword (g := g) head start stop
      rw [← inner _ shorter] at tidied
      rw [Statement.reword, Statement.finished, Statement.finished, Statement.reword]
      exact congrArg (fun d : Block => Statement.composite _ _ _ _ _ d.statements) tidied
  have made : (adoptAll (b.reword g).scope (r.reword g).made).map Statement.finished =
      rewordAll g ((adoptAll b.scope r.made).map Statement.finished) := by
    rw [scope_reword, Rewrite.reword, adoptAll_rewordAll, rewordAll_eq_map, rewordAll_eq_map,
      List.map_map, List.map_map]
    exact List.map_congr_left finished
  have append (l m : List Statement) : rewordAll g (l ++ m) = rewordAll g l ++ rewordAll g m := by
    rw [rewordAll_eq_map, rewordAll_eq_map, rewordAll_eq_map, List.map_append]
  rw [rewritten, rewritten, made, take_reword, drop_reword, ← append, ← append]
  rfl

theorem recovered_reword (g : String → String) (b : Block) :
    (b.reword g).recovered = b.recovered.reword g := by
  refine recovered_induction (P := fun b c => (b.reword g).recovered = c.reword g)
    (fun b settled => ?_) (fun b r hr inner ih => ?_) b
  · exact recovered_of_firstRewrite?_eq_none (by rw [firstRewrite?_reword, settled]; rfl)
  · obtain ⟨i, hi⟩ := rewriteAt_of_firstRewrite? hr
    have first : (b.reword g).firstRewrite? = some (r.reword g) := by
      rw [firstRewrite?_reword, hr]
      rfl
    rw [recovered_of_firstRewrite? first, rewritten_reword hi inner]
    exact ih

theorem hasRawJumps_reword (g : String → String) (b : Block) :
    (b.reword g).hasRawJumps = b.hasRawJumps :=
  anyOf_rewordAll (isPlain_reword Token.isJump_reword) b.statements

/-- **Structuring does not read texts.** A reworded block is structured to the reworded tree, and a jump is
left in the one exactly if one is left in the other. -/
theorem structured_reword (g : String → String) (b : Block) :
    (b.reword g).structured = b.structured.map (Block.reword g) ∧
      (b.reword g).structured.value.hasRawJumps = b.structured.value.hasRawJumps := by
  have commutes : (b.reword g).structured = b.structured.map (Block.reword g) := by
    rw [structured_eq_done, structured_eq_done, recovered_reword]
    rfl
  refine ⟨commutes, ?_⟩
  rw [commutes, Outcome.value_map, hasRawJumps_reword]

end Block

end FlowRecovery
