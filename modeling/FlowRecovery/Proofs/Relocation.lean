import FlowRecovery.Structuring.Rewrite
import FlowRecovery.Structuring.Tidy

/-!
# Relocation

A block can be moved: all offsets in it are put further by some distance (`Block.relocate`), the starts and
ends of statements, the targets in tokens and heads, the ends of frames.

What does not look at offsets does not notice that. What compares two offsets or takes the next one of an
offset does not notice it either, as long as the offset still is one afterwards (`Offset.Fits`):
`Offset.relocate_inj` and `Offset.next?_relocate`.

Label tables are left as they are. Structuring does not look into them.
-/

namespace FlowRecovery

/-! ### Relocation -/

/-- The offset `c` bytes further, where there is one. -/
def Offset.relocate (c : Nat) (o : Offset) : Offset := Fin.ofNat 4294967296 (o.val + c)

namespace Token

/-- Moves all targets in a token. -/
def relocate (c : Nat) : Token → Token
  | jumpIfNot condition target => jumpIfNot (condition.relocate c) (target.relocate c)
  | jump target => jump (target.relocate c)
  | foreach collection target => foreach (collection.relocate c) (target.relocate c)
  | foreachWith collection iterator target =>
      foreachWith (collection.relocate c) (iterator.relocate c) (target.relocate c)
  | switch discriminant => switch (discriminant.relocate c)
  | retValue value => retValue (value.relocate c)
  | defaultParamValue value => defaultParamValue (value.relocate c)
  | t => t

/-- The targets in a token. -/
def targets : Token → List Offset
  | jumpIfNot condition target => target :: condition.targets
  | jump target => [target]
  | foreach collection target => target :: collection.targets
  | foreachWith collection iterator target => target :: (collection.targets ++ iterator.targets)
  | switch discriminant => discriminant.targets
  | retValue value | defaultParamValue value => value.targets
  | _ => []

end Token

namespace Head

/-- Moves all targets in a head. -/
def relocate (c : Nat) : Head → Head
  | ifHead condition => ifHead (condition.relocate c)
  | elseHead => elseHead
  | whileHead condition => whileHead (condition.relocate c)
  | foreachHead collection iterator? =>
      foreachHead (collection.relocate c) (iterator?.map (Token.relocate c))
  | switchHead discriminant => switchHead (discriminant.relocate c)

/-- The targets in a head. -/
def targets : Head → List Offset
  | ifHead condition | whileHead condition => condition.targets
  | elseHead => []
  | foreachHead collection iterator? => collection.targets ++ iterator?.toList.flatMap Token.targets
  | switchHead discriminant => discriminant.targets

end Head

/-- Moves a frame. -/
def Frame.relocate (c : Nat) (f : Frame) : Frame := ⟨f.kind, f.start.relocate c, f.stop.relocate c⟩

namespace Scope

/-- Moves all frames of a scope. -/
def relocate (c : Nat) (scope : Scope) : Scope := scope.map (Frame.relocate c)

/-- The offsets in a scope. -/
def offsets (scope : Scope) : List Offset := scope.flatMap fun f => [f.start, f.stop]

end Scope

namespace Statement

mutual

/-- Moves all offsets in a statement. -/
def relocate (c : Nat) : Statement → Statement
  | plain start stop? scope token =>
      plain (start.relocate c) (stop?.map (Offset.relocate c)) (scope.relocate c) (token.relocate c)
  | escape start scope how token =>
      escape (start.relocate c) (scope.relocate c) how (token.relocate c)
  | composite start scope head stop inner children =>
      composite (start.relocate c) (scope.relocate c) (head.relocate c) (stop.relocate c)
        (inner.relocate c) (relocateAll c children)

/-- Moves all offsets in statements. -/
def relocateAll (c : Nat) : List Statement → List Statement
  | [] => []
  | s :: rest => relocate c s :: relocateAll c rest

end

mutual

/-- The offsets in a statement. -/
def offsets : Statement → List Offset
  | plain start stop? scope token => start :: (stop?.toList ++ scope.offsets ++ token.targets)
  | escape start scope _ token => start :: (scope.offsets ++ token.targets)
  | composite start scope head stop inner children =>
      start :: stop :: (scope.offsets ++ inner.offsets ++ head.targets ++ offsetsOf children)

/-- The offsets in statements. -/
def offsetsOf : List Statement → List Offset
  | [] => []
  | s :: rest => offsets s ++ offsetsOf rest

end

end Statement

namespace Block

/-- Moves all offsets in a block. -/
def relocate (c : Nat) (b : Block) : Block :=
  ⟨b.scope.relocate c, Statement.relocateAll c b.statements⟩

/-- The offsets in a block. -/
def offsets (b : Block) : List Offset := b.scope.offsets ++ Statement.offsetsOf b.statements

end Block

/-- Moves a rewrite along with its block. -/
def Rewrite.relocate (c : Nat) (r : Rewrite) : Rewrite :=
  ⟨r.first, r.after, Statement.relocateAll c r.made⟩

/-! ### Offsets -/

/-- A number still is an offset when it is moved. -/
def Offset.Fits (c n : Nat) : Prop := n + c < 4294967296

namespace Offset

variable {c : Nat} {o p : Offset}

theorem Fits.of_le {m n : Nat} (h : Fits c n) (hmn : m ≤ n) : Fits c m :=
  Nat.lt_of_le_of_lt (Nat.add_le_add_right hmn c) h

theorem val_relocate (h : Fits c o.val) : (o.relocate c).val = o.val + c := Nat.mod_eq_of_lt h

theorem relocate_inj (ho : Fits c o.val) (hp : Fits c p.val) : o.relocate c = p.relocate c ↔ o = p := by
  rw [Fin.ext_iff, Fin.ext_iff, val_relocate ho, val_relocate hp, Nat.add_right_cancel_iff]

theorem relocate_beq (ho : Fits c o.val) (hp : Fits c p.val) :
    (o.relocate c == p.relocate c) = (o == p) := by
  rw [Bool.eq_iff_iff, beq_iff_eq, beq_iff_eq, relocate_inj ho hp]

theorem relocate_lt (ho : Fits c o.val) (hp : Fits c p.val) : o.relocate c < p.relocate c ↔ o < p := by
  rw [Fin.lt_def, Fin.lt_def, val_relocate ho, val_relocate hp, Nat.add_lt_add_iff_right]

theorem next?_of_lt {n : Nat} (h : n + 1 < 4294967296) (hn : o.val = n) : o.next? = some ⟨n + 1, h⟩ := by
  subst hn
  exact dif_pos h

/-- With room for one byte more, the next offset is moved along. -/
theorem next?_relocate (h : Fits c (o.val + 1)) : (o.relocate c).next? = o.next?.map (relocate c) := by
  have hfits : o.val + 1 + c < 4294967296 := h
  have hval := val_relocate (h.of_le (Nat.le_succ _))
  rw [next?_of_lt (by omega) hval, next?_of_lt (by omega) rfl, Option.map_some, Option.some.injEq,
    Fin.ext_iff, val_relocate h]
  exact Nat.add_right_comm ..

theorem nextCapped_relocate (h : Fits c (o.val + 1)) :
    (o.relocate c).nextCapped = o.nextCapped.relocate c := by
  rw [nextCapped, nextCapped, next?_relocate h]
  cases o.next? <;> rfl

theorem fits_nextCapped (h : Fits c (o.val + 1)) : Fits c o.nextCapped.val := by
  refine h.of_le ?_
  rw [nextCapped]
  cases hnext : o.next? with
  | none => exact Nat.le_succ _
  | some p => exact Nat.le_of_eq (val_of_next? hnext)

end Offset

/-! ### What does not look at offsets -/

namespace Token

variable {c : Nat}

theorem jumpTarget?_relocate (t : Token) :
    (t.relocate c).jumpTarget? = t.jumpTarget?.map (Offset.relocate c) := by
  cases t <;> rfl

theorem isReturn_relocate (t : Token) : (t.relocate c).isReturn = t.isReturn := by cases t <;> rfl

theorem isCaseLabel_relocate (t : Token) : (t.relocate c).isCaseLabel = t.isCaseLabel := by
  cases t <;> rfl

theorem isDefaultLabel_relocate (t : Token) : (t.relocate c).isDefaultLabel = t.isDefaultLabel := by
  cases t <;> rfl

theorem isSwitch_relocate (t : Token) : (t.relocate c).isSwitch = t.isSwitch := by cases t <;> rfl

theorem isIteratorNext_relocate (t : Token) : (t.relocate c).isIteratorNext = t.isIteratorNext := by
  cases t <;> rfl

theorem isIteratorPop_relocate (t : Token) : (t.relocate c).isIteratorPop = t.isIteratorPop := by
  cases t <;> rfl

theorem isError_relocate (t : Token) : (t.relocate c).isError = t.isError := by cases t <;> rfl

theorem isErrorReturn_relocate (t : Token) : (t.relocate c).isErrorReturn = t.isErrorReturn := by
  cases t <;> first | rfl | exact isError_relocate _

end Token

namespace Statement

variable {c : Nat}

theorem relocateAll_eq_map (l : List Statement) : relocateAll c l = l.map (relocate c) := by
  induction l with
  | nil => rfl
  | cons s rest ih => rw [relocateAll, ih, List.map_cons]

theorem relocateAll_append (l m : List Statement) :
    relocateAll c (l ++ m) = relocateAll c l ++ relocateAll c m := by
  rw [relocateAll_eq_map, relocateAll_eq_map, relocateAll_eq_map, List.map_append]

@[simp] theorem start_relocate (s : Statement) : (s.relocate c).start = s.start.relocate c := by
  cases s <;> rfl

@[simp] theorem token?_relocate (s : Statement) :
    (s.relocate c).token? = s.token?.map (Token.relocate c) := by
  cases s <;> rfl

theorem isPlain_relocate {p : Token → Bool} (hp : ∀ t : Token, p (t.relocate c) = p t) (s : Statement) :
    (s.relocate c).isPlain p = s.isPlain p := by
  rw [isPlain, isPlain, token?_relocate, Option.any_map]
  simp only [hp]

theorem jumpTarget?_relocate (s : Statement) :
    (s.relocate c).jumpTarget? = s.jumpTarget?.map (Offset.relocate c) := by
  rw [jumpTarget?, jumpTarget?, token?_relocate, Option.bind_map, Option.map_bind]
  congr 1
  funext t
  exact t.jumpTarget?_relocate

mutual

theorem adopt_relocate (scope : Scope) : (s : Statement) →
    (s.relocate c).adopt (scope.relocate c) = (s.adopt scope).relocate c
  | plain .. => rfl
  | escape .. => rfl
  | composite start _ head stop _ children => by
    have hframe : (⟨(head.relocate c).kind, start.relocate c, stop.relocate c⟩ : Frame) ::
        scope.relocate c = Scope.relocate c (⟨head.kind, start, stop⟩ :: scope) := by
      cases head <;> rfl
    rw [relocate, adopt, hframe, adoptAll_relocateAll _ children, adopt, relocate]

theorem adoptAll_relocateAll (scope : Scope) : (l : List Statement) →
    adoptAll (scope.relocate c) (relocateAll c l) = relocateAll c (adoptAll scope l)
  | [] => rfl
  | s :: rest => by
    rw [relocateAll, adoptAll, adopt_relocate scope s, adoptAll_relocateAll scope rest, adoptAll, relocateAll]

end

theorem wrap_relocate (start stop : Offset) (head : Head) (l : List Statement) :
    (wrap start head l stop).relocate c =
      wrap (start.relocate c) (head.relocate c) (relocateAll c l) (stop.relocate c) := by
  have hframe : [(⟨(head.relocate c).kind, start.relocate c, stop.relocate c⟩ : Frame)] =
      Scope.relocate c [⟨head.kind, start, stop⟩] := by
    cases head <;> rfl
  rw [wrap, wrap, relocate, hframe, adoptAll_relocateAll]
  rfl

mutual

theorem withoutPops_relocate : (s : Statement) → (s.relocate c).withoutPops = s.withoutPops.relocate c
  | plain .. => rfl
  | escape .. => rfl
  | composite _ _ _ _ _ children => by
    rw [relocate, withoutPops, removePops_relocateAll children, withoutPops, relocate]

theorem removePops_relocateAll : (l : List Statement) →
    removePops (relocateAll c l) = relocateAll c (removePops l)
  | [] => rfl
  | s :: rest => by
    have next : (relocateAll c rest).head?.any (isPlain Token.isReturn) =
        rest.head?.any (isPlain Token.isReturn) := by
      cases rest with
      | nil => rfl
      | cons x rest => exact isPlain_relocate Token.isReturn_relocate x
    rw [relocateAll, removePops, removePops, next, isPlain_relocate Token.isIteratorPop_relocate]
    split
    · exact removePops_relocateAll rest
    · rw [withoutPops_relocate s, removePops_relocateAll rest, relocateAll]

end

theorem findIdx?_relocateAll {target : Offset} (ht : Offset.Fits c target.val) {l : List Statement}
    (hl : ∀ s ∈ l, Offset.Fits c s.start.val) :
    (relocateAll c l).findIdx? (fun s => s.start == target.relocate c) =
      l.findIdx? fun s => s.start == target := by
  induction l with
  | nil => rfl
  | cons s l ih =>
    rw [relocateAll, List.findIdx?_cons, List.findIdx?_cons, start_relocate,
      Offset.relocate_beq (hl s (List.mem_cons_self ..)) ht,
      ih fun x hx => hl x (List.mem_cons_of_mem _ hx)]

end Statement

theorem Scope.loopExit?_relocate {c : Nat} {scope : Scope} {target : Offset}
    (frames : ∀ frame ∈ scope, Offset.Fits c frame.stop.val) (ht : Offset.Fits c target.val) :
    (scope.relocate c).loopExit? (target.relocate c) = (scope.loopExit? target).map (Frame.relocate c) := by
  have same : ∀ frame ∈ scope,
      ((fun frame : Frame => frame.kind.isLoop && frame.stop == target.relocate c) ∘ Frame.relocate c) frame =
        (frame.kind.isLoop && frame.stop == target) := fun frame hframe =>
    congrArg (frame.kind.isLoop && ·) (Offset.relocate_beq (frames frame hframe) ht)
  rw [loopExit?, relocate, List.find?_map, ← List.head?_filter, List.filter_congr same, List.head?_filter]
  rfl

end FlowRecovery
