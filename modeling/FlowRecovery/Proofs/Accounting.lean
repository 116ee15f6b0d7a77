import FlowRecovery.Proofs.Convergence

/-!
# No statement is lost

The outline of a body lists its statements in the order of the code, each with its offset and what
it shows of itself: an instruction, an escape, or the head of a composite statement. The second
branch of a conditional has no head of its own and no line in the outline.

`Accounted l m` says that `m` is what has become of the lines of `l`, one after the other: a line
stays as it is, or a jump becomes an escape, or a branch becomes the head of a composite statement
with the same tokens, or the line is dropped, which happens only to instructions that steer control
(`Token.isFraming`). `accounted_structureWithin` is the statement for passes under any limit.
-/

namespace FlowRecovery

/-- An instruction that has no counterpart in a structured body: a jump, an instruction of an
iterator, a default label. -/
def Token.isFraming : Token → Bool
  | .jump _ | .iteratorNext | .iteratorPop | .defaultLabel => true
  | _ => false

/-- What a statement shows of itself in an outline. -/
inductive Item where
  /-- An instruction with the offset of its end. -/
  | instruction (stop? : Option Offset) (token : Token)
  /-- A `break` or `continue` with the instruction it was made from. -/
  | escape (how : Escape) (token : Token)
  /-- The head of a composite statement. -/
  | head (head : Head)

/-- What an item of an outline may be turned into. -/
inductive Item.Becomes : Item → Item → Prop where
  /-- Any item stays. -/
  | same (item : Item) : Becomes item item
  /-- A jump becomes an escape. -/
  | escape (stop? : Option Offset) (how : Escape) (target : Offset) :
      Becomes (.instruction stop? (.jump target)) (.escape how (.jump target))
  /-- A conditional jump becomes the head of a conditional. -/
  | conditional (stop? : Option Offset) (condition : Token) (target : Offset) :
      Becomes (.instruction stop? (.jumpIfNot condition target)) (.head (.ifHead condition))
  /-- A conditional jump becomes the head of a conditional loop. -/
  | loop (stop? : Option Offset) (condition : Token) (target : Offset) :
      Becomes (.instruction stop? (.jumpIfNot condition target)) (.head (.whileHead condition))
  /-- The head of an iteration becomes the head of a composite statement. -/
  | iteration (stop? : Option Offset) (collection : Token) (iterator? : Option Token)
      (target : Offset) :
      Becomes (.instruction stop? (.foreachOver collection iterator? target))
        (.head (.foreachHead collection iterator?))
  /-- The head of a selection becomes the head of a composite statement. -/
  | selection (stop? : Option Offset) (discriminant : Token) :
      Becomes (.instruction stop? (.switch discriminant)) (.head (.switchHead discriminant))

theorem Item.Becomes.trans {a b c : Item} (h : a.Becomes b) (h' : b.Becomes c) : a.Becomes c := by
  cases h with
  | same => exact h'
  | _ => cases h'; constructor

/-- Only an instruction becomes that instruction. -/
theorem Item.Becomes.eq_of_instruction {a : Item} {stop? : Option Offset} {token : Token}
    (h : a.Becomes (.instruction stop? token)) : a = .instruction stop? token := by
  cases h; rfl

/-- An instruction that is no branch becomes nothing else. -/
theorem Item.Becomes.eq_of_not_isBranch {stop? : Option Offset} {token : Token} {item : Item}
    (h : Becomes (.instruction stop? token) item) (branch : token.isBranch = false) :
    item = .instruction stop? token := by
  cases h with
  | same => rfl
  | iteration => rw [Token.isBranch_foreachOver] at branch; cases branch
  | _ => cases branch

/-- The lines of a body: offsets and items. -/
abbrev Outline := List (Offset × Item)

namespace Statement

mutual

/-- The lines of a statement. -/
def outline : Statement → Outline
  | plain start stop? _ token => [(start, .instruction stop? token)]
  | escape start _ how token => [(start, .escape how token)]
  | composite _ _ .elseHead _ _ children => outlineOf children
  | composite start _ head _ _ children => (start, .head head) :: outlineOf children

/-- The lines of statements. -/
def outlineOf : List Statement → Outline
  | [] => []
  | s :: rest => outline s ++ outlineOf rest

end

end Statement

/-- The second outline is what has become of the first: every line is kept or turned into another
one with the same offset, or dropped if it is a framing instruction. -/
inductive Accounted : Outline → Outline → Prop where
  /-- Nothing is left of nothing. -/
  | nil : Accounted [] []
  /-- A line keeps its offset. -/
  | keep {start : Offset} {item item' : Item} {l m : Outline} :
      item.Becomes item' → Accounted l m → Accounted ((start, item) :: l) ((start, item') :: m)
  /-- A framing instruction is dropped. -/
  | drop {start : Offset} {stop? : Option Offset} {token : Token} {l m : Outline} :
      token.isFraming = true → Accounted l m → Accounted ((start, .instruction stop? token) :: l) m

namespace Accounted

theorem refl : ∀ l : Outline, Accounted l l
  | [] => .nil
  | (_, item) :: rest => .keep (.same item) (refl rest)

theorem append {l m l' m' : Outline} (h : Accounted l m) (h' : Accounted l' m') :
    Accounted (l ++ l') (m ++ m') := by
  induction h with
  | nil => exact h'
  | keep hi _ ih => exact .keep hi ih
  | drop hf _ ih => exact .drop hf ih

theorem trans {l m n : Outline} (h : Accounted l m) (h' : Accounted m n) : Accounted l n := by
  induction h generalizing n with
  | nil => exact h'
  | keep hi _ ih =>
    cases h' with
    | keep hi' h' => exact .keep (hi.trans hi') (ih h')
    | drop hf h' =>
      rw [hi.eq_of_instruction]
      exact .drop hf (ih h')
  | drop hf _ ih => exact .drop hf (ih h')

/-- Offsets are only dropped. -/
theorem sublist {l m : Outline} (h : Accounted l m) : (m.map Prod.fst).Sublist (l.map Prod.fst) := by
  induction h with
  | nil => exact .slnil
  | keep _ _ ih => exact ih.cons_cons _
  | drop _ _ ih => exact ih.cons _

/-- An instruction that can neither be dropped nor turned into anything else is still there. -/
theorem mem {l m : Outline} (h : Accounted l m) {start : Offset} {stop? : Option Offset} {token : Token}
    (hl : (start, .instruction stop? token) ∈ l) (framing : token.isFraming = false)
    (branch : token.isBranch = false) : (start, .instruction stop? token) ∈ m := by
  induction h with
  | nil => cases hl
  | keep hi _ ih =>
    rcases List.mem_cons.1 hl with heq | hl
    · cases heq
      rw [hi.eq_of_not_isBranch branch]
      exact List.mem_cons_self ..
    · exact List.mem_cons_of_mem _ (ih hl)
  | drop hf _ ih =>
    rcases List.mem_cons.1 hl with heq | hl
    · cases heq
      rw [framing] at hf
      cases hf
    · exact ih hl

end Accounted

namespace Statement

/-! ### Lists -/

@[simp] theorem outlineOf_nil : outlineOf [] = [] := rfl

@[simp] theorem outlineOf_cons (s : Statement) (rest : List Statement) :
    outlineOf (s :: rest) = outline s ++ outlineOf rest := rfl

theorem outlineOf_append (l m : List Statement) : outlineOf (l ++ m) = outlineOf l ++ outlineOf m := by
  induction l with
  | nil => rfl
  | cons s rest ih => simp [ih]

theorem outline_composite {start : Offset} {scope : Scope} {head : Head} {stop : Offset}
    {inner : Scope} {children : List Statement} (h : head ≠ .elseHead) :
    outline (.composite start scope head stop inner children) =
      (start, .head head) :: outlineOf children := by
  cases head <;> first | rfl | exact absurd rfl h

/-- The lines of an instruction. -/
theorem outline_of_token? {s : Statement} {t : Token} (h : s.token? = some t) :
    outline s = [(s.start, .instruction s.stop? t)] := by
  cases s <;> simp_all [token?, outline, start, stop?]

mutual

/-- Scopes do not show in an outline. -/
theorem outline_adopt (scope : Scope) : (s : Statement) → outline (s.adopt scope) = outline s
  | .plain .. => rfl
  | .escape .. => rfl
  | .composite start _ head stop _ children => by
    have ih := outlineOf_adoptAll (⟨head.kind, start, stop⟩ :: scope) children
    by_cases h : head = .elseHead
    · subst h; exact ih
    · rw [adopt, outline_composite h, outline_composite h, ih]

/-- Scopes do not show in an outline. -/
theorem outlineOf_adoptAll (scope : Scope) :
    (l : List Statement) → outlineOf (adoptAll scope l) = outlineOf l
  | [] => rfl
  | s :: rest => by
    rw [adoptAll, outlineOf_cons, outlineOf_cons, outline_adopt scope s, outlineOf_adoptAll scope rest]

end

/-! ### Tidying -/

mutual

theorem accounted_withoutPops : (s : Statement) → Accounted (outline s) (outline s.withoutPops)
  | .plain .. => .refl _
  | .escape .. => .refl _
  | .composite start scope head stop inner children => by
    have ih := accounted_removePops children
    by_cases h : head = .elseHead
    · subst h; exact ih
    · rw [withoutPops, outline_composite h, outline_composite h]
      exact .keep (.same _) ih

theorem accounted_removePops : (l : List Statement) → Accounted (outlineOf l) (outlineOf (removePops l))
  | [] => .nil
  | s :: rest => by
    have ih := accounted_removePops rest
    rw [removePops]
    split
    · next h =>
      rw [Bool.and_eq_true] at h
      obtain ⟨t, ht, hpop⟩ := isPlain_iff.1 h.1
      rw [outlineOf_cons, outline_of_token? ht]
      refine .drop ?_ ih
      cases t <;> first | rfl | cases hpop
    · exact .append (accounted_withoutPops s) ih

end

theorem accounted_breaksTo (stop : Offset) (scope : Scope) :
    ∀ (l : List Statement) (afterReturn : Bool),
      Accounted (outlineOf l) (outlineOf (breaksTo stop scope afterReturn l))
  | [], _ => .nil
  | s :: rest, afterReturn => by
    have ih := accounted_breaksTo stop scope rest
    rw [breaksTo]
    split
    · next h =>
      obtain ⟨t, ht, hjump⟩ := Option.bind_eq_some_iff.1 (beq_iff_eq.1 h)
      rw [Token.jumpTarget?_eq_some_iff] at hjump
      subst hjump
      rw [outlineOf_cons, outline_of_token? ht]
      split
      · exact .drop rfl (ih true)
      · exact .keep (.escape _ _ _) (ih false)
    · exact .append (.refl _) (ih _)

end Statement

namespace Block

open Statement

theorem accounted_trimLast {p : Token → Bool} (hp : ∀ t, p t = true → t.isFraming = true)
    (b : Block) : Accounted (outlineOf b.statements) (outlineOf (b.trimLast p).statements) := by
  unfold trimLast
  split
  · next h =>
    obtain ⟨s, hs, hsp⟩ := (Option.any_eq_true _ _).1 h
    obtain ⟨t, ht, htp⟩ := isPlain_iff.1 hsp
    have hlast : b.statements.dropLast ++ [s] = b.statements := by
      obtain ⟨l, hl⟩ := List.getLast?_eq_some_iff.1 hs
      rw [hl, List.dropLast_concat]
    conv => lhs; rw [← hlast]
    rw [outlineOf_append]
    have hdrop : Accounted (outlineOf [s]) [] := by
      rw [outlineOf_cons, outline_of_token? ht]
      exact .drop (hp t htp) .nil
    simpa using (Accounted.refl (outlineOf b.statements.dropLast)).append hdrop
  · exact .refl _

/-- Tidying only drops framing instructions and turns jumps into breaks. -/
theorem accounted_tidy (head : Head) (start stop : Offset) (b : Block) :
    Accounted (outlineOf b.statements) (outlineOf (b.tidy head start stop).statements) := by
  cases head with
  | ifHead | elseHead => exact .refl _
  | whileHead =>
    refine accounted_trimLast (fun t ht => ?_) b
    cases t <;> first | rfl | simp [Token.isJumpTo, Token.jumpTarget?] at ht
  | foreachHead =>
    have pop : Accounted (outlineOf b.statements)
        (outlineOf (b.trimLast Token.isIteratorPop).statements) :=
      accounted_trimLast (fun t ht => by cases t <;> first | rfl | cases ht) b
    have next : Accounted (outlineOf (b.trimLast Token.isIteratorPop).statements)
        (outlineOf ((b.trimLast Token.isIteratorPop).trimLast Token.isIteratorNext).statements) :=
      accounted_trimLast (fun t ht => by cases t <;> first | rfl | cases ht) _
    exact (pop.trans next).trans (accounted_removePops _)
  | switchHead =>
    have breaks := accounted_breaksTo stop b.scope b.statements false
    exact breaks.trans (accounted_trimLast (fun t ht => by cases t <;> first | rfl | cases ht)
      { b with statements := breaksTo stop b.scope false b.statements })

/-! ### A pass -/

/-- What is finished accounts for what was made. -/
theorem RewriteAt.accounted_finished {b : Block} {i : Nat} {r : Rewrite} (h : RewriteAt b i r)
    (inner : ∀ c : Block, c.length < b.length →
      Accounted (outlineOf c.statements) (outlineOf c.recovered.statements)) :
    Accounted (outlineOf r.made) (outlineOf ((adoptAll b.scope r.made).map finished)) := by
  have each (s : Statement) (hs : s ∈ r.made) :
      Accounted (outline s) (outline (s.adopt b.scope).finished) := by
    rcases h.made_cases hs with ⟨_, _, _, rfl⟩ | ⟨start, head, children, stop, rfl, hlt⟩
    · exact .refl _
    · rw [adopt_wrap, ← outline_adopt b.scope, adopt_wrap, finished]
      have kids := (inner ⟨⟨head.kind, start, stop⟩ :: b.scope,
        adoptAll (⟨head.kind, start, stop⟩ :: b.scope) children⟩ (by simpa [length] using hlt)).trans
          (accounted_tidy head start stop _)
      by_cases hhead : head = .elseHead
      · subst hhead; exact kids
      · rw [outline_composite hhead, outline_composite hhead]
        exact .keep (.same _) kids
  rw [adoptAll_eq_map, List.map_map]
  generalize r.made = l at each
  induction l with
  | nil => exact .nil
  | cons s rest ih =>
    exact (each s (List.mem_cons_self ..)).append
      (ih fun m hm => each m (List.mem_cons_of_mem _ hm))

theorem accounted_slice {b : Block} {i j : Nat} {t : Token} {item : Item} {m : Outline}
    (token : b.tokenAt? i = some t) (hij : i < j)
    (becomes : ∀ stop?, Item.Becomes (.instruction stop? t) item)
    (h : Accounted (outlineOf (b.slice (i + 1) j)) m) :
    Accounted (outlineOf (b.slice i j)) ((b.startAt i, item) :: m) := by
  obtain ⟨s, hs, ht⟩ := tokenAt?_eq_some_iff.1 token
  rw [slice_cons hs hij, outlineOf_cons, outline_of_token? ht, startAt_of_getElem? hs]
  exact .keep (becomes _) h

theorem accounted_slice_of_isFraming {b : Block} {i j : Nat} {t : Token} {m : Outline}
    (token : b.tokenAt? i = some t) (hij : i < j) (framing : t.isFraming = true)
    (h : Accounted (outlineOf (b.slice (i + 1) j)) m) : Accounted (outlineOf (b.slice i j)) m := by
  obtain ⟨s, hs, ht⟩ := tokenAt?_eq_some_iff.1 token
  rw [slice_cons hs hij, outlineOf_cons, outline_of_token? ht]
  exact .drop framing h

theorem accounted_slice_of_wrap {b : Block} {i j : Nat} {t : Token} {head : Head} {stop : Offset}
    {children rest : List Statement} (token : b.tokenAt? i = some t) (hij : i < j)
    (becomes : ∀ stop?, Item.Becomes (.instruction stop? t) (.head head))
    (h : Accounted (outlineOf (b.slice (i + 1) j)) (outlineOf children ++ outlineOf rest)) :
    Accounted (outlineOf (b.slice i j))
      (outlineOf (.wrap (b.startAt i) head children stop :: rest)) := by
  have hne : head ≠ .elseHead := by
    rintro rfl
    cases becomes none
  rw [outlineOf_cons, wrap, outline_composite hne, outlineOf_adoptAll]
  exact accounted_slice token hij becomes h

/-- What a rewrite makes accounts for the statements that give way. -/
theorem RewriteAt.accounted_made {b : Block} {i : Nat} {r : Rewrite} (h : RewriteAt b i r) :
    Accounted (outlineOf (b.slice r.first r.after)) (outlineOf r.made) := by
  obtain ⟨hia, hle⟩ := h.bounds
  have all (l : List Statement) : Accounted (outlineOf l) (outlineOf l ++ outlineOf []) := by
    rw [outlineOf_nil, List.append_nil]
    exact .refl _
  cases h with
  | conditional token => exact accounted_slice_of_wrap token hia (.conditional · _ _) (all _)
  | loop token => exact accounted_slice_of_wrap token hia (.loop · _ _) (all _)
  | @alternative condition target x split after token found forward across ne_start second =>
    have hne : i ≠ split - 1 := by
      rintro rfl
      rw [token] at across
      cases across
    have hsplit := (lt_of_secondBranchEnd? second).1
    -- The jump over the second branch stands between the two branches, and is dropped.
    refine accounted_slice_of_wrap token hia (.conditional · _ _) ?_
    rw [slice_append b (show i + 1 ≤ split - 1 by omega) (show split - 1 ≤ after by omega),
      outlineOf_append]
    refine .append (.refl _) (accounted_slice_of_isFraming across (by omega) rfl ?_)
    rw [show split - 1 + 1 = split by omega, outlineOf_cons, wrap, outline, outlineOf_adoptAll]
    exact all _
  | leave token =>
    refine accounted_slice token (Nat.lt_succ_self i) (.escape · _ _) ?_
    rw [slice_self]
    exact .nil
  | advance token exit kind step =>
    -- The step of the iterator stands before the jump, and is dropped.
    obtain _ | k := i
    · cases step
    obtain ⟨s, hs, hstep⟩ := (Option.any_eq_true _ _).1 step
    obtain ⟨t, ht, hnext⟩ := isPlain_iff.1 hstep
    have framing : t.isFraming = true := by cases t <;> first | rfl | cases hnext
    refine accounted_slice_of_isFraming (tokenAt?_eq_some_iff.2 ⟨s, hs, ht⟩)
      (show k < k + 1 + 1 by omega) framing ?_
    refine accounted_slice token (Nat.lt_succ_self _) (.escape · _ _) ?_
    rw [show k + 1 - 1 = k from rfl, slice_self]
    exact .nil
  | iteration token => exact accounted_slice_of_wrap token hia (.iteration · _ _ _) (all _)
  | @selection s discriminant after stop here token =>
    rw [← startAt_of_getElem? here]
    exact accounted_slice_of_wrap (tokenAt?_eq_some_iff.2 ⟨s, here, token⟩) hia (.selection · _)
      (all _)

/-- A pass accounts for all lines. -/
theorem RewriteAt.accounted_rewritten {b : Block} {i : Nat} {r : Rewrite} (h : RewriteAt b i r)
    (inner : ∀ c : Block, c.length < b.length →
      Accounted (outlineOf c.statements) (outlineOf c.recovered.statements)) :
    Accounted (outlineOf b.statements) (outlineOf (b.rewritten r).statements) := by
  have whole := b.take_slice_drop (Nat.le_of_lt (Nat.lt_of_le_of_lt h.first_le h.bounds.1))
  conv => lhs; rw [← whole]
  simp only [rewritten, outlineOf_append, List.append_assoc]
  exact .append (.refl _) (.append (h.accounted_made.trans (h.accounted_finished inner)) (.refl _))

/-- **No statement is lost, doubled, altered or moved**, however many passes there are. -/
theorem accounted_structureWithin (limit : Nat) (b : Block) :
    Accounted (outlineOf b.statements) (outlineOf (b.structureWithin limit).value.statements) := by
  refine value_structureWithin_induction
    (R := fun b c => Accounted (outlineOf b.statements) (outlineOf c.statements))
    (fun _ => .refl _) Accounted.trans (fun b r hr inner => ?_) limit b
  obtain ⟨i, hi⟩ := rewriteAt_of_firstRewrite? hr
  exact hi.accounted_rewritten inner

end Block

end FlowRecovery
