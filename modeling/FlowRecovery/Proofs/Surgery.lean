import FlowRecovery.Proofs.Consistency
import FlowRecovery.Proofs.InPlace

/-!
# Structuring in place goes through

The program that structures a block in place has a result, and it is the one of `Block.structureWithin`
(`structureInPlace?_eq`), so no index, range or difference on the way is out of bounds. That holds for
every block as long as scopes are given anew at every step, and with any test for the sameness of scopes
as long as the statements of the block are linked (`Sameness.Suits`).

The lemmas that carry the proof say what one operation does to a list that is written as the parts
before, at and behind the places it concerns (`cutRange?_append` and the ones that follow it).
-/

namespace FlowRecovery

namespace Statement

mutual

theorem moveTo_never (scope : Scope) : (s : Statement) → s.moveTo .never scope = s.adopt scope
  | plain .. => rfl
  | escape .. => rfl
  | composite start _ head stop _ children => by
    have ih := moveAllTo_never (⟨head.kind, start, stop⟩ :: scope) children
    rw [moveTo, if_neg (by simp [Sameness.never]), ih, adopt]

theorem moveAllTo_never (scope : Scope) :
    (l : List Statement) → moveAllTo .never scope l = adoptAll scope l
  | [] => rfl
  | s :: rest => by
    rw [moveAllTo, moveTo_never scope s, moveAllTo_never scope rest, adoptAll]

end

mutual

/-- A linked statement may be left alone where it is found to be in the right scope already. -/
theorem moveTo_of_linked (t : Sameness) (scope : Scope) :
    (s : Statement) → s.Linked → s.moveTo t scope = s.adopt scope
  | plain .., _ => rfl
  | escape .., _ => rfl
  | composite start outer head stop inner children, h => by
    obtain ⟨rfl, hchildren⟩ := linked_composite_iff.1 h
    rw [moveTo]
    split
    · next same =>
      obtain rfl : outer = scope := t.eq_of_same same
      exact (adopt_of_linked _ h).symm
    · rw [adopt, moveAllTo_of_consistent t _ children hchildren]

theorem moveAllTo_of_consistent (t : Sameness) (scope : Scope) {outer : Scope} :
    (l : List Statement) → Block.Consistent ⟨outer, l⟩ → moveAllTo t scope l = adoptAll scope l
  | [], _ => rfl
  | s :: rest, h => by
    have hs := (Block.consistent_iff.1 h s (List.mem_cons_self ..)).2
    rw [moveAllTo, moveTo_of_linked t scope s hs,
      moveAllTo_of_consistent t scope rest (h.mono fun _ hm => List.mem_cons_of_mem _ hm), adoptAll]

end

theorem moveAllTo_eq_map (t : Sameness) (scope : Scope) (l : List Statement) :
    moveAllTo t scope l = l.map (moveTo t scope) := by
  induction l with
  | nil => rfl
  | cons s rest ih => rw [moveAllTo, ih, List.map_cons]

end Statement

/-- The test finds nothing, or the statement is linked; either way, moving the statement is adopting
it. -/
def Sameness.Suits (t : Sameness) (s : Statement) : Prop := t = .never ∨ s.Linked

namespace Sameness.Suits

variable {t : Sameness} {s : Statement}

theorem moveTo_eq (h : t.Suits s) (scope : Scope) : s.moveTo t scope = s.adopt scope := by
  rcases h with rfl | h
  · exact s.moveTo_never scope
  · exact s.moveTo_of_linked t scope h

theorem wrapBy_eq {children : List Statement} (h : ∀ s ∈ children, t.Suits s) (start : Offset)
    (head : Head) (stop : Offset) :
    Statement.wrapBy t start head children stop = .wrap start head children stop := by
  rw [Statement.wrapBy, Statement.wrap, Statement.moveAllTo_eq_map, Statement.adoptAll_eq_map,
    List.map_congr_left fun s hs => (h s hs).moveTo_eq _]

theorem wrap (t : Sameness) (start : Offset) (head : Head) (children : List Statement)
    (stop : Offset) : t.Suits (.wrap start head children stop) :=
  .inr (Statement.linked_composite_iff.2 ⟨rfl, Statement.consistent_adoptAll _ _⟩)

end Sameness.Suits

/-! ### Tidying -/

namespace Statement

theorem withoutPops_of_token? {s : Statement} {token : Token} (h : s.token? = some token) :
    s.withoutPops = s := by
  cases s <;> first | rfl | cases h

mutual

theorem popsWithin?_eq : (s : Statement) → s.popsWithin? = some s.withoutPops
  | plain .. => rfl
  | escape .. => rfl
  | composite _ _ _ _ _ children => by
    have loop : popsFrom? children 0 children = some (removePops children) := popsFrom?_eq [] children
    rw [popsWithin?, loop, withoutPops]
    rfl

/-- The loop over a list, at the place where `ahead` begins and with `done` behind it. -/
theorem popsFrom?_eq (done : List Statement) :
    (ahead : List Statement) →
      popsFrom? (done ++ ahead) done.length ahead = some (done ++ removePops ahead)
  | [] => by
    rw [popsFrom?, removePops]
  | [last] => by
    have keeps : removePops [last] = [last.withoutPops] := by simp [removePops]
    rw [popsFrom?, popsWithin?_eq last, keeps]
    simp
  | s :: next :: rest => by
    have here : (done ++ s :: next :: rest)[done.length]? = some s := by simp
    have there : (done ++ s :: next :: rest)[done.length + 1]? = some next := by simp
    rw [popsFrom?, here, there]
    simp only [Option.bind_eq_bind, Option.bind_some]
    by_cases hpop : (s.isPlain Token.isIteratorPop && next.isPlain Token.isReturn) = true
    · -- The statement behind the removed one is a return, over which the loop steps.
      rw [if_pos hpop]
      rw [Bool.and_eq_true] at hpop
      obtain ⟨token, htoken, hreturn⟩ := isPlain_iff.1 hpop.2
      have hnext : next.isPlain Token.isIteratorPop = false := by
        rw [isPlain, htoken]
        cases token <;> first | rfl | cases hreturn
      have step := popsFrom?_eq (done ++ [next]) rest
      have erased : (done ++ s :: next :: rest).eraseIdx done.length = done ++ next :: rest := by
        rw [List.eraseIdx_append_of_length_le (Nat.le_refl _), Nat.sub_self]
        rfl
      rw [List.append_assoc, List.length_append] at step
      rw [erased, removePops, if_pos (by simpa using hpop), removePops_cons_of_not hnext,
        withoutPops_of_token? htoken]
      simpa using step
    · rw [if_neg hpop, popsWithin?_eq s, removePops]
      have step := popsFrom?_eq (done ++ [s.withoutPops]) (next :: rest)
      rw [if_neg (by simpa using hpop)]
      simpa using step

end

end Statement

namespace Block

open Statement

/-! ### Operations on a list in parts -/

section

variable (t : Sameness) (scope : Scope) (front body rest : List Statement) (s : Statement)

theorem removeRange?_append :
    removeRange? ⟨scope, front ++ (body ++ rest)⟩ front.length body.length =
      some ⟨scope, front ++ rest⟩ := by
  simp [removeRange?, splice, length, adoptAll]

theorem cutRange?_append :
    cutRange? ⟨scope, front ++ (body ++ rest)⟩ front.length body.length =
      some (⟨[], body⟩, ⟨scope, front ++ rest⟩) := by
  simp [cutRange?, removeRange?_append]

theorem insertBy?_append :
    insertBy? t ⟨scope, front ++ rest⟩ front.length s =
      some ⟨scope, front ++ s.moveTo t scope :: rest⟩ := by
  simp [insertBy?, length]

theorem replaceRangeBy?_append :
    replaceRangeBy? t ⟨scope, front ++ (body ++ rest)⟩ front.length body.length s =
      some ⟨scope, front ++ s.moveTo t scope :: rest⟩ := by
  simp [replaceRangeBy?, removeRange?_append, insertBy?_append]

theorem follows?_append (p : Token → Bool) :
    follows? ⟨scope, front ++ rest⟩ front.length p =
      some (front.getLast?.any (Statement.isPlain p)) := by
  rcases List.eq_nil_or_concat front with rfl | ⟨front, last, rfl⟩
  · rfl
  · simp [follows?]

end

section

variable {b : Block} {i j : Nat}

theorem length_take_of_le (hi : i ≤ b.length) : (b.statements.take i).length = i :=
  List.length_take_of_le hi

theorem length_slice (hj : j ≤ b.length) : (b.slice i j).length = j - i := by
  simp only [length] at hj
  simp only [slice, List.length_take, List.length_drop]
  omega

theorem cutRange?_eq (hij : i ≤ j) (hj : j ≤ b.length) :
    b.cutRange? i (j - i) =
      some (⟨[], b.slice i j⟩, ⟨b.scope, b.statements.take i ++ b.statements.drop j⟩) := by
  have cut := cutRange?_append b.scope (b.statements.take i) (b.slice i j) (b.statements.drop j)
  rwa [take_slice_drop b hij, length_take_of_le (Nat.le_trans hij hj), length_slice hj] at cut

theorem replaceRangeBy?_eq (t : Sameness) (hij : i ≤ j) (hj : j ≤ b.length) (s : Statement) :
    b.replaceRangeBy? t i (j - i) s =
      some ⟨b.scope, b.statements.take i ++ s.moveTo t b.scope :: b.statements.drop j⟩ := by
  have replaced := replaceRangeBy?_append t b.scope (b.statements.take i) (b.slice i j)
    (b.statements.drop j) s
  rwa [take_slice_drop b hij, length_take_of_le (Nat.le_trans hij hj), length_slice hj] at replaced

end

/-- The loop over the children of a selection, at the place where `ahead` begins and with `done` behind
it. -/
theorem breaksFrom?_eq (t : Sameness) (stop : Offset) (scope : Scope) (ahead : List Statement) :
    ∀ done : List Statement,
      breaksFrom? t stop ahead.length done.length ⟨scope, done ++ ahead⟩ =
        some ⟨scope, done ++
          breaksTo stop scope (done.getLast?.any (Statement.isPlain Token.isReturn)) ahead⟩ := by
  induction ahead with
  | nil => intro done; rfl
  | cons s rest ih =>
    intro done
    have here : (done ++ s :: rest)[done.length]? = some s := by simp
    rw [List.length_cons, breaksFrom?, here, breaksTo]
    simp only [Option.bind_eq_bind, Option.bind_some]
    by_cases hjump : (s.jumpTarget? == some stop) = true
    · rw [if_pos hjump, if_pos hjump, follows?_append, Option.bind_some]
      by_cases hreturn : done.getLast?.any (Statement.isPlain Token.isReturn) = true
      · have removed := removeRange?_append scope done [s] rest
        rw [if_pos hreturn, if_pos hreturn]
        simp only [List.length_singleton, List.singleton_append] at removed
        rw [removed, Option.bind_some, ih, hreturn]
      · have replaced := replaceRangeBy?_append t scope done [s] rest
          (.escape s.start [] .leave (.jump stop))
        rw [if_neg hreturn, if_neg hreturn]
        simp only [List.length_singleton, List.singleton_append, moveTo] at replaced
        have step := ih (done ++ [.escape s.start scope .leave (.jump stop)])
        rw [replaced, Option.bind_some]
        simpa [Statement.isPlain, Statement.token?] using step
    · rw [if_neg hjump, if_neg hjump]
      simpa using ih (done ++ [s])

theorem tidyInPlace?_eq (t : Sameness) (head : Head) (start stop : Offset) (b : Block) :
    b.tidyInPlace? t head start stop = some (b.tidy head start stop) := by
  cases head with
  | ifHead | elseHead | whileHead => rfl
  | foreachHead =>
    have loop (l : List Statement) : popsFrom? l 0 l = some (removePops l) := popsFrom?_eq [] l
    simp [tidyInPlace?, tidy, loop]
  | switchHead =>
    have loop := breaksFrom?_eq t stop b.scope b.statements []
    simp only [List.length_nil, List.nil_append, List.getLast?_nil, Option.any_none] at loop
    simp [tidyInPlace?, tidy, length, loop]

/-! ### Rewrites -/

section

variable {inner : Block → Option (Outcome Block)} {n : Nat} {t : Sameness}

/-- `inner` structures every consistent block of fewer than `n` statements. -/
def Structures (inner : Block → Option (Outcome Block)) (n : Nat) : Prop :=
  ∀ c : Block, c.Consistent → c.length < n → inner c = some (.done c.recovered)

theorem finishAt?_append (scope : Scope) (front rest : List Statement) {start stop : Offset}
    {outer frames : Scope} {head : Head} {children : List Statement}
    (h : inner ⟨frames, children⟩ = some (.done (recovered ⟨frames, children⟩))) :
    finishAt? t inner ⟨scope, front ++ .composite start outer head stop frames children :: rest⟩
        front.length =
      some (.done ⟨scope, front ++
        (Statement.composite start outer head stop frames children).finished :: rest⟩) := by
  simp [finishAt?, h, tidyInPlace?_eq, Outcome.done, finished]

/-- A composite statement that was just put in is finished. -/
theorem finishAt?_wrap (structures : Structures inner n) (scope : Scope)
    (front body rest : List Statement) (start : Offset) (head : Head) (stop : Offset)
    (hlen : body.length < n) :
    finishAt? t inner ⟨scope, front ++ (wrap start head body stop).adopt scope :: rest⟩ front.length =
      some (.done ⟨scope, front ++ ((wrap start head body stop).adopt scope).finished :: rest⟩) := by
  rw [adopt_wrap]
  exact finishAt?_append scope front rest
    (structures _ (consistent_adoptAll _ _) (by simpa [length] using hlen))

/-- The second branch of a conditional is put in and finished. -/
theorem finishAt?_insert (structures : Structures inner n) (scope : Scope)
    (front body rest : List Statement) (start : Offset) (head : Head) (stop : Offset)
    (hlen : body.length < n) (suits : ∀ s ∈ body, t.Suits s) :
    (insertBy? t ⟨scope, front ++ rest⟩ front.length (wrapBy t start head body stop)).bind
        (finishAt? t inner · front.length) =
      some (.done ⟨scope, front ++ ((wrap start head body stop).adopt scope).finished :: rest⟩) := by
  rw [Sameness.Suits.wrapBy_eq suits, insertBy?_append, (Sameness.Suits.wrap ..).moveTo_eq,
    Option.bind_some, finishAt?_wrap structures scope front body rest start head stop hlen]

theorem fold?_append (structures : Structures inner n) (scope : Scope) (front : List Statement)
    (first : Statement) (body tail rest : List Statement) (start : Offset) (head : Head)
    (stop : Offset) (hlen : body.length < n) (suits : ∀ s ∈ body, t.Suits s) :
    fold? t inner ⟨scope, front ++ first :: (body ++ (tail ++ rest))⟩ front.length
        (front.length + 1 + body.length) (1 + tail.length) start head stop =
      some (.done
        ⟨scope, front ++ ((wrap start head body stop).adopt scope).finished :: rest⟩) := by
  have size : (front.length + 1 + body.length).psub front.length = some (1 + body.length) := by
    rw [Nat.psub_eq_sub (by omega), Nat.add_assoc, Nat.add_sub_cancel_left]
  have size' : (1 + body.length).psub 1 = some body.length := by
    rw [Nat.psub_eq_sub (by omega), Nat.add_sub_cancel_left]
  have cut := cutRange?_append scope (front ++ [first]) body (tail ++ rest)
  have replaced := replaceRangeBy?_append t scope front (first :: tail) rest (.wrap start head body stop)
  rw [(Sameness.Suits.wrap t start head body stop).moveTo_eq] at replaced
  simp only [List.append_assoc, List.cons_append, List.nil_append, List.length_append,
    List.length_singleton] at cut
  rw [List.length_cons, Nat.add_comm tail.length 1, List.cons_append] at replaced
  simp only [fold?, size, size', cut, Option.bind_eq_bind, Option.bind_some,
    Sameness.Suits.wrapBy_eq suits, replaced]
  exact finishAt?_wrap structures scope front body rest start head stop hlen

/-- The composite statement over the statements between place `i` and place `bodyEnd` takes the place
of the statements up to place `after`. -/
theorem fold?_eq {b : Block} (structures : Structures inner b.length) {i bodyEnd after : Nat}
    (hi : i < bodyEnd) (hend : bodyEnd ≤ after) (hafter : after ≤ b.length)
    (suits : ∀ s ∈ b.statements, t.Suits s) (start : Offset) (head : Head) (stop : Offset) :
    b.fold? t inner i bodyEnd (1 + (after - bodyEnd)) start head stop =
      some (.done ⟨b.scope, b.statements.take i ++
        ((wrap start head (b.slice (i + 1) bodyEnd) stop).adopt b.scope).finished ::
          b.statements.drop after⟩) := by
  have hlen : i < b.statements.length := Nat.lt_of_lt_of_le (Nat.lt_of_lt_of_le hi hend) hafter
  have parts : b.statements = b.statements.take i ++ b.statements[i] ::
      (b.slice (i + 1) bodyEnd ++ (b.slice bodyEnd after ++ b.statements.drop after)) := by
    rw [← List.append_assoc, ← slice_append b hi hend, ← List.cons_append,
      ← slice_cons (List.getElem?_eq_getElem hlen) (Nat.lt_of_lt_of_le hi hend),
      take_slice_drop b (by omega)]
  have shorter : (b.slice (i + 1) bodyEnd).length < b.length :=
    length_slice_lt (Nat.succ_pos i) (Nat.zero_lt_of_lt hlen) _
  have folded := fold?_append structures b.scope (b.statements.take i) b.statements[i]
    (b.slice (i + 1) bodyEnd) (b.slice bodyEnd after) (b.statements.drop after) start head stop shorter
    fun s hs => suits s (mem_of_mem_slice hs)
  rw [← parts, length_take_of_le (Nat.le_of_lt hlen), length_slice (Nat.le_trans hend hafter),
    length_slice hafter, show i + 1 + (bodyEnd - (i + 1)) = bodyEnd by omega] at folded
  exact folded

/-- The same where the statements from place `split` up to place `after` were cut out before; the
statement just before place `split` goes with the first branch. -/
theorem fold?_cut {b : Block} (structures : Structures inner b.length) {i split after : Nat}
    (hi : i < split - 1) (hsplit : split ≤ after) (hafter : after ≤ b.length)
    (suits : ∀ s ∈ b.statements, t.Suits s) (start : Offset) (head : Head) (stop : Offset) :
    fold? t inner ⟨b.scope, b.statements.take split ++ b.statements.drop after⟩ i (split - 1)
        (1 + (split - (split - 1))) start head stop =
      some (.done ⟨b.scope, b.statements.take i ++
        ((wrap start head (b.slice (i + 1) (split - 1)) stop).adopt b.scope).finished ::
          b.statements.drop after⟩) := by
  have hfront := length_take_of_le (Nat.le_trans hsplit hafter)
  have shorter : (b.statements.take split ++ b.statements.drop after).length ≤ b.length := by
    simp only [length] at hafter ⊢
    simp
    omega
  have folded := fold?_eq (t := t) (b := ⟨b.scope, b.statements.take split ++ b.statements.drop after⟩)
    (fun c hc hlen => structures c hc (Nat.lt_of_lt_of_le hlen shorter)) hi (Nat.sub_le split 1)
    (by simp [length, hfront]) (fun s hs => suits s
      ((List.mem_append.1 hs).elim List.mem_of_mem_take List.mem_of_mem_drop)) start head stop
  have before : slice ⟨b.scope, b.statements.take split ++ b.statements.drop after⟩ (i + 1) (split - 1) =
      b.slice (i + 1) (split - 1) := by
    rw [slice, slice, List.drop_append_of_le_length (by omega), List.take_append_of_le_length
      (by simp only [List.length_drop]; omega), List.drop_take, List.take_take,
      Nat.min_eq_left (by omega)]
  have behind : (b.statements.take split ++ b.statements.drop after).drop split =
      b.statements.drop after := List.drop_left' hfront
  have ahead : (b.statements.take split ++ b.statements.drop after).take i = b.statements.take i := by
    rw [List.take_append_of_le_length (by omega), List.take_take, Nat.min_eq_left (by omega)]
  rwa [before, behind, ahead] at folded

/-- What the conditional jump at place `i` becomes, in terms of its rewrite. -/
theorem branchShape?_eq {b : Block} {i split : Nat} (hi : i < split) (hle : split ≤ b.length)
    (condition : Token) (target : Offset) :
    ∃ shape, b.branchShape? condition (b.startAt i) target split = some shape ∧
      ((shape.bodyEnd = split ∧ shape.second? = none ∧
          b.branchRewrite i condition target split =
            ⟨i, split, [.wrap (b.startAt i) shape.head (b.slice (i + 1) split) shape.stop]⟩) ∨
        (shape.bodyEnd = split - 1 ∧ ∃ after stop, shape.second? = some (after, stop) ∧
          b.secondBranchEnd? split stop = some after ∧ b.jumpTargetAt? (split - 1) = some stop ∧
          b.branchRewrite i condition target split =
            ⟨i, after, [.wrap (b.startAt i) shape.head (b.slice (i + 1) (split - 1)) shape.stop,
              .wrap (b.startAt split) .elseHead (b.slice split after) stop]⟩)) := by
  have hlast : split - 1 < b.statements.length := by simp only [length] at hle; omega
  have last : b.statements[split - 1]? = some b.statements[split - 1] := List.getElem?_eq_getElem hlast
  have jumps : b.jumpTargetAt? (split - 1) = b.statements[split - 1].jumpTarget? := by
    rw [jumpTargetAt?, last, Option.bind_some]
  simp only [branchShape?, Nat.psub_eq_sub (Nat.succ_le_of_lt (Nat.zero_lt_of_lt hi)),
    Option.bind_eq_bind, Option.bind_some, last, branchRewrite, jumps]
  cases hjump : b.statements[split - 1].jumpTarget? with
  | none => exact ⟨_, rfl, .inl ⟨rfl, rfl, rfl⟩⟩
  | some x =>
    by_cases hx : x = b.startAt i
    · simp only [if_pos hx]
      exact ⟨_, rfl, .inl ⟨rfl, rfl, rfl⟩⟩
    · simp only [if_neg hx]
      cases second : b.secondBranchEnd? split x with
      | none => exact ⟨_, rfl, .inl ⟨rfl, rfl, rfl⟩⟩
      | some after =>
        refine ⟨_, rfl, .inr ⟨rfl, after, x, rfl, second, rfl, ?_⟩⟩
        rw [startAt_of_getElem? last]

/-- A conditional jump is folded into its rewrite. -/
theorem foldBranch?_eq {b : Block} (structures : Structures inner b.length)
    (suits : ∀ s ∈ b.statements, t.Suits s) {i split : Nat} {condition : Token} {target : Offset}
    (token : b.tokenAt? i = some (.jumpIfNot condition target)) (hi : i < split)
    (hle : split ≤ b.length) :
    b.foldBranch? t inner i condition target split =
      some (.done (b.rewritten (b.branchRewrite i condition target split))) := by
  have hlen : i < b.statements.length := Nat.lt_of_lt_of_le hi hle
  have here : b.statements[i]? = some b.statements[i] := List.getElem?_eq_getElem hlen
  obtain ⟨shape, hshape, ⟨hend, hsecond, hrewrite⟩ |
      ⟨hend, after, stop, hsecond, ends, across, hrewrite⟩⟩ := branchShape?_eq hi hle condition target
  · have folded := fold?_eq structures hi (Nat.le_refl split) hle suits (b.startAt i) shape.head
      shape.stop
    simp only [foldBranch?, here, Option.bind_eq_bind, Option.bind_some, ← startAt_of_getElem? here,
      hshape, hend, hsecond, Nat.psub_eq_sub (Nat.le_refl split), folded, hrewrite, rewritten]
    simp [adoptAll]
  · obtain ⟨hlt, hafter, -⟩ := lt_of_secondBranchEnd? ends
    have hsplit : split < b.statements.length := Nat.lt_of_lt_of_le hlt hafter
    have there : b.statements[split]? = some b.statements[split] := List.getElem?_eq_getElem hsplit
    -- The second branch is cut out; what stands before it stays in place.
    have cut := cutRange?_eq (Nat.le_of_lt hlt) hafter
    -- The jump across it is not the conditional jump itself.
    have hne : i ≠ split - 1 := by
      rintro rfl
      rw [jumpTargetAt?_eq_some_iff, token] at across
      cases across
    have folded := fold?_cut structures (show i < split - 1 by omega) (Nat.le_of_lt hlt) hafter suits
      (b.startAt i) shape.head shape.stop
    have inserted := finishAt?_insert (t := t) structures b.scope
      (b.statements.take i ++
        [((wrap (b.startAt i) shape.head (b.slice (i + 1) (split - 1)) shape.stop).adopt
          b.scope).finished])
      (b.slice split after) (b.statements.drop after) (b.startAt split) .elseHead stop
      (length_slice_lt (Nat.zero_lt_of_lt hi) (Nat.zero_lt_of_lt hlen) _)
      fun s hs => suits s (mem_of_mem_slice hs)
    rw [List.length_append, length_take_of_le (Nat.le_of_lt hlen), List.length_singleton] at inserted
    simp only [List.append_assoc, List.singleton_append] at inserted
    simp only [foldBranch?, here, there, Option.bind_eq_bind, Option.bind_some,
      ← startAt_of_getElem? here, hshape, hend, hsecond,
      Nat.psub_eq_sub (Nat.sub_le split 1), Nat.psub_eq_sub (Nat.le_of_lt hlt), cut, folded,
      Outcome.stopped?_done, Outcome.value_done, hrewrite, rewritten]
    rw [← startAt_of_getElem? there, inserted]
    simp [adoptAll]

theorem follows?_eq {b : Block} {i : Nat} (hi : i < b.length) :
    b.follows? i Token.isIteratorNext = some (b.followsNext i) := by
  cases i with
  | zero => rfl
  | succ k =>
    have hk : k < b.statements.length := Nat.lt_of_succ_lt hi
    simp [follows?, followsNext, Nat.psub_eq_sub, List.getElem?_eq_getElem hk]

/-- A jump is turned into an escape exactly where there is a rewrite for it. -/
theorem turnJump?_eq {b : Block} {i : Nat} (hi : i < b.length) (target : Offset) :
    b.turnJump? t i target = some ((b.escapeRewrite? i target).map b.rewritten) := by
  have here : b.statements[i]? = some b.statements[i] := List.getElem?_eq_getElem hi
  rw [turnJump?, escapeRewrite?]
  cases b.scope.loopExit? target with
  | none => rfl
  | some frame =>
    simp only [here, follows?_eq hi, Option.bind_eq_bind, Option.bind_some, Option.map_some]
    split
    · next hstep =>
      have hpos : 0 < i := by
        cases i with
        | zero => cases hstep.2
        | succ k => exact Nat.succ_pos k
      have replaced := replaceRangeBy?_eq t (show i - 1 ≤ i + 1 by omega) hi
        (.escape b.statements[i].start [] .advance (.jump target))
      rw [show i + 1 - (i - 1) = 2 by omega] at replaced
      rw [Nat.psub_eq_sub (Nat.succ_le_of_lt hpos), Option.bind_some, replaced]
      simp [rewritten, adoptAll, adopt, moveTo, finished, startAt_of_getElem? here]
    · have replaced := replaceRangeBy?_eq t (Nat.le_succ i) hi
        (.escape b.statements[i].start [] .leave (.jump target))
      rw [Nat.succ_sub (Nat.le_refl i), Nat.sub_self] at replaced
      simp [replaced, rewritten, adoptAll, adopt, moveTo, finished, startAt_of_getElem? here]

/-- The search for the end of a selection, from place `j` on. -/
theorem selectionEndAt?_eq {b : Block} (first : Nat) :
    ∀ {rest : List Statement} {previous : Statement} {j : Nat}, 0 < j →
      b.statements[j - 1]? = some previous → b.statements.drop j = rest →
      b.selectionEndAt? first rest.length j = some (b.selectionEndFrom? first previous j rest) := by
  intro rest
  induction rest with
  | nil =>
    intro previous j hj hprevious hrest
    rw [List.length_nil, selectionEndAt?, selectionEndFrom?, openSelectionEnd]
    cases hlast : b.last? with
    | none => rfl
    | some s =>
      have hpos : 1 ≤ b.length := List.length_pos_of_mem (List.mem_of_getLast? hlast)
      simp only [Nat.psub_eq_sub hpos, Option.bind_eq_bind, Option.bind_some]
      split <;> rfl
  | cons s rest ih =>
    intro previous j hj hprevious hrest
    have here : b.statements[j]? = some s := by
      rw [← Nat.add_zero j, ← List.getElem?_drop, hrest]
      rfl
    have behind : b.statements.drop (j + 1) = rest := by
      rw [← List.drop_drop, hrest]
      rfl
    have step := ih (Nat.succ_pos j) (show b.statements[j + 1 - 1]? = some s from here) behind
    simp only [List.length_cons, selectionEndAt?, selectionEndFrom?, here, hprevious,
      Nat.psub_eq_sub (Nat.succ_le_of_lt hj), Option.bind_eq_bind, Option.bind_some, step]
    cases hlabel : s.isPlain Token.isCaseLabel with
    | false =>
      cases hswitch : s.isPlain Token.isSwitch <;> simp
    | true =>
      have hswitch : s.isPlain Token.isSwitch = false := by
        obtain ⟨token, htoken, hp⟩ := isPlain_iff.1 hlabel
        rw [isPlain, htoken]
        cases token <;> first | rfl | cases hp
      cases hjump : previous.jumpTarget? <;> simp [hswitch]

/-- A single statement is folded into its rewrite. -/
theorem fold?_rewritten {b : Block} (structures : Structures inner b.length)
    (suits : ∀ s ∈ b.statements, t.Suits s) {i after : Nat} (hlt : i < after) (hle : after ≤ b.length)
    (start : Offset) (head : Head) (stop : Offset) :
    b.fold? t inner i after 1 start head stop =
      some (.done (b.rewritten ⟨i, after, [.wrap start head (b.slice (i + 1) after) stop]⟩)) := by
  have folded := fold?_eq structures hlt (Nat.le_refl after) hle suits start head stop
  rw [Nat.sub_self] at folded
  rw [folded]
  simp [rewritten, adoptAll]

theorem iterationRewrite?_eq {b : Block} {i : Nat} {s : Statement} (here : b.statements[i]? = some s)
    (collection : Token) (iterator? : Option Token) (target : Offset) :
    b.iterationRewrite? i collection iterator? target =
      (target.next?.bind fun exit => b.find? exit (i + 1)).map fun after =>
        ⟨i, after, [.wrap s.start (.foreachHead collection iterator?) (b.slice (i + 1) after)
          target]⟩ := by
  rw [iterationRewrite?, Option.map_bind]
  cases target.next? with
  | none => rfl
  | some exit => simp only [Option.map_eq_bind, startAt_of_getElem? here, Function.comp_def, Option.bind_some]

theorem bounds_of_exit {b : Block} {i after : Nat} {target : Offset} (hi : i < b.length)
    (found : (target.next?.bind fun exit => b.find? exit (i + 1)) = some after) :
    i < after ∧ after ≤ b.length := by
  obtain ⟨exit, -, found⟩ := Option.bind_eq_some_iff.1 found
  exact ⟨Nat.lt_of_succ_le (le_of_find? found hi), find?_le_length found⟩

/-- A rewrite is made in place exactly where there is one. -/
theorem rewriteInPlace?_eq {b : Block} (structures : Structures inner b.length)
    (suits : ∀ s ∈ b.statements, t.Suits s) {i : Nat} (hi : i < b.length) :
    b.rewriteInPlace? t inner i =
      some ((b.rewriteAt? i).map fun r => .done (b.rewritten r)) := by
  have here : b.statements[i]? = some b.statements[i] := List.getElem?_eq_getElem hi
  have iteration (collection : Token) (iterator? : Option Token) {target : Offset} {after : Nat}
      (found : (target.next?.bind fun exit => b.find? exit (i + 1)) = some after) :=
    fold?_rewritten structures suits (bounds_of_exit hi found).1 (bounds_of_exit hi found).2
      b.statements[i].start (.foreachHead collection iterator?) target
  rw [rewriteInPlace?, rewriteAt?, here]
  dsimp only [Option.bind_eq_bind, Option.bind_some]
  rcases htoken : b.statements[i].token? with _ | token
  · rfl
  cases token with
  | jumpIfNot condition target =>
    simp only [branchRewrite?]
    cases found : b.find? target 0 with
    | none => rfl
    | some split =>
      by_cases hlt : i < split
      · have h := foldBranch?_eq structures suits (tokenAt?_eq_some_iff.2 ⟨_, here, htoken⟩) hlt
          (find?_le_length found)
        simp [hlt, h]
      · simp [hlt]
  | jump target =>
    simp only [turnJump?_eq hi]
    simp [Function.comp_def]
  | foreach collection target =>
    simp only [iterationRewrite?_eq here]
    cases found : target.next?.bind fun exit => b.find? exit (i + 1) with
    | none => rfl
    | some after => simp [iteration collection none found]
  | foreachWith collection iterator target =>
    simp only [iterationRewrite?_eq here]
    cases found : target.next?.bind fun exit => b.find? exit (i + 1) with
    | none => rfl
    | some after => simp [iteration collection (some iterator) found]
  | switch discriminant =>
    have ahead : (b.statements.drop (i + 1)).length = b.length - (i + 1) := List.length_drop
    have ends := selectionEndAt?_eq (b := b) (i + 1) (j := i + 1) (Nat.succ_pos i) here rfl
    rw [ahead] at ends
    simp only [ends, selectionRewrite?]
    cases hend : b.selectionEndFrom? (i + 1) b.statements[i] (i + 1) (b.statements.drop (i + 1)) with
    | none => rfl
    | some pair =>
      obtain ⟨after, stop⟩ := pair
      have bounds := selectionEndFrom?_bounds hi (Nat.le_refl _)
        (by rw [ahead]; exact Nat.add_sub_cancel' hi) hend
      simp [fold?_rewritten structures suits (Nat.lt_of_succ_le bounds.1) bounds.2]
  | _ => rfl

/-! ### Passes -/

theorem passFrom?_eq {b : Block} (structures : Structures inner b.length)
    (suits : ∀ s ∈ b.statements, t.Suits s) :
    ∀ {ahead i : Nat}, i + ahead = b.length →
      b.passFrom? t inner ahead i =
        some (((List.range' i ahead).findSome? b.rewriteAt?).map fun r => .done (b.rewritten r)) := by
  intro ahead
  induction ahead with
  | zero => intro i _; rfl
  | succ ahead ih =>
    intro i hi
    rw [passFrom?, rewriteInPlace?_eq structures suits (by omega), List.range'_succ]
    cases hr : b.rewriteAt? i with
    | none =>
      have step := ih (i := i + 1) (by omega)
      simp [hr, step]
    | some r => simp [hr]

/-- A pass in place makes the first rewrite of the block. -/
theorem passFrom?_zero {b : Block} (structures : Structures inner b.length)
    (suits : ∀ s ∈ b.statements, t.Suits s) :
    b.passFrom? t inner b.length 0 =
      some (b.firstRewrite?.map fun r => .done (b.rewritten r)) := by
  rw [passFrom?_eq structures suits (Nat.zero_add _), firstRewrite?, List.range_eq_range']

/-- The statements after a pass are as good as those before it. -/
theorem suits_rewritten {b : Block} {r : Rewrite} (hr : b.firstRewrite? = some r)
    (suits : ∀ s ∈ b.statements, t.Suits s) : ∀ s ∈ (b.rewritten r).statements, t.Suits s := by
  obtain ⟨i, hi⟩ := rewriteAt_of_firstRewrite? hr
  intro s hs
  simp only [rewritten, List.mem_append] at hs
  rcases hs with (hs | hs) | hs
  · exact suits s (List.mem_of_mem_take hs)
  · rw [adoptAll_eq_map, List.map_map, List.mem_map] at hs
    obtain ⟨m, hm, rfl⟩ := hs
    exact .inr (hi.finished_linked (fun c _ => recovered_sourced c) hm).2
  · exact suits s (List.mem_of_mem_drop hs)

theorem passesInPlace?_eq {limit : Nat} (structures : Structures inner n) :
    ∀ {remaining : Nat} {b : Block}, b.length ≤ n → (∀ s ∈ b.statements, t.Suits s) →
      passesInPlace? t inner limit remaining b =
        some (runPasses (fun c => .done c.recovered) limit remaining b) := by
  have shorter {b : Block} (hb : b.length ≤ n) : Structures inner b.length :=
    fun c hc hlen => structures c hc (Nat.lt_of_lt_of_le hlen hb)
  intro remaining
  induction remaining with
  | zero =>
    intro b hb suits
    rw [passesInPlace?, passFrom?_zero (shorter hb) suits, runPasses, pass?_eq fun _ _ => rfl]
    cases b.firstRewrite? <;> rfl
  | succ remaining ih =>
    intro b hb suits
    rw [passesInPlace?, passFrom?_zero (shorter hb) suits, runPasses, pass?_eq fun _ _ => rfl]
    cases hr : b.firstRewrite? with
    | none => rfl
    | some r =>
      obtain ⟨i, hi⟩ := rewriteAt_of_firstRewrite? hr
      exact ih (Nat.le_trans hi.length_le hb) (suits_rewritten hr suits)

end

/-- **Structuring in place gives what structuring gives**, with any limit on the passes over the block
and within any depth of nesting that is more than its length. -/
theorem structureInPlace?_eq (t : Sameness) :
    ∀ {depth limit : Nat} {b : Block}, b.length < depth → (∀ s ∈ b.statements, t.Suits s) →
      structureInPlace? t depth limit b = some (b.structureWithin limit) := by
  intro depth
  induction depth with
  | zero => intro limit b hlen; cases hlen
  | succ depth ih =>
    intro limit b hlen suits
    have structures : Structures (fun c => structureInPlace? t depth (c.length + 1) c) b.length :=
      fun c hc hshort =>
        (ih (by omega) fun s hs => .inr (consistent_iff.1 hc s hs).2).trans
          (congrArg some c.structured_eq_done)
    rw [structureInPlace?, passesInPlace?_eq structures (Nat.le_refl _) suits, structureWithin_eq]

/-- Structures the children of a composite statement in place. -/
def childrenInPlace? (t : Sameness) (depth : Nat) (c : Block) : Option (Outcome Block) :=
  structureInPlace? t depth (c.length + 1) c

theorem structures_childrenInPlace? (t : Sameness) {n depth : Nat} (h : n ≤ depth) :
    Structures (childrenInPlace? t depth) n := by
  intro c hc hlen
  have suits : ∀ s ∈ c.statements, t.Suits s := fun s hs => .inr (consistent_iff.1 hc s hs).2
  rw [childrenInPlace?, structureInPlace?_eq t (Nat.lt_of_lt_of_le hlen h) suits]
  exact congrArg some c.structured_eq_done

end Block

end FlowRecovery
