import FlowRecovery.Proofs.Coverage
import FlowRecovery.Proofs.Equations

/-!
# The frame of an iteration

The code of an iteration ends with the step of its iterator and with the end of it. Both are among the
children while these are structured, and are taken away afterwards if they are the last two of them
then. They need not be: where the end of a selection cannot be told from its breaks it ends with its list,
and takes in everything up to there.

That is the only way. The two stay last in the list, or last in the children of the last selection of the
list, which goes on to where the list does (`Block.Closes`). So they are taken away exactly if
no such selection is left in the loop (`Listing.stripped_iff`), and always if there is no selection in the
body (`Listing.stripped_of_switchless`).
-/

namespace FlowRecovery

namespace Statement

/-- A selection with the end `stop`. -/
def isSelectionTo (stop : Offset) : Statement → Bool
  | composite _ _ (.switchHead _) stop' _ _ => stop' == stop
  | _ => false

/-- The step of an iterator at `next` and its end at `pop`, or a selection with the end `pop` and these two
behind its other children, directly or in such a selection again. -/
inductive Closing (next pop : Offset) : List Statement → Prop where
  /-- The step and the end. -/
  | direct {s t : Statement} (step : s.token? = some .iteratorNext) (atNext : s.start = next)
      (last : t.token? = some .iteratorPop) (atPop : t.start = pop) : Closing next pop [s, t]
  /-- A selection that took them in. -/
  | taken {start : Offset} {scope inner : Scope} {discriminant : Token} {front tail : List Statement}
      (closing : Closing next pop tail) :
      Closing next pop [.composite start scope (.switchHead discriminant) pop inner (front ++ tail)]

/-- The step of an iterator at `next` and its end at `pop` are nowhere in the statements. -/
def Stripped (next pop : Offset) (l : List Statement) : Prop :=
  ∀ path s, Within l path s →
    (s.start = next → s.token? ≠ some .iteratorNext) ∧ (s.start = pop → s.token? ≠ some .iteratorPop)

theorem isSelectionTo_adopt (stop : Offset) (scope : Scope) (s : Statement) :
    (s.adopt scope).isSelectionTo stop = s.isSelectionTo stop := by
  cases s with
  | plain | escape => rfl
  | composite _ _ head => cases head <;> rfl

theorem isSelectionTo_finished (stop : Offset) (s : Statement) :
    s.finished.isSelectionTo stop = s.isSelectionTo stop := by
  cases s with
  | plain | escape => rfl
  | composite _ _ head => cases head <;> rfl

theorem isSelectionTo_withoutPops (stop : Offset) (s : Statement) :
    s.withoutPops.isSelectionTo stop = s.isSelectionTo stop := by
  cases s with
  | plain | escape => rfl
  | composite _ _ head => cases head <;> rfl

theorem isSelectionTo_of_token? {stop : Offset} {s : Statement} {t : Token} (h : s.token? = some t) :
    s.isSelectionTo stop = false := by
  cases s with
  | plain => rfl
  | escape | composite => cases h

theorem Within.start_mem {l : List Statement} {path : Scope} {s : Statement} (h : Within l path s) :
    s.start ∈ startsOf l := by
  induction h with
  | here hm => exact mem_startsOf.2 ⟨_, hm, start_mem_starts _⟩
  | inside hm _ ih => exact mem_startsOf.2 ⟨_, hm, List.mem_cons_of_mem _ ih⟩

theorem Within.append_right {l m : List Statement} {path : Scope} {s : Statement} (h : Within m path s) :
    Within (l ++ m) path s :=
  h.mono fun _ => List.mem_append_right l

theorem removePops_append {m : List Statement} (h : ∀ s ∈ m.head?, s.isPlain Token.isReturn = false)
    (l : List Statement) : removePops (l ++ m) = removePops l ++ removePops m := by
  induction l with
  | nil => rfl
  | cons s l ih =>
    have ahead : (l ++ m).head?.any (isPlain Token.isReturn) = l.head?.any (isPlain Token.isReturn) := by
      cases l with
      | cons => rfl
      | nil =>
        rw [List.nil_append, List.head?_nil, Option.any_none, Option.any_eq_false]
        exact h
    rw [List.cons_append, removePops, removePops, ahead, ih]
    split <;> rfl

theorem breaksTo_append {stop : Offset} {scope : Scope} {m : List Statement}
    (h : ∀ s ∈ m, s.jumpTarget? = none) (l : List Statement) (afterReturn : Bool) :
    breaksTo stop scope afterReturn (l ++ m) = breaksTo stop scope afterReturn l ++ m := by
  induction l generalizing afterReturn with
  | nil =>
    induction m generalizing afterReturn with
    | nil => rfl
    | cons s m ih =>
      have hs : s.jumpTarget? = none := h s (List.mem_cons_self ..)
      have ih := ih fun x hx => h x (List.mem_cons_of_mem _ hx)
      simp only [List.nil_append, breaksTo, hs] at ih ⊢
      rw [if_neg (by simp), ih]
  | cons s l ih =>
    rw [List.cons_append, breaksTo, breaksTo]
    simp only [ih]
    split
    · split <;> rfl
    · rfl

namespace Closing

variable {next pop : Offset} {tail front : List Statement}

theorem ne_nil (h : Closing next pop tail) : tail ≠ [] := by
  cases h <;> exact List.cons_ne_nil _ _

/-- There are no other instructions in it. -/
theorem isPlain_eq_false (h : Closing next pop tail) {p : Token → Bool} (step : p .iteratorNext = false)
    (last : p .iteratorPop = false) : ∀ s ∈ tail, s.isPlain p = false := by
  cases h with
  | direct hs _ ht => simp [isPlain, hs, ht, step, last]
  | taken => simp [isPlain, token?]

theorem jumpTarget?_eq_none (h : Closing next pop tail) : ∀ s ∈ tail, s.jumpTarget? = none := by
  cases h with
  | direct hs _ ht => simp [jumpTarget?, hs, ht, Token.jumpTarget?]
  | taken => simp [jumpTarget?, token?]

theorem mem_of_getLast? (h : Closing next pop tail) {s : Statement}
    (hs : (front ++ tail).getLast? = some s) : s ∈ tail := by
  rw [List.getLast?_append, List.getLast?_eq_some_getLast h.ne_nil, Option.some_or,
    Option.some.injEq] at hs
  exact hs ▸ List.getLast_mem _

theorem start_of_getElem? (h : Closing next pop tail) {k : Nat} {s : Statement}
    (hs : tail[k + 1]? = some s) : s.start = pop := by
  cases h with
  | direct _ _ _ atPop =>
    cases k with
    | zero =>
      cases hs
      exact atPop
    | succ => cases hs
  | taken => cases hs

theorem adoptAll (h : Closing next pop tail) (scope : Scope) : Closing next pop (adoptAll scope tail) := by
  induction h generalizing scope with
  | direct step atNext last atPop =>
    exact .direct (by rwa [token?_adopt]) (by rwa [start_adopt]) (by rwa [token?_adopt])
      (by rwa [start_adopt])
  | taken _ ih =>
    rw [Statement.adoptAll, adopt, adoptAll_eq_map, List.map_append, ← adoptAll_eq_map, ← adoptAll_eq_map]
    exact .taken (ih _)

theorem removePops_append (h : Closing next pop tail) (front : List Statement) :
    removePops (front ++ tail) = removePops front ++ removePops tail :=
  Statement.removePops_append
    (fun s hs => h.isPlain_eq_false rfl rfl s (List.mem_of_mem_head? hs)) front

theorem removePops (h : Closing next pop tail) : Closing next pop (removePops tail) := by
  induction h with
  | @direct s t step atNext last atPop =>
    have hs : s.isPlain Token.isIteratorPop = false := by simp [isPlain, step, Token.isIteratorPop]
    have hwithout {x : Statement} {y : Token} (hx : x.token? = some y) : x.withoutPops = x := by
      cases x with
      | plain => rfl
      | escape | composite => cases hx
    have stays : Statement.removePops [s, t] = [s, t] := by
      simp [Statement.removePops, hs, hwithout step, hwithout last]
    rw [stays]
    exact .direct step atNext last atPop
  | taken h ih =>
    rw [removePops_cons_of_not rfl, withoutPops, h.removePops_append]
    exact .taken ih

/-- The step is somewhere in it. -/
theorem exists_within (h : Closing next pop tail) :
    ∃ path s, Within tail path s ∧ s.start = next ∧ s.token? = some .iteratorNext := by
  induction h with
  | direct step atNext => exact ⟨[], _, .here (List.mem_cons_self ..), atNext, step⟩
  | taken _ ih =>
    obtain ⟨path, s, hw, hs⟩ := ih
    exact ⟨_, s, .inside (List.mem_cons_self ..) hw.append_right, hs⟩

end Closing

end Statement

namespace Block

open Statement

/-- The end of an iteration loses nothing but its own instructions. -/
theorem trimLast_closing {next pop : Offset} {tail : List Statement} (h : Closing next pop tail)
    (scope : Scope) (front : List Statement) {p : Token → Bool} (hp : ∀ s ∈ tail, s.isPlain p = false) :
    (Block.mk scope (front ++ tail)).trimLast p = ⟨scope, front ++ tail⟩ := by
  have ends : (Block.mk scope (front ++ tail)).endsWith p = false := by
    rw [endsWith, Option.any_eq_false]
    exact fun s hs => hp s (h.mem_of_getLast? hs)
  simp [trimLast, ends]

/-- A pass adds no instruction. -/
theorem RewriteAt.mem_of_token? {b : Block} {i : Nat} {r : Rewrite} (h : RewriteAt b i r) {s : Statement}
    {t : Token} (hs : s ∈ (b.rewritten r).statements) (ht : s.token? = some t) : s ∈ b.statements := by
  simp only [rewritten, List.mem_append] at hs
  rcases hs with (hs | hs) | hs
  · exact List.mem_of_mem_take hs
  · rw [h.token?_made hs] at ht
    cases ht
  · exact List.mem_of_mem_drop hs

/-- What stands in front starts before. -/
theorem Laid.stripped {front tail : List Statement} {s t : Statement} (h : Laid (front ++ tail))
    (hs : s ∈ tail) (ht : t ∈ tail) : Stripped s.start t.start (removePops front) := by
  intro path x hw
  have ho := startsOf_removePops front hw.start_mem
  exact ⟨fun heq => absurd heq (Fin.ne_of_lt (h.lt_of_append ho hs)),
    fun heq => absurd heq (Fin.ne_of_lt (h.lt_of_append ho ht))⟩

/-! ### The children while they are structured -/

/-- The statements `tail` end the iteration that the block belongs to. Control goes on at `pop` behind the
block, which is the end of the iteration. -/
structure Closes (next pop : Offset) (b : Block) (front tail : List Statement) : Prop where
  /-- They are last in the block. -/
  statements : b.statements = front ++ tail
  /-- They end the iteration. -/
  closing : Closing next pop tail
  /-- No selection before them goes on to where the block does. -/
  inner : ∀ s ∈ front, s.isSelectionTo pop = false
  /-- Nothing in the block leads there but jumps. -/
  goals : ∀ s ∈ b.statements, ∀ t, s.token? = some t → t.jumpTarget? = none → t.goal? ≠ some pop.val
  /-- Control goes on there behind the block. -/
  behind : ∃ frame outer, b.scope = frame :: outer ∧ frame.stop = pop
  /-- A jump there leads out of a loop. -/
  exit : (b.scope.loopExit? pop).isSome = true

namespace Closes

variable {next pop target stop : Offset} {b : Block} {front tail : List Statement} {s : Statement}
  {first after i k : Nat} {r : Rewrite}

theorem endsAt (h : Closes next pop b front tail) (target : Offset) : b.endsAt target = (pop == target) := by
  obtain ⟨frame, outer, hscope, rfl⟩ := h.behind
  simp [Block.endsAt, hscope]

theorem length_eq (h : Closes next pop b front tail) : b.length = front.length + tail.length := by
  rw [length, h.statements, List.length_append]

/-- Only the end of the iterator starts at `pop`. -/
theorem le_front (h : Closes next pop b front tail) (hs : b.statements[k]? = some s)
    (ne : s.start ≠ pop) : k ≤ front.length := by
  refine Nat.le_of_not_lt fun hlt => ne ?_
  obtain ⟨d, rfl⟩ : ∃ d, k = front.length + (d + 1) := ⟨k - front.length - 1, by omega⟩
  rw [h.statements, List.getElem?_append_right (Nat.le_add_right ..), Nat.add_sub_cancel_left] at hs
  exact h.closing.start_of_getElem? hs

/-- A target other than `pop` leads to what is in front, or to the first statement behind it. -/
theorem find?_le (h : Closes next pop b front tail) (found : b.find? target first = some k)
    (ne : target ≠ pop) : k ≤ front.length := by
  rcases find?_eq_some_iff.1 found with ⟨hends, -⟩ | ⟨-, -, hstart, -⟩
  · rw [h.endsAt, beq_iff_eq] at hends
    exact absurd hends.symm ne
  · obtain ⟨s, hs, rfl⟩ := Option.map_eq_some_iff.1 hstart
    exact h.le_front hs ne

theorem find?_pop (h : Closes next pop b front tail) (first : Nat) : b.find? pop first = some b.length := by
  simp [find?, h.endsAt]

/-- Rewrites are found in front. -/
theorem lt_front (h : Closes next pop b front tail) {t : Token} (token : b.tokenAt? i = some t)
    (branch : t.isBranch = true) : i < front.length := by
  refine Nat.lt_of_not_le fun hle => ?_
  obtain ⟨s, hs, ht⟩ := tokenAt?_eq_some_iff.1 token
  rw [h.statements, List.getElem?_append_right hle] at hs
  have := h.closing.isPlain_eq_false (p := Token.isBranch) rfl rfl s (List.mem_of_getElem? hs)
  rw [isPlain, ht, Option.any_some, branch] at this
  cases this

theorem ne_pop (h : Closes next pop b front tail) {t : Token} (token : b.tokenAt? i = some t)
    (jump : t.jumpTarget? = none) : t.goal? ≠ some pop.val := by
  obtain ⟨s, hs, ht⟩ := tokenAt?_eq_some_iff.1 token
  exact h.goals s (List.mem_of_getElem? hs) t ht jump

/-- A selection that nothing else ends takes in the end of the iteration. -/
theorem openSelectionEnd (h : Closes next pop b front tail) (first : Nat) :
    b.openSelectionEnd first = (b.length, pop) := by
  obtain ⟨frame, outer, hscope, hstop⟩ := h.behind
  have hend : b.stop = pop := by simp [Block.stop, hscope, hstop]
  obtain ⟨last, hlast⟩ : ∃ last, b.last? = some last :=
    ⟨_, List.getLast?_eq_some_getLast (by simp [h.statements, h.closing.ne_nil])⟩
  have hmem : last ∈ tail := by
    rw [last?, h.statements] at hlast
    exact h.closing.mem_of_getLast? hlast
  have decoded := h.closing.isPlain_eq_false (p := Token.isErrorReturn) rfl rfl last hmem
  simp [Block.openSelectionEnd, hlast, decoded, hend]

/-- A selection ends with the block, or in front. -/
theorem selectionEnd (h : Closes next pop b front tail) {rest : List Statement} {previous : Statement}
    {j : Nat} (ends : b.selectionEndFrom? first previous j rest = some (after, stop)) :
    after = b.length ∧ stop = pop ∨ after ≤ front.length ∧ stop ≠ pop := by
  induction rest generalizing previous j with
  | nil =>
    rw [selectionEndFrom?, h.openSelectionEnd] at ends
    cases ends
    exact .inl ⟨rfl, rfl⟩
  | cons s rest ih =>
    rw [selectionEndFrom?] at ends
    split at ends
    · cases ends
    · split at ends
      · obtain ⟨k, hk, hpair⟩ := Option.map_eq_some_iff.1 ends
        cases hpair
        by_cases heq : stop = pop
        · subst heq
          rw [h.find?_pop, Option.some.injEq] at hk
          exact .inl ⟨hk.symm, rfl⟩
        · exact .inr ⟨h.find?_le hk heq, heq⟩
      · exact ih ends

/-- A rewrite is made in front, or it is that of a selection that takes in everything behind its head. -/
theorem step (h : Closes next pop b front tail) (hi : RewriteAt b i r) :
    (r.after ≤ front.length ∧ ∀ s ∈ r.made, s.isSelectionTo pop = false) ∨
      ∃ (s : Statement) (discriminant : Token), i < front.length ∧
        r = ⟨i, b.length, [.wrap s.start (.switchHead discriminant) (b.slice (i + 1) b.length) pop]⟩ := by
  have branch {condition : Token} {target : Offset} {split : Nat}
      (token : b.tokenAt? i = some (.jumpIfNot condition target))
      (found : b.find? target 0 = some split) : split ≤ front.length := by
    refine h.find?_le found fun heq => h.ne_pop token rfl ?_
    rw [heq]
    rfl
  cases hi with
  | conditional token found | loop token found =>
    exact .inl ⟨branch token found, by simp [wrap, isSelectionTo]⟩
  | alternative _ _ _ _ _ second =>
    obtain ⟨-, -, exit, found⟩ := lt_of_secondBranchEnd? second
    refine .inl ⟨h.find?_le found ?_, by simp [wrap, isSelectionTo]⟩
    rintro rfl
    have := h.exit
    rw [exit] at this
    cases this
  | leave token | advance token =>
    exact .inl ⟨h.lt_front token rfl, by simp [isSelectionTo]⟩
  | @iteration collection iterator? target exit after token next found =>
    refine .inl ⟨h.find?_le found fun heq => ?_, by simp [wrap, isSelectionTo]⟩
    have hnext := Offset.val_of_next? next
    have jump : (Token.foreachOver collection iterator? target).jumpTarget? = none := by
      cases iterator? <;> rfl
    refine h.ne_pop token jump ?_
    rw [Token.goal?_foreachOver, ← hnext, heq]
  | @selection s discriminant after stop here token ends =>
    rcases h.selectionEnd ends with ⟨rfl, rfl⟩ | ⟨hle, hne⟩
    · exact .inr ⟨s, discriminant, h.lt_front (tokenAt?_eq_some_iff.2 ⟨s, here, token⟩) rfl, rfl⟩
    · exact .inl ⟨hle, by simpa [wrap, isSelectionTo] using hne⟩

/-- A rewrite in front. -/
theorem rewritten_front (h : Closes next pop b front tail) (hi : RewriteAt b i r)
    (le : r.after ≤ front.length) (made : ∀ s ∈ r.made, s.isSelectionTo pop = false) :
    Closes next pop (b.rewritten r)
      (front.take r.first ++ (adoptAll b.scope r.made).map Statement.finished ++ front.drop r.after)
      tail := by
  have hfirst : r.first ≤ front.length :=
    Nat.le_trans (Nat.le_trans hi.first_le (Nat.le_of_lt hi.bounds.1)) le
  refine ⟨?_, h.closing, fun s hs => ?_, fun s hs t ht => ?_, h.behind, h.exit⟩
  · simp only [rewritten, h.statements, List.take_append_of_le_length hfirst,
      List.drop_append_of_le_length le, List.append_assoc]
  · simp only [List.mem_append] at hs
    rcases hs with (hs | hs) | hs
    · exact h.inner s (List.mem_of_mem_take hs)
    · rw [adoptAll_eq_map, List.map_map] at hs
      obtain ⟨m, hm, rfl⟩ := List.mem_map.1 hs
      rw [Function.comp_apply, isSelectionTo_finished, isSelectionTo_adopt]
      exact made m hm
    · exact h.inner s (List.mem_of_mem_drop hs)
  · exact h.goals s (hi.mem_of_token? hs ht) t ht

/-- The children of a selection that takes in everything behind its head. -/
theorem child (h : Closes next pop b front tail) (lt : i < front.length) (start : Offset) :
    Closes next pop
      ⟨⟨.switchBlock, start, pop⟩ :: b.scope,
        adoptAll (⟨.switchBlock, start, pop⟩ :: b.scope) (b.slice (i + 1) b.length)⟩
      (adoptAll (⟨.switchBlock, start, pop⟩ :: b.scope) (front.drop (i + 1)))
      (adoptAll (⟨.switchBlock, start, pop⟩ :: b.scope) tail) := by
  have slice : b.slice (i + 1) b.length = front.drop (i + 1) ++ tail := by
    rw [Block.slice, length, ← List.length_drop, List.take_length, h.statements,
      List.drop_append_of_le_length lt]
  refine ⟨?_, h.closing.adoptAll _, fun s hs => ?_, fun s hs t ht => ?_, ⟨_, _, rfl, rfl⟩, ?_⟩
  · rw [slice, adoptAll_eq_map, List.map_append, ← adoptAll_eq_map, ← adoptAll_eq_map]
  · rw [adoptAll_eq_map] at hs
    obtain ⟨x, hx, rfl⟩ := List.mem_map.1 hs
    rw [isSelectionTo_adopt]
    exact h.inner x (List.mem_of_mem_drop hx)
  · simp only [adoptAll_eq_map] at hs
    obtain ⟨x, hx, rfl⟩ := List.mem_map.1 hs
    rw [token?_adopt] at ht
    exact h.goals x (mem_of_mem_slice hx) t ht
  · rw [Scope.loopExit?_branch rfl]
    exact h.exit

/-- The children of a selection keep the end of the iteration when they are tidied. -/
theorem tidy_switch (h : Closes next pop b front tail) (discriminant : Token) (start : Offset) :
    (b.tidy (.switchHead discriminant) start pop).statements = breaksTo pop b.scope false front ++ tail := by
  simp only [tidy, h.statements, breaksTo_append h.closing.jumpTarget?_eq_none]
  rw [trimLast_closing h.closing _ _ (h.closing.isPlain_eq_false rfl rfl)]

/-- A selection that takes in everything behind its head takes in the end of the iteration. -/
theorem rewritten_selection (h : Closes next pop b front tail) {s : Statement} {discriminant : Token}
    (hi : RewriteAt b i
      ⟨i, b.length, [.wrap s.start (.switchHead discriminant) (b.slice (i + 1) b.length) pop]⟩)
    (lt : i < front.length)
    (inner : ∀ c : Block, c.length < b.length → (∃ front tail, Closes next pop c front tail) →
      ∃ front tail, Closes next pop c.recovered front tail) :
    ∃ tail, Closes next pop
      (b.rewritten
        ⟨i, b.length, [.wrap s.start (.switchHead discriminant) (b.slice (i + 1) b.length) pop]⟩)
      (front.take i) tail := by
  have hlen : 0 < b.length := by
    rw [h.length_eq]
    omega
  obtain ⟨front', tail', closes⟩ := inner _
    (by simpa [length] using length_slice_lt (Nat.succ_pos i) hlen b.length) ⟨_, _, h.child lt s.start⟩
  have kids : childrenOf b.scope s.start (.switchHead discriminant) pop (b.slice (i + 1) b.length) =
      breaksTo pop (⟨.switchBlock, s.start, pop⟩ :: b.scope) false front' ++ tail' := by
    have tidied := closes.tidy_switch discriminant s.start
    rwa [scope_recovered] at tidied
  have made : (b.rewritten
      ⟨i, b.length, [.wrap s.start (.switchHead discriminant) (b.slice (i + 1) b.length) pop]⟩).statements =
        front.take i ++ [.composite s.start b.scope (.switchHead discriminant) pop
          (⟨.switchBlock, s.start, pop⟩ :: b.scope)
          (breaksTo pop (⟨.switchBlock, s.start, pop⟩ :: b.scope) false front' ++ tail')] := by
    simp only [rewritten, adoptAll, List.map_cons, List.map_nil, finished_adopt_wrap, kids]
    rw [length, List.drop_length, List.append_nil, h.statements,
      List.take_append_of_le_length (Nat.le_of_lt lt)]
    rfl
  exact ⟨_, made, .taken closes.closing, fun s hs => h.inner s (List.mem_of_mem_take hs),
    fun s hs t ht => h.goals s (hi.mem_of_token? hs ht) t ht, h.behind, h.exit⟩

end Closes

/-- Passes over the children of an iteration keep its end last. -/
theorem closes_recovered {next pop : Offset} (b : Block) :
    (∃ front tail, Closes next pop b front tail) → ∃ front tail, Closes next pop b.recovered front tail := by
  refine recovered_induction
    (P := fun b c => (∃ front tail, Closes next pop b front tail) → ∃ front tail, Closes next pop c front tail)
    (fun _ _ => id) (fun b r hr inner ih => ?_) b
  rintro ⟨front, tail, h⟩
  obtain ⟨i, hi⟩ := rewriteAt_of_firstRewrite? hr
  refine ih ?_
  rcases h.step hi with ⟨le, made⟩ | ⟨s, discriminant, lt, rfl⟩
  · exact ⟨_, _, h.rewritten_front hi le made⟩
  · exact ⟨_, h.rewritten_selection hi lt inner⟩

/-- Where there is no head of a selection, passes make no selection. -/
theorem selectionless_recovered {stop : Offset} (b : Block)
    (h : ∀ s ∈ b.statements, s.isPlain Token.isSwitch = false ∧ s.isSelectionTo stop = false) :
    ∀ s ∈ b.recovered.statements, s.isPlain Token.isSwitch = false ∧ s.isSelectionTo stop = false := by
  refine recovered_induction
    (P := fun b c => (∀ s ∈ b.statements, s.isPlain Token.isSwitch = false ∧ s.isSelectionTo stop = false) →
      ∀ s ∈ c.statements, s.isPlain Token.isSwitch = false ∧ s.isSelectionTo stop = false)
    (fun _ _ => id) (fun b r hr _ ih h => ih fun s hs => ?_) b h
  obtain ⟨i, hi⟩ := rewriteAt_of_firstRewrite? hr
  simp only [rewritten, List.mem_append] at hs
  rcases hs with (hs | hs) | hs
  · exact h s (List.mem_of_mem_take hs)
  · refine ⟨hi.isPlain_made _ hs, ?_⟩
    rw [adoptAll_eq_map, List.map_map] at hs
    obtain ⟨m, hm, rfl⟩ := List.mem_map.1 hs
    rw [Function.comp_apply, isSelectionTo_finished, isSelectionTo_adopt]
    cases hi with
    | selection here token =>
      have := (h _ (List.mem_of_getElem? here)).1
      rw [isPlain, token] at this
      cases this
    | alternative =>
      simp only [List.mem_cons, List.not_mem_nil, or_false] at hm
      rcases hm with rfl | rfl <;> rfl
    | _ =>
      cases List.mem_singleton.1 hm
      rfl
  · exact h s (List.mem_of_mem_drop hs)

/-! ### The children when they are tidied -/

/-- What becomes of the end of an iteration when its children are tidied. -/
theorem Closes.stripped_tidy_iff {next pop start stop : Offset} {b : Block} {front tail : List Statement}
    {collection : Token} {iterator? : Option Token} (h : Closes next pop b front tail)
    (laid : Laid b.statements) :
    Stripped next pop (b.tidy (.foreachHead collection iterator?) start stop).statements ↔
      ∀ s ∈ (b.tidy (.foreachHead collection iterator?) start stop).statements,
        s.isSelectionTo pop = false := by
  obtain ⟨scope, statements⟩ := b
  have hstatements : statements = front ++ tail := h.statements
  subst hstatements
  cases h.closing with
  | @direct s t step atNext last atPop =>
    have hs : s.isPlain Token.isIteratorNext = true := by simp [isPlain, step, Token.isIteratorNext]
    have ht : t.isPlain Token.isIteratorPop = true := by simp [isPlain, last, Token.isIteratorPop]
    have tidied : (tidy (.foreachHead collection iterator?) start stop ⟨scope, front ++ [s, t]⟩).statements =
        removePops front := by
      rw [show front ++ [s, t] = front ++ [s] ++ [t] by simp]
      simp only [tidy, trimLast_concat ht, trimLast_concat hs]
    rw [tidied]
    refine iff_of_true ?_ fun x hx => ?_
    · rw [← atNext, ← atPop]
      exact laid.stripped (List.mem_cons_self ..) (List.mem_cons_of_mem _ (List.mem_cons_self ..))
    · obtain ⟨y, hy, rfl⟩ := mem_removePops hx
      rw [isSelectionTo_withoutPops]
      exact h.inner y hy
  | @taken start' scope' inner discriminant front' tail' closing =>
    -- The selection is no instruction, so nothing is taken away.
    have stays (p : Token → Bool) := trimLast_closing h.closing scope front (p := p) (by simp [isPlain, token?])
    simp only [tidy, stays, h.closing.removePops_append]
    refine iff_of_false (fun stripped => ?_) fun closed => ?_
    · obtain ⟨path, s, hw, hstart, htoken⟩ := h.closing.removePops.exists_within
      exact (stripped path s hw.append_right).1 hstart htoken
    · have := closed _ (List.mem_append_right _ (List.mem_cons_self ..))
      rw [isSelectionTo_withoutPops, isSelectionTo, beq_self_eq_true] at this
      cases this

end Block

namespace Listing

open Statement

/-- The code of an iteration, its head, its body, and the step and the end of its iterator, with some code
behind it. -/
def iteration (head : Entry) (body : Listing) (next pop : Entry) (behind : Listing) : Listing :=
  head :: (body ++ [next, pop]) ++ behind

/-- The code of an iteration, with instruction `after` behind it. -/
structure Iterates (collection : Token) (iterator? : Option Token) (head : Entry) (body : Listing)
    (next pop after : Entry) (more : Listing) : Prop where
  /-- The offsets increase. -/
  sorted : fault? (iteration head body next pop (after :: more)) = none
  /-- The loop exits to the end of the iterator. -/
  opening : head.token = .foreachOver collection iterator? pop.offset
  /-- The step of the iterator. -/
  step : next.token = .iteratorNext
  /-- The end of the iterator, which is one byte long. -/
  last : pop.token = .iteratorPop
  /-- The code behind the loop. -/
  exit : pop.offset.next? = some after.offset
  /-- Nothing in the body leads to the end of the iterator but jumps: no conditional jump does, and no
  iteration in it exits there. -/
  goals : ∀ e ∈ body, e.token.jumpTarget? = none → e.token.goal? ≠ some pop.offset.val

variable {collection : Token} {iterator? : Option Token} {head next pop after : Entry} {body more : Listing}

/-- The end of the iterator is last in the children when the passes over them start. -/
theorem Iterates.closes (h : Iterates collection iterator? head body next pop after more) :
    Block.Closes next.offset pop.offset
      ⟨[⟨.foreachLoop, head.offset, pop.offset⟩],
        placed [⟨.foreachLoop, head.offset, pop.offset⟩] (body ++ [next, pop])⟩
      (placed [⟨.foreachLoop, head.offset, pop.offset⟩] body)
      (placed [⟨.foreachLoop, head.offset, pop.offset⟩] [next, pop]) := by
  refine ⟨placed_append, ?_, fun s hs => ?_, fun s hs t ht hjump => ?_, ⟨_, _, rfl, rfl⟩, ?_⟩
  · exact .direct (congrArg some h.step) rfl (congrArg some h.last) rfl
  · obtain ⟨e, -, rfl⟩ := mem_placed.1 hs
    exact isSelectionTo_of_token? rfl
  · obtain ⟨e, he, rfl⟩ := mem_placed.1 hs
    cases ht
    rcases List.mem_append.1 he with he | he
    · exact h.goals e he hjump
    · simp only [List.mem_cons, List.not_mem_nil, or_false] at he
      rcases he with rfl | rfl
      · simp [h.step, Token.goal?]
      · simp [h.last, Token.goal?]
  · rw [Scope.loopExit?_loop rfl]
    rfl

/-- What is left of the code between the head of the loop and the code behind it, as children of the
loop. -/
def loopChildren (collection : Token) (iterator? : Option Token) (head : Entry) (body : Listing)
    (next pop : Entry) : List Statement :=
  ((Block.recovered ⟨[⟨.foreachLoop, head.offset, pop.offset⟩],
    placed [⟨.foreachLoop, head.offset, pop.offset⟩] (body ++ [next, pop])⟩).tidy
      (.foreachHead collection iterator?) head.offset pop.offset).statements

/-- The loop is made, and the code behind it is structured as it is on its own. -/
theorem Iterates.structured (h : Iterates collection iterator? head body next pop after more) :
    (iteration head body next pop (after :: more)).block.structured.value.statements =
      .composite head.offset [] (.foreachHead collection iterator?) pop.offset
        [⟨.foreachLoop, head.offset, pop.offset⟩] (loopChildren collection iterator? head body next pop) ::
          (block (after :: more)).structured.value.statements := by
  have ascending := (fault?_eq_none_iff _).1 h.sorted
  have whole : Block.Ascending (placed [] (head :: (body ++ [next, pop]) ++ after :: more)) := by
    rw [Block.Ascending, map_start_placed]
    exact ascending
  have leads : Leads [] after.offset (head :: (body ++ [next, pop])) (after :: more) := by
    refine .atFront (fun x hx => ?_) fun frame hframe => by cases hframe
    rw [iteration, List.map_append, List.map_cons] at ascending
    exact (List.pairwise_append.1 ascending).2.2 _ (List.mem_map_of_mem hx) _ (List.mem_cons_self ..)
  refine Eq.trans (recovered_iteration whole h.opening h.exit leads) ?_
  rw [under, ← statements_recovered]
  rfl

theorem Iterates.laid (h : Iterates collection iterator? head body next pop after more) (scope : Scope) :
    Block.Laid (placed scope (body ++ [next, pop])) := by
  have inner : fault? (body ++ [next, pop]) = none := by
    refine (fault?_eq_none_iff _).2 (((fault?_eq_none_iff _).1 h.sorted).sublist (List.Sublist.map _ ?_))
    exact (List.sublist_cons_self ..).trans (List.sublist_append_left ..)
  have laid := (laid_block inner).adoptAll scope
  rwa [show (block (body ++ [next, pop])).statements = placed [] (body ++ [next, pop]) from rfl,
    adoptAll_placed] at laid

theorem Iterates.stripped_children_iff (h : Iterates collection iterator? head body next pop after more) :
    Stripped next.offset pop.offset (loopChildren collection iterator? head body next pop) ↔
      ∀ s ∈ loopChildren collection iterator? head body next pop, s.isSelectionTo pop.offset = false := by
  obtain ⟨front, tail, closes⟩ := Block.closes_recovered _ ⟨_, _, h.closes⟩
  exact closes.stripped_tidy_iff (Block.laid_recovered (h.laid _))

/-- **The frame of an iteration is taken away exactly if no selection is left in the loop that ends with
it.** The loop is made in any case, and the code behind it is structured as it is on its own. -/
theorem stripped_iff (h : Iterates collection iterator? head body next pop after more) :
    ∃ children,
      (iteration head body next pop (after :: more)).block.structured.value.statements =
          .composite head.offset [] (.foreachHead collection iterator?) pop.offset
            [⟨.foreachLoop, head.offset, pop.offset⟩] children ::
              (block (after :: more)).structured.value.statements ∧
        (Stripped next.offset pop.offset children ↔
          ∀ s ∈ children, s.isSelectionTo pop.offset = false) :=
  ⟨_, h.structured, h.stripped_children_iff⟩

/-- A selection with a break, last in the body of an iteration. -/
def closedBody : Listing :=
  [⟨1, none, .switch (.expression "d")⟩, ⟨2, none, .caseLabel "1"⟩, ⟨3, none, .expression "f()"⟩,
    ⟨5, none, .jump 8⟩, ⟨6, none, .caseLabel "2"⟩]

/-- The iteration over it. -/
def closed : Listing :=
  iteration ⟨0, none, .foreach (.expression "A") 9⟩ closedBody ⟨8, none, .iteratorNext⟩
    ⟨9, none, .iteratorPop⟩ [⟨10, none, .expression "g()"⟩]

theorem stripped_iff_closed :
    Iterates (.expression "A") none ⟨0, none, .foreach (.expression "A") 9⟩ closedBody
        ⟨8, none, .iteratorNext⟩ ⟨9, none, .iteratorPop⟩ ⟨10, none, .expression "g()"⟩ [] ∧
      ∃ children,
        closed.block.structured.value.statements =
            .composite 0 [] (.foreachHead (.expression "A") none) 9 [⟨.foreachLoop, 0, 9⟩] children ::
              (block [⟨10, none, .expression "g()"⟩]).structured.value.statements ∧
          (Stripped 8 9 children ↔ ∀ s ∈ children, s.isSelectionTo 9 = false) :=
  have iterates : Iterates (.expression "A") none ⟨0, none, .foreach (.expression "A") 9⟩ closedBody
      ⟨8, none, .iteratorNext⟩ ⟨9, none, .iteratorPop⟩ ⟨10, none, .expression "g()"⟩ [] :=
    ⟨by decide, rfl, rfl, rfl, rfl, by decide⟩
  ⟨iterates, stripped_iff iterates⟩

/-- A selection without a break, last in the body of an iteration. -/
def unbrokenBody : Listing :=
  [⟨1, none, .switch (.expression "d")⟩, ⟨2, none, .caseLabel "1"⟩, ⟨3, none, .expression "f()"⟩]

/-- The iteration over it. -/
def unbroken : Listing :=
  iteration ⟨0, none, .foreach (.expression "A") 9⟩ unbrokenBody ⟨8, none, .iteratorNext⟩
    ⟨9, none, .iteratorPop⟩ [⟨10, none, .expression "g()"⟩]

/-- The selection takes in the step and the end of the iterator, although there is no jump and no
iteration in the body. -/
theorem not_stripped_unbroken :
    fault? unbroken = none ∧
      (∀ e ∈ unbrokenBody, e.token.isIteratorNext = false ∧ e.token.isIteratorPop = false ∧
        e.token.goal? = none) ∧
      ∃ children,
        unbroken.block.structured.value.statements =
            .composite 0 [] (.foreachHead (.expression "A") none) 9 [⟨.foreachLoop, 0, 9⟩] children ::
              (block [⟨10, none, .expression "g()"⟩]).structured.value.statements ∧
          ¬Stripped 8 9 children := by
  have tree : unbroken.block.structured.value.statements =
      [.composite 0 [] (.foreachHead (.expression "A") none) 9 [⟨.foreachLoop, 0, 9⟩]
        [.composite 1 [⟨.foreachLoop, 0, 9⟩] (.switchHead (.expression "d")) 9
          [⟨.switchBlock, 1, 9⟩, ⟨.foreachLoop, 0, 9⟩]
          [.plain 2 none [⟨.switchBlock, 1, 9⟩, ⟨.foreachLoop, 0, 9⟩] (.caseLabel "1"),
           .plain 3 none [⟨.switchBlock, 1, 9⟩, ⟨.foreachLoop, 0, 9⟩] (.expression "f()"),
           .plain 8 none [⟨.switchBlock, 1, 9⟩, ⟨.foreachLoop, 0, 9⟩] .iteratorNext,
           .plain 9 none [⟨.switchBlock, 1, 9⟩, ⟨.foreachLoop, 0, 9⟩] .iteratorPop]],
       .plain 10 none [] (.expression "g()")] := rfl
  refine ⟨by decide, by decide, _, tree, fun stripped => ?_⟩
  have within := stripped _ _ (.inside (List.mem_cons_self ..)
    (.here (List.mem_cons_of_mem _ (List.mem_cons_of_mem _ (List.mem_cons_self ..)))))
  exact within.1 rfl rfl

/-- An iteration without a selection in its body loses its frame. -/
theorem stripped_of_switchless (h : Iterates collection iterator? head body next pop after more)
    (switchless : ∀ e ∈ body, e.token.isSwitch = false) :
    ∃ children,
      (iteration head body next pop (after :: more)).block.structured.value.statements =
          .composite head.offset [] (.foreachHead collection iterator?) pop.offset
            [⟨.foreachLoop, head.offset, pop.offset⟩] children ::
              (block (after :: more)).structured.value.statements ∧
        Stripped next.offset pop.offset children := by
  refine ⟨_, h.structured, h.stripped_children_iff.2 fun s hs => ?_⟩
  obtain ⟨x, hx, rfl⟩ := mem_removePops hs
  rw [isSelectionTo_withoutPops]
  refine (Block.selectionless_recovered _ (fun y hy => ?_) x
    (Block.mem_trimLast (Block.mem_trimLast hx))).2
  obtain ⟨e, he, rfl⟩ := mem_placed.1 hy
  refine ⟨?_, isSelectionTo_of_token? rfl⟩
  rcases List.mem_append.1 he with he | he
  · exact switchless e he
  · simp only [List.mem_cons, List.not_mem_nil, or_false] at he
    rcases he with rfl | rfl
    · simp [isPlain_placed, h.step, Token.isSwitch]
    · simp [isPlain_placed, h.last, Token.isSwitch]

end Listing

end FlowRecovery
