import FlowRecovery.Proofs.Surgery

/-!
# The scopes that statements carry are not read

Structuring in place reads the scope of the block and what the statements are. The scopes that the
statements carry are only handed on, and so a test for the sameness of scopes can change nothing else.
`Block.Like` relates blocks that differ in these scopes at most; on such blocks, and with any two tests,
every operation has no result, or results that are alike again (`structureInPlace?_like`).

With the test that never finds anything, structuring in place goes through on every block. So it goes
through with every test (`structureInPlace?_never_stuck`), also where the scopes in a block do not agree
with the tree.
-/

namespace FlowRecovery

/-- What is done with related values, or with none, has related results, or none. -/
theorem rel_bind {α β γ δ : Type} {R : α → β → Prop} {S : γ → δ → Prop} {x : Option α} {y : Option β}
    {f : α → Option γ} {g : β → Option δ} (h : Option.Rel R x y)
    (next : ∀ a b, R a b → Option.Rel S (f a) (g b)) : Option.Rel S (x.bind f) (y.bind g) := by
  cases h with
  | none => exact .none
  | some h => exact next _ _ h

theorem rel_cases {α β : Type} {R : α → β → Prop} {x : Option α} {y : Option β}
    (h : Option.Rel R x y) :
    (x = none ∧ y = none) ∨ ∃ a b, x = some a ∧ y = some b ∧ R a b := by
  cases h with
  | none => exact .inl ⟨rfl, rfl⟩
  | some h => exact .inr ⟨_, _, rfl, rfl, h⟩

theorem rel_of_map_eq {α β : Type} {f : α → β} {x y : Option α} (h : x.map f = y.map f) :
    Option.Rel (fun a b => f a = f b) x y := by
  cases x <;> cases y <;> simp_all

/-! ### Statements -/

/-- The statements differ in the scopes they carry at most. -/
def Statement.Like (s s' : Statement) : Prop := s.adopt [] = s'.adopt []

namespace Statement.Like

variable {s s' : Statement}

theorem token?_eq (h : s.Like s') : s.token? = s'.token? := by
  rw [← token?_adopt [] s, ← token?_adopt [] s', h]

theorem start_eq (h : s.Like s') : s.start = s'.start := by
  rw [← start_adopt [] s, ← start_adopt [] s', h]

theorem isPlain_eq (h : s.Like s') (p : Token → Bool) : s.isPlain p = s'.isPlain p := by
  rw [isPlain, isPlain, h.token?_eq]

theorem jumpTarget?_eq (h : s.Like s') : s.jumpTarget? = s'.jumpTarget? := by
  rw [jumpTarget?, jumpTarget?, h.token?_eq]

end Statement.Like

namespace Statement

/-- Two lists whose statements, place by place, differ in the scopes they carry at most. -/
def AllLike (l l' : List Statement) : Prop := adoptAll [] l = adoptAll [] l'

theorem AllLike.adoptAll_eq {l l' : List Statement} (h : AllLike l l') (scope : Scope) :
    adoptAll scope l = adoptAll scope l' := by
  rw [← adoptAll_adoptAll scope [] l, ← adoptAll_adoptAll scope [] l', h]

theorem allLike_cons_iff {s s' : Statement} {l l' : List Statement} :
    AllLike (s :: l) (s' :: l') ↔ s.Like s' ∧ AllLike l l' := by
  simp [AllLike, Like, adoptAll]

mutual

theorem like_moveTo (t : Sameness) (scope : Scope) : (s : Statement) → (s.moveTo t scope).Like s
  | plain .. => rfl
  | escape .. => rfl
  | composite start _ head stop _ children => by
    rw [moveTo]
    split
    · rfl
    · have ih := (allLike_moveAllTo t (⟨head.kind, start, stop⟩ :: scope) children).adoptAll_eq
        [⟨head.kind, start, stop⟩]
      rw [Like, adopt, adopt, ih]

theorem allLike_moveAllTo (t : Sameness) (scope : Scope) :
    (l : List Statement) → AllLike (moveAllTo t scope l) l
  | [] => rfl
  | s :: rest => by
    rw [moveAllTo]
    exact allLike_cons_iff.2 ⟨like_moveTo t scope s, allLike_moveAllTo t scope rest⟩

end

mutual

theorem withoutPops_adopt (scope : Scope) :
    (s : Statement) → (s.adopt scope).withoutPops = s.withoutPops.adopt scope
  | plain .. => rfl
  | escape .. => rfl
  | composite start _ head stop _ children => by
    rw [adopt, withoutPops, removePops_adoptAll _ children, withoutPops, adopt]

theorem removePops_adoptAll (scope : Scope) :
    (l : List Statement) → removePops (adoptAll scope l) = adoptAll scope (removePops l)
  | [] => rfl
  | s :: rest => by
    have next (p : Token → Bool) :
        (adoptAll scope rest).head?.any (isPlain p) = rest.head?.any (isPlain p) := by
      cases rest with
      | nil => rfl
      | cons s' rest => simp [adoptAll, isPlain]
    rw [adoptAll, removePops, removePops, next, isPlain, token?_adopt, ← isPlain]
    split
    · exact removePops_adoptAll scope rest
    · rw [withoutPops_adopt scope s, removePops_adoptAll scope rest, adoptAll]

end

theorem breaksTo_like (stop : Offset) (scope : Scope) {l l' : List Statement} (h : AllLike l l') :
    ∀ afterReturn,
      AllLike (breaksTo stop scope afterReturn l) (breaksTo stop scope afterReturn l') := by
  induction l generalizing l' with
  | nil =>
    cases l' with
    | nil => exact fun _ => rfl
    | cons s' rest' => simp [AllLike, adoptAll] at h
  | cons s rest ih =>
    cases l' with
    | nil => simp [AllLike, adoptAll] at h
    | cons s' rest' =>
      obtain ⟨hs, hrest⟩ := allLike_cons_iff.1 h
      intro afterReturn
      rw [breaksTo, breaksTo, hs.jumpTarget?_eq, hs.start_eq, hs.isPlain_eq]
      split
      · split
        · exact ih hrest _
        · exact allLike_cons_iff.2 ⟨rfl, ih hrest _⟩
      · exact allLike_cons_iff.2 ⟨hs, ih hrest _⟩

end Statement

open Statement

/-! ### Blocks -/

/-- The blocks stand in the same scope, and their statements differ in the scopes they carry at most. -/
structure Block.Like (b c : Block) : Prop where
  /-- The scope of the blocks. -/
  scope : b.scope = c.scope
  /-- The statements, but for the scopes they carry. -/
  statements : AllLike b.statements c.statements

/-- Structuring came to blocks that are alike, or was stopped at such blocks in the same way. -/
structure Outcome.Like (r q : Outcome Block) : Prop where
  /-- The blocks. -/
  value : r.value.Like q.value
  /-- What stopped it. -/
  stopped? : r.stopped? = q.stopped?

namespace Block.Like

variable {b c : Block}

theorem map_eq (h : b.Like c) : b.statements.map (adopt []) = c.statements.map (adopt []) := by
  rw [← adoptAll_eq_map, ← adoptAll_eq_map]
  exact h.statements

theorem length_eq (h : b.Like c) : b.length = c.length := by
  rw [length, ← List.length_map (adopt []), h.map_eq, List.length_map, length]

theorem getElem? (h : b.Like c) (i : Nat) :
    Option.Rel Statement.Like b.statements[i]? c.statements[i]? := by
  refine rel_of_map_eq ?_
  rw [← List.getElem?_map, ← List.getElem?_map, h.map_eq]

theorem last? (h : b.Like c) : Option.Rel Statement.Like b.last? c.last? := by
  refine rel_of_map_eq ?_
  rw [Block.last?, Block.last?, ← List.getLast?_map, ← List.getLast?_map, h.map_eq]

theorem endsWith_eq (h : b.Like c) (p : Token → Bool) : b.endsWith p = c.endsWith p := by
  rw [endsWith, endsWith]
  rcases rel_cases h.last? with ⟨hb, hc⟩ | ⟨s, s', hb, hc, hs⟩
  · rw [hb, hc]
  · rw [hb, hc, Option.any_some, hs.isPlain_eq, Option.any_some]

theorem start_eq (h : b.Like c) : b.start = c.start := by
  rw [start, start, startAt, startAt]
  rcases rel_cases (h.getElem? 0) with ⟨hb, hc⟩ | ⟨s, s', hb, hc, hs⟩
  · rw [hb, hc]
  · rw [hb, hc, Option.map_some, hs.start_eq, Option.map_some]

theorem stop_eq (h : b.Like c) : b.stop = c.stop := by
  rw [stop, stop, h.scope]
  rcases rel_cases h.last? with ⟨hb, hc⟩ | ⟨s, s', hb, hc, hs⟩
  · rw [hb, hc]
  · rw [hb, hc, Option.map_some, hs.start_eq, Option.map_some]

theorem endsAt_eq (h : b.Like c) (target : Offset) : b.endsAt target = c.endsAt target := by
  rw [endsAt, endsAt, h.scope]
  rcases rel_cases h.last? with ⟨hb, hc⟩ | ⟨s, s', hb, hc, hs⟩
  · rw [hb, hc]
  · rw [hb, hc, Option.any_some, hs.start_eq, Option.any_some]

theorem find?_eq (h : b.Like c) (target : Offset) (first : Nat) :
    b.find? target first = c.find? target first := by
  have starts (l : List Statement) : (l.map (adopt [])).findIdx? (fun s => s.start == target) =
      l.findIdx? fun s => s.start == target := by
    rw [List.findIdx?_map]
    simp [Function.comp_def]
  have ahead : (b.statements.drop first).findIdx? (fun s => s.start == target) =
      (c.statements.drop first).findIdx? fun s => s.start == target := by
    rw [← starts, List.map_drop, h.map_eq, ← List.map_drop, starts]
  rw [find?, find?, h.endsAt_eq, h.length_eq, ahead]

theorem secondBranchEnd?_eq (h : b.Like c) (split : Nat) (target : Offset) :
    b.secondBranchEnd? split target = c.secondBranchEnd? split target := by
  rw [secondBranchEnd?, secondBranchEnd?, h.scope, h.find?_eq]

theorem of_map_eq (hscope : b.scope = c.scope)
    (h : b.statements.map (adopt []) = c.statements.map (adopt [])) : b.Like c := by
  refine ⟨hscope, ?_⟩
  rw [AllLike, adoptAll_eq_map, adoptAll_eq_map, h]

theorem trimLast (h : b.Like c) (p : Token → Bool) : (b.trimLast p).Like (c.trimLast p) := by
  rw [Block.trimLast, Block.trimLast, h.endsWith_eq]
  split
  · refine of_map_eq h.scope ?_
    rw [List.map_dropLast, List.map_dropLast, h.map_eq]
  · exact h

theorem tidy (h : b.Like c) (head : Head) (start stop : Offset) :
    (b.tidy head start stop).Like (c.tidy head start stop) := by
  cases head with
  | ifHead | elseHead => exact h
  | whileHead => exact h.trimLast _
  | foreachHead =>
    have trimmed := (h.trimLast Token.isIteratorPop).trimLast Token.isIteratorNext
    have pops := congrArg removePops trimmed.statements
    rw [removePops_adoptAll, removePops_adoptAll] at pops
    exact ⟨trimmed.scope, pops⟩
  | switchHead =>
    have turned : Like ⟨c.scope, breaksTo stop c.scope false b.statements⟩
        ⟨c.scope, breaksTo stop c.scope false c.statements⟩ :=
      ⟨rfl, breaksTo_like stop c.scope h.statements false⟩
    rw [Block.tidy, Block.tidy, h.scope]
    exact turned.trimLast _

end Block.Like

namespace Block

/-! ### Changing a block -/

section

variable {b c : Block} {s s' : Statement} (t t' : Sameness)

theorem removeRange?_like (h : b.Like c) (i count : Nat) :
    Option.Rel Like (b.removeRange? i count) (c.removeRange? i count) := by
  rw [removeRange?, removeRange?, h.length_eq]
  split
  · refine .some (Like.of_map_eq h.scope ?_)
    simp only [splice, adoptAll, List.append_nil, List.map_append, List.map_take, List.map_drop,
      h.map_eq]
  · exact .none

theorem cutRange?_like (h : b.Like c) (i count : Nat) :
    Option.Rel (fun p q => p.1.Like q.1 ∧ p.2.Like q.2) (b.cutRange? i count)
      (c.cutRange? i count) := by
  rw [cutRange?, cutRange?, Option.map_eq_bind, Option.map_eq_bind]
  refine rel_bind (removeRange?_like h i count) fun rest rest' hrest => .some ⟨?_, hrest⟩
  refine Like.of_map_eq rfl ?_
  simp only [List.map_take, List.map_drop, h.map_eq]

theorem insertBy?_like (h : b.Like c) (hs : s.Like s') (i : Nat) :
    Option.Rel Like (b.insertBy? t i s) (c.insertBy? t' i s') := by
  have moved : (s.moveTo t b.scope).adopt [] = (s'.moveTo t' c.scope).adopt [] :=
    (like_moveTo t b.scope s).trans (hs.trans (like_moveTo t' c.scope s').symm)
  rw [insertBy?, insertBy?, h.length_eq]
  split
  · refine .some (Like.of_map_eq h.scope ?_)
    simp only [List.map_append, List.map_cons, List.map_take, List.map_drop, h.map_eq, moved]
  · exact .none

theorem replaceRangeBy?_like (h : b.Like c) (hs : s.Like s') (i count : Nat) :
    Option.Rel Like (b.replaceRangeBy? t i count s) (c.replaceRangeBy? t' i count s') :=
  rel_bind (removeRange?_like h i count) fun _ _ hrest => insertBy?_like t t' hrest hs i

theorem follows?_like (h : b.Like c) (i : Nat) (p : Token → Bool) :
    b.follows? i p = c.follows? i p := by
  rw [follows?, follows?]
  split
  · cases i.psub 1 with
    | none => rfl
    | some before =>
      simp only [Option.bind_eq_bind, Option.bind_some]
      rcases rel_cases (h.getElem? before) with ⟨hb, hc⟩ | ⟨s, s', hb, hc, hs⟩
      · rw [hb, hc]
      · rw [hb, hc, Option.bind_some, Option.bind_some, hs.isPlain_eq]
  · rfl

end

/-! ### Rewrites -/

section

variable {b c : Block} {t t' : Sameness} {inner inner' : Block → Option (Outcome Block)}

/-- The two ways to structure children have results that are alike for blocks that are alike. -/
def Agree (inner inner' : Block → Option (Outcome Block)) : Prop :=
  ∀ b c : Block, b.Like c → Option.Rel Outcome.Like (inner b) (inner' c)

theorem finishAt?_like (agree : Agree inner inner') (h : b.Like c) {i : Nat} {start stop : Offset}
    {outer outer' frames : Scope} {head : Head} {l l' : List Statement} (hl : AllLike l l')
    (hb : b.statements[i]? = some (.composite start outer head stop frames l))
    (hc : c.statements[i]? = some (.composite start outer' head stop frames l')) :
    Option.Rel Outcome.Like (b.finishAt? t inner i) (c.finishAt? t' inner' i) := by
  have set {m m' : List Statement} (hm : AllLike m m') :
      Like ⟨b.scope, b.statements.set i (.composite start outer head stop frames m)⟩
        ⟨c.scope, c.statements.set i (.composite start outer' head stop frames m')⟩ := by
    refine Like.of_map_eq h.scope ?_
    rw [List.map_set, List.map_set, h.map_eq, adopt, adopt, hm.adoptAll_eq]
  rw [finishAt?, finishAt?, hb, hc]
  refine rel_bind (agree ⟨frames, l⟩ ⟨frames, l'⟩ ⟨rfl, hl⟩) fun r q hrq => ?_
  rw [hrq.stopped?]
  cases q.stopped? with
  | none =>
    rw [tidyInPlace?_eq, tidyInPlace?_eq]
    exact .some ⟨set (hrq.value.tidy head start stop).statements, rfl⟩
  | some _ => exact .some ⟨set hrq.value.statements, rfl⟩

/-- The children of a composite statement that is put into a block stand below its frame, whatever the
test says. -/
theorem moveTo_wrapBy (t : Sameness) (scope : Scope) (start : Offset) (head : Head)
    (children : List Statement) (stop : Offset) :
    ∃ l, AllLike l children ∧ (Statement.wrapBy t start head children stop).moveTo t scope =
      .composite start scope head stop (⟨head.kind, start, stop⟩ :: scope) l := by
  have wrapped := allLike_moveAllTo t [⟨head.kind, start, stop⟩] children
  rw [Statement.wrapBy, moveTo]
  split
  · next same =>
    obtain rfl : [] = scope := t.eq_of_same same
    exact ⟨_, wrapped, rfl⟩
  · exact ⟨_, (allLike_moveAllTo t _ _).trans wrapped, rfl⟩

theorem wrapBy_like {l l' : List Statement} (h : AllLike l l') (start : Offset) (head : Head)
    (stop : Offset) :
    (Statement.wrapBy t start head l stop).Like (.wrapBy t' start head l' stop) := by
  have moved : AllLike (moveAllTo t [⟨head.kind, start, stop⟩] l)
      (moveAllTo t' [⟨head.kind, start, stop⟩] l') :=
    (allLike_moveAllTo t _ l).trans (h.trans (allLike_moveAllTo t' _ l').symm)
  rw [Statement.Like, Statement.wrapBy, Statement.wrapBy, adopt, adopt, moved.adoptAll_eq]

theorem getElem?_of_insertBy? {b' : Block} {s : Statement} {i : Nat} (h : b.insertBy? t i s = some b') :
    b'.statements[i]? = some (s.moveTo t b.scope) := by
  unfold insertBy? at h
  split at h
  · next hi =>
    cases h
    rw [List.getElem?_append_right (by rw [length_take_of_le hi]), length_take_of_le hi, Nat.sub_self]
    rfl
  · cases h

/-- A composite statement is put in and finished. -/
theorem insertBy?_finishAt?_like (agree : Agree inner inner') (h : b.Like c) {l l' : List Statement}
    (hl : AllLike l l') (i : Nat) (start : Offset) (head : Head) (stop : Offset) :
    Option.Rel Outcome.Like
      ((b.insertBy? t i (.wrapBy t start head l stop)).bind (finishAt? t inner · i))
      ((c.insertBy? t' i (.wrapBy t' start head l' stop)).bind (finishAt? t' inner' · i)) := by
  obtain ⟨m, hm, put⟩ := moveTo_wrapBy t b.scope start head l stop
  obtain ⟨m', hm', put'⟩ := moveTo_wrapBy t' c.scope start head l' stop
  rcases rel_cases (insertBy?_like t t' h (wrapBy_like hl start head stop) i) with
    ⟨hb, hc⟩ | ⟨b', c', hb, hc, hlike⟩
  · rw [hb, hc]
    exact .none
  · have there := (getElem?_of_insertBy? hb).trans (congrArg some put)
    have there' := (getElem?_of_insertBy? hc).trans (congrArg some put')
    rw [h.scope] at there
    rw [hb, hc]
    exact finishAt?_like agree hlike (hm.trans (hl.trans hm'.symm)) there there'

theorem fold?_like (agree : Agree inner inner') (h : b.Like c) (i bodyEnd count : Nat) (start : Offset)
    (head : Head) (stop : Offset) :
    Option.Rel Outcome.Like (b.fold? t inner i bodyEnd count start head stop)
      (c.fold? t' inner' i bodyEnd count start head stop) := by
  rw [fold?, fold?]
  cases bodyEnd.psub i with
  | none => exact .none
  | some size =>
    simp only [Option.bind_eq_bind, Option.bind_some]
    cases size.psub 1 with
    | none => exact .none
    | some size =>
      simp only [Option.bind_some, replaceRangeBy?, Option.bind_eq_bind, Option.bind_assoc]
      refine rel_bind (cutRange?_like h (i + 1) size) fun p q hpq => ?_
      refine rel_bind (removeRange?_like hpq.2 i count) fun rest rest' hrest => ?_
      exact insertBy?_finishAt?_like agree hrest hpq.1.statements i start head stop

theorem branchShape?_like (h : b.Like c) (condition : Token) (start target : Offset) (split : Nat) :
    b.branchShape? condition start target split = c.branchShape? condition start target split := by
  rw [branchShape?, branchShape?]
  cases split.psub 1 with
  | none => rfl
  | some before =>
    simp only [Option.bind_eq_bind, Option.bind_some]
    rcases rel_cases (h.getElem? before) with ⟨hb, hc⟩ | ⟨s, s', hb, hc, hs⟩
    · rw [hb, hc]
      rfl
    · simp only [hb, hc, Option.bind_some, hs.jumpTarget?_eq, hs.start_eq, h.secondBranchEnd?_eq]

theorem foldBranch?_like (agree : Agree inner inner') (h : b.Like c) (i : Nat) (condition : Token)
    (target : Offset) (split : Nat) :
    Option.Rel Outcome.Like (b.foldBranch? t inner i condition target split)
      (c.foldBranch? t' inner' i condition target split) := by
  rw [foldBranch?, foldBranch?]
  refine rel_bind (h.getElem? i) fun s s' hs => ?_
  rw [hs.start_eq, branchShape?_like h]
  cases c.branchShape? condition s'.start target split with
  | none => exact .none
  | some shape =>
    simp only [Option.bind_eq_bind, Option.bind_some]
    cases split.psub shape.bodyEnd with
    | none => exact .none
    | some count =>
      simp only [Option.bind_some]
      rcases shape.second? with _ | ⟨after, stop⟩
      · exact fold?_like agree h i shape.bodyEnd (1 + count) s'.start shape.head shape.stop
      · refine rel_bind (h.getElem? split) fun o o' ho => ?_
        cases after.psub split with
        | none => exact .none
        | some size =>
          simp only [Option.bind_some]
          refine rel_bind (cutRange?_like h split size) fun p q hpq => ?_
          refine rel_bind (fold?_like agree hpq.2 i shape.bodyEnd (1 + count) s'.start shape.head
            shape.stop) fun r r' hr => ?_
          rw [hr.stopped?, ho.start_eq]
          cases r'.stopped? with
          | some _ => exact .some hr
          | none =>
            exact insertBy?_finishAt?_like agree hr.value hpq.1.statements (i + 1) o'.start
              .elseHead stop

theorem turnJump?_like (h : b.Like c) (i : Nat) (target : Offset) :
    Option.Rel (Option.Rel Like) (b.turnJump? t i target) (c.turnJump? t' i target) := by
  rw [turnJump?, turnJump?, h.scope]
  cases c.scope.loopExit? target with
  | none => exact .some .none
  | some frame =>
    refine rel_bind (h.getElem? i) fun s s' hs => ?_
    rw [follows?_like h, hs.start_eq]
    cases c.follows? i Token.isIteratorNext with
    | none => exact .none
    | some steps =>
      simp only [Option.bind_eq_bind, Option.bind_some]
      split
      · cases i.psub 1 with
        | none => exact .none
        | some before =>
          simp only [Option.bind_some]
          exact rel_bind (replaceRangeBy?_like t t' h rfl before 2) fun _ _ hd =>
            Option.Rel.some (.some hd)
      · exact rel_bind (replaceRangeBy?_like t t' h rfl i 1) fun _ _ hd => Option.Rel.some (.some hd)

theorem selectionEndAt?_like (h : b.Like c) (first : Nat) :
    ∀ ahead j : Nat, b.selectionEndAt? first ahead j = c.selectionEndAt? first ahead j := by
  intro ahead
  induction ahead with
  | zero =>
    intro j
    rw [selectionEndAt?, selectionEndAt?]
    rcases rel_cases h.last? with ⟨hb, hc⟩ | ⟨s, s', hb, hc, hs⟩
    · rw [hb, hc, h.length_eq, h.stop_eq]
    · rw [hb, hc]
      simp only [hs.isPlain_eq, hs.start_eq, h.length_eq, h.stop_eq]
  | succ ahead ih =>
    intro j
    rw [selectionEndAt?, selectionEndAt?]
    rcases rel_cases (h.getElem? j) with ⟨hb, hc⟩ | ⟨s, s', hb, hc, hs⟩
    · rw [hb, hc]
      rfl
    · simp only [hb, hc, Option.bind_eq_bind, Option.bind_some, hs.isPlain_eq, h.find?_eq, ih]
      split
      · cases j.psub 1 with
        | none => rfl
        | some before =>
          simp only [Option.bind_some]
          rcases rel_cases (h.getElem? before) with ⟨hb, hc⟩ | ⟨s, s', hb, hc, hs⟩
          · rw [hb, hc]
          · simp only [hb, hc, Option.bind_some, hs.jumpTarget?_eq]
      · rfl

theorem rewriteInPlace?_like (agree : Agree inner inner') (h : b.Like c) (i : Nat) :
    Option.Rel (Option.Rel Outcome.Like) (b.rewriteInPlace? t inner i)
      (c.rewriteInPlace? t' inner' i) := by
  rw [rewriteInPlace?, rewriteInPlace?]
  refine rel_bind (h.getElem? i) fun s s' hs => ?_
  have folded (after : Nat) (head : Head) (stop : Offset) :
      Option.Rel (Option.Rel Outcome.Like)
        ((b.fold? t inner i after 1 s'.start head stop).bind fun r => some (some r))
        ((c.fold? t' inner' i after 1 s'.start head stop).bind fun r => some (some r)) :=
    rel_bind (fold?_like agree h i after 1 s'.start head stop) fun _ _ hr => Option.Rel.some (.some hr)
  rw [hs.token?_eq, hs.start_eq]
  rcases s'.token? with _ | token
  · exact .some .none
  cases token with
  | jumpIfNot condition target =>
    simp only [h.find?_eq]
    cases c.find? target 0 with
    | none => exact .some .none
    | some split =>
      dsimp only
      split
      · exact rel_bind (foldBranch?_like agree h i condition target split) fun _ _ hr =>
          Option.Rel.some (.some hr)
      · exact .some .none
  | jump target =>
    refine rel_bind (turnJump?_like h i target) fun r r' hr => .some ?_
    cases hr with
    | none => exact .none
    | some hd => exact .some ⟨hd, rfl⟩
  | foreach collection target =>
    simp only [h.find?_eq]
    cases target.next?.bind fun exit => c.find? exit (i + 1) with
    | none => exact .some .none
    | some after => exact folded after (.foreachHead collection none) target
  | foreachWith collection iterator target =>
    simp only [h.find?_eq]
    cases target.next?.bind fun exit => c.find? exit (i + 1) with
    | none => exact .some .none
    | some after => exact folded after (.foreachHead collection (some iterator)) target
  | switch discriminant =>
    simp only [selectionEndAt?_like h, h.length_eq]
    cases c.selectionEndAt? (i + 1) (c.length - (i + 1)) (i + 1) with
    | none => exact .none
    | some found =>
      simp only [Option.bind_eq_bind, Option.bind_some]
      rcases found with _ | ⟨after, stop⟩
      · exact .some .none
      · exact folded after (.switchHead discriminant) stop
  | _ => exact .some .none

theorem passFrom?_like (agree : Agree inner inner') (h : b.Like c) :
    ∀ ahead i : Nat, Option.Rel (Option.Rel Outcome.Like) (b.passFrom? t inner ahead i)
      (c.passFrom? t' inner' ahead i) := by
  intro ahead
  induction ahead with
  | zero => exact fun _ => .some .none
  | succ ahead ih =>
    intro i
    rw [passFrom?, passFrom?]
    refine rel_bind (rewriteInPlace?_like agree h i) fun r r' hr => ?_
    cases hr with
    | none => exact ih (i + 1)
    | some hr => exact Option.Rel.some (.some hr)

theorem passesInPlace?_like (agree : Agree inner inner') (limit : Nat) :
    ∀ {remaining : Nat} {b c : Block}, b.Like c →
      Option.Rel Outcome.Like (passesInPlace? t inner limit remaining b)
        (passesInPlace? t' inner' limit remaining c) := by
  intro remaining
  induction remaining with
  | zero =>
    intro b c h
    rw [passesInPlace?, passesInPlace?, h.length_eq]
    refine rel_bind (passFrom?_like agree h c.length 0) fun r r' hr => ?_
    cases hr with
    | none => exact .some ⟨h, rfl⟩
    | @some r r' hr =>
      dsimp only
      rw [Outcome.andThen, Outcome.andThen, hr.stopped?]
      cases r'.stopped? with
      | none => exact .some ⟨hr.value, by rw [hr.value.start_eq]⟩
      | some _ => exact .some hr
  | succ remaining ih =>
    intro b c h
    rw [passesInPlace?, passesInPlace?, h.length_eq]
    refine rel_bind (passFrom?_like agree h c.length 0) fun r r' hr => ?_
    cases hr with
    | none => exact .some ⟨h, rfl⟩
    | @some r r' hr =>
      dsimp only
      rw [hr.stopped?]
      cases r'.stopped? with
      | none => exact ih hr.value
      | some _ => exact .some hr

end

/-- **The test for the sameness of scopes changes nothing but the scopes that statements carry.** -/
theorem structureInPlace?_like (t t' : Sameness) :
    ∀ (depth limit : Nat) {b c : Block}, b.Like c →
      Option.Rel Outcome.Like (structureInPlace? t depth limit b)
        (structureInPlace? t' depth limit c) := by
  intro depth
  induction depth with
  | zero => exact fun _ _ _ _ => .none
  | succ depth ih =>
    intro limit b c h
    rw [structureInPlace?, structureInPlace?]
    refine passesInPlace?_like (fun b c h => ?_) limit h
    rw [h.length_eq]
    exact ih (c.length + 1) h

theorem agree_childrenInPlace? (t t' : Sameness) (depth : Nat) :
    Agree (childrenInPlace? t depth) (childrenInPlace? t' depth) := by
  intro b c h
  rw [childrenInPlace?, childrenInPlace?, h.length_eq]
  exact structureInPlace?_like t t' depth (c.length + 1) h

/-- There is no rewrite in a block if there is none in a block that is like it. -/
theorem firstRewrite?_eq_none_of_like {b c : Block} (h : b.Like c) (hc : c.firstRewrite? = none) :
    b.firstRewrite? = none := by
  have structures : Structures (childrenInPlace? .never c.length) c.length :=
    structures_childrenInPlace? .never (Nat.le_refl _)
  have pass : Option.Rel (Option.Rel Outcome.Like)
      (b.passFrom? .never (childrenInPlace? .never c.length) b.length 0)
      (c.passFrom? .never (childrenInPlace? .never c.length) b.length 0) :=
    passFrom?_like (agree_childrenInPlace? .never .never c.length) h b.length 0
  rw [passFrom?_zero (h.length_eq ▸ structures) fun s _ => .inl rfl, h.length_eq,
    passFrom?_zero structures fun s _ => .inl rfl, hc] at pass
  cases hb : b.firstRewrite? with
  | none => rfl
  | some r =>
    rw [hb] at pass
    cases pass with
    | some pass => cases pass

/-- **Structuring always reaches a block without a rewrite**, and the program that does it in place has a
result, with any test for the sameness of scopes: no index, range or difference is out of bounds, and
neither the passes over the block nor those over the children of a composite statement are stopped by
their limit, as that would be the result. -/
theorem structureInPlace?_never_stuck (t : Sameness) (b : Block) (extra : Nat) :
    ∃ c, structureInPlace? t (b.length + 1 + extra) (b.length + 1) b = some (.done c) ∧
      c.Like b.structured.value ∧ c.firstRewrite? = none := by
  have plain : structureInPlace? .never (b.length + 1 + extra) (b.length + 1) b =
      some (.done b.structured.value) :=
    (structureInPlace?_eq .never (by omega) fun s _ => .inl rfl).trans
      (congrArg some b.structured_eq_done)
  have like := structureInPlace?_like t .never (b.length + 1 + extra) (b.length + 1)
    (show b.Like b from ⟨rfl, rfl⟩)
  rw [plain] at like
  obtain ⟨-, missing⟩ | ⟨r, q, hr, hq, hrq⟩ := rel_cases like
  · cases missing
  · cases hq
    have reached : r = .done r.value := Outcome.eq_done_of_stopped? hrq.stopped?
    refine ⟨r.value, ?_, hrq.value, ?_⟩
    · rw [hr, ← reached]
    · exact firstRewrite?_eq_none_of_like hrq.value b.firstRewrite?_recovered

end Block

end FlowRecovery
