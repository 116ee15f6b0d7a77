import FlowRecovery.Elision
import FlowRecovery.Proofs.Escapes

/-!
# Scopes agree with the tree

A statement carries the scope it stands in, and a composite statement carries the scope of its
children beside it. `Block.Consistent` says that these are the scopes that the tree itself gives: every
statement directly in the block stands in the scope of the block, and the children of a composite
statement stand below its frame, at every depth.

A statement that is put into a block is given its scope anew (`consistent_adoptAll`), so whatever is
put into a consistent block leaves it consistent. Structuring leaves statements that were there before
and new ones that are put into the scope of the block (`structureWithin_sourced`), and the steps that
only take statements away keep what is left as it is.
-/

namespace FlowRecovery

/-- Every statement of a block stands in the scope of the block, and the children of a composite
statement stand, at every depth, below the frame of that statement. -/
inductive Block.Consistent : Block → Prop where
  /-- The conditions on the statements directly in a block. -/
  | intro {b : Block} (scopes : ∀ s ∈ b.statements, s.scope = b.scope)
      (frames : ∀ start scope head stop inner children,
        .composite start scope head stop inner children ∈ b.statements →
          inner = ⟨head.kind, start, stop⟩ :: b.scope)
      (below : ∀ start scope head stop inner children,
        .composite start scope head stop inner children ∈ b.statements →
          Block.Consistent ⟨inner, children⟩) :
      Block.Consistent b

/-- The scopes inside a statement agree with the one it stands in. -/
def Statement.Linked (s : Statement) : Prop := Block.Consistent ⟨s.scope, [s]⟩

namespace Block

/-- A block can be looked at one statement at a time. -/
theorem consistent_iff {b : Block} :
    b.Consistent ↔ ∀ s ∈ b.statements, s.scope = b.scope ∧ s.Linked := by
  constructor
  · rintro ⟨scopes, frames, below⟩ s hs
    refine ⟨scopes s hs, .intro ?_ ?_ ?_⟩
    · intro t ht
      rw [List.mem_singleton.1 ht]
    · intro start scope head stop inner children hm
      have hinner := frames start scope head stop inner children (List.mem_singleton.1 hm ▸ hs)
      rw [hinner, scopes s hs]
    · intro start scope head stop inner children hm
      exact below _ _ _ _ _ _ (List.mem_singleton.1 hm ▸ hs)
  · intro h
    refine .intro (fun s hs => (h s hs).1) ?_ ?_
    · intro start scope head stop inner children hm
      obtain ⟨hscope, -, frames, -⟩ := h _ hm
      have hinner := frames start scope head stop inner children (List.mem_singleton.2 rfl)
      rw [hinner, hscope]
    · intro start scope head stop inner children hm
      obtain ⟨-, -, -, below⟩ := h _ hm
      exact below _ _ _ _ _ _ (List.mem_singleton.2 rfl)

theorem Consistent.mono {scope : Scope} {l m : List Statement} (h : Consistent ⟨scope, m⟩)
    (hlm : ∀ s ∈ l, s ∈ m) : Consistent ⟨scope, l⟩ :=
  consistent_iff.2 fun s hs => consistent_iff.1 h s (hlm s hs)

theorem consistent_nil (scope : Scope) : Consistent ⟨scope, []⟩ :=
  consistent_iff.2 fun _ hs => by cases hs

end Block

namespace Statement

open Block

theorem linked_plain (start : Offset) (stop? : Option Offset) (scope : Scope) (token : Token) :
    (plain start stop? scope token).Linked := by
  refine .intro (fun s hs => List.mem_singleton.1 hs ▸ rfl) ?_ ?_
  all_goals
    intro _ _ _ _ _ _ hm
    cases List.mem_singleton.1 hm

theorem linked_escape (start : Offset) (scope : Scope) (how : Escape) (token : Token) :
    (escape start scope how token).Linked := by
  refine .intro (fun s hs => List.mem_singleton.1 hs ▸ rfl) ?_ ?_
  all_goals
    intro _ _ _ _ _ _ hm
    cases List.mem_singleton.1 hm

theorem linked_composite_iff {start stop : Offset} {scope inner : Scope} {head : Head}
    {children : List Statement} :
    (composite start scope head stop inner children).Linked ↔
      inner = ⟨head.kind, start, stop⟩ :: scope ∧ Consistent ⟨inner, children⟩ := by
  constructor
  · rintro ⟨-, frames, below⟩
    exact ⟨frames _ _ _ _ _ _ (List.mem_singleton.2 rfl), below _ _ _ _ _ _ (List.mem_singleton.2 rfl)⟩
  · rintro ⟨hinner, hchildren⟩
    refine .intro (fun s hs => List.mem_singleton.1 hs ▸ rfl) ?_ ?_
    · intro _ _ _ _ _ _ hm
      cases List.mem_singleton.1 hm
      exact hinner
    · intro _ _ _ _ _ _ hm
      cases List.mem_singleton.1 hm
      exact hchildren

/-! ### Adoption -/

mutual

/-- A statement that is put into a scope is linked, whatever it carried before. -/
theorem linked_adopt (scope : Scope) : (s : Statement) → (s.adopt scope).Linked
  | plain .. => linked_plain ..
  | escape .. => linked_escape ..
  | composite start _ head stop _ children => by
    rw [adopt, linked_composite_iff]
    exact ⟨rfl, consistent_adoptAll (⟨head.kind, start, stop⟩ :: scope) children⟩

theorem consistent_adoptAll (scope : Scope) :
    (l : List Statement) → Consistent ⟨scope, adoptAll scope l⟩
  | [] => by
    rw [adoptAll]
    exact consistent_nil scope
  | s :: rest => by
    rw [adoptAll, consistent_iff]
    intro m hm
    rcases List.mem_cons.1 hm with rfl | hm
    · exact ⟨scope_adopt scope s, linked_adopt scope s⟩
    · exact consistent_iff.1 (consistent_adoptAll scope rest) m hm

end

mutual

/-- Adoption into the scope that a linked statement already stands in changes nothing. -/
theorem adopt_of_linked : (s : Statement) → s.Linked → s.adopt s.scope = s
  | plain .., _ => rfl
  | escape .., _ => rfl
  | composite start scope head stop inner children, h => by
    obtain ⟨rfl, hchildren⟩ := linked_composite_iff.1 h
    rw [Statement.scope, adopt, adoptAll_of_consistent children hchildren]

theorem adoptAll_of_consistent {scope : Scope} :
    (l : List Statement) → Consistent ⟨scope, l⟩ → adoptAll scope l = l
  | [], _ => rfl
  | s :: rest, h => by
    obtain ⟨hscope, hs⟩ := consistent_iff.1 h s (List.mem_cons_self ..)
    have hadopt := adopt_of_linked s hs
    rw [hscope] at hadopt
    rw [adoptAll, hadopt,
      adoptAll_of_consistent rest (h.mono fun _ hm => List.mem_cons_of_mem _ hm)]

end

/-! ### Tidying -/

mutual

theorem linked_withoutPops : (s : Statement) → s.Linked → s.withoutPops.Linked
  | plain .., h => h
  | escape .., h => h
  | composite _ _ _ _ _ children, h => by
    obtain ⟨hinner, hchildren⟩ := linked_composite_iff.1 h
    exact linked_composite_iff.2 ⟨hinner, consistent_removePops children hchildren⟩

theorem consistent_removePops {scope : Scope} :
    (l : List Statement) → Consistent ⟨scope, l⟩ → Consistent ⟨scope, removePops l⟩
  | [], h => h
  | s :: rest, h => by
    have ih := consistent_removePops rest (h.mono fun _ hm => List.mem_cons_of_mem _ hm)
    obtain ⟨hscope, hs⟩ := consistent_iff.1 h s (List.mem_cons_self ..)
    rw [removePops]
    split
    · exact ih
    · rw [consistent_iff]
      intro m hm
      rcases List.mem_cons.1 hm with rfl | hm
      · refine ⟨?_, linked_withoutPops s hs⟩
        rw [← hscope]
        cases s <;> rfl
      · exact consistent_iff.1 ih m hm

end

end Statement

namespace Block

open Statement

theorem Consistent.trimLast {b : Block} (h : b.Consistent) (p : Token → Bool) :
    (b.trimLast p).Consistent := by
  rw [consistent_iff, scope_trimLast]
  exact fun s hs => consistent_iff.1 h s (mem_trimLast hs)

theorem Consistent.tidy {b : Block} (h : b.Consistent) (head : Head) (start stop : Offset) :
    (b.tidy head start stop).Consistent := by
  cases head with
  | ifHead | elseHead => exact h
  | whileHead => exact h.trimLast _
  | foreachHead => exact consistent_removePops _ ((h.trimLast _).trimLast _)
  | switchHead =>
    refine Consistent.trimLast (consistent_iff.2 fun s hs => ?_) _
    rcases mem_breaksTo hs with hs | ⟨start, rfl⟩
    · exact consistent_iff.1 h s hs
    · exact ⟨rfl, linked_escape ..⟩

/-! ### Structuring -/

/-- The statements of a block come from another one, or stand in its scope and are linked. -/
def Sourced (b c : Block) : Prop :=
  c.scope = b.scope ∧ ∀ s ∈ c.statements, s ∈ b.statements ∨ (s.scope = b.scope ∧ s.Linked)

theorem Sourced.refl (b : Block) : Sourced b b := ⟨rfl, fun _ hs => .inl hs⟩

theorem Sourced.trans {b c d : Block} (h : Sourced b c) (h' : Sourced c d) : Sourced b d := by
  refine ⟨h'.1.trans h.1, fun s hs => ?_⟩
  rcases h'.2 s hs with hs | ⟨hscope, hlinked⟩
  · exact h.2 s hs
  · exact .inr ⟨hscope.trans h.1, hlinked⟩

theorem Sourced.consistent {b c : Block} (h : Sourced b c) (hb : b.Consistent) : c.Consistent := by
  rw [consistent_iff, h.1]
  intro s hs
  exact (h.2 s hs).elim (consistent_iff.1 hb s) id

/-- A new composite statement is linked when its children are structured and tidied, if structuring
keeps shorter blocks consistent. -/
theorem RewriteAt.finished_linked {b : Block} {i : Nat} {r : Rewrite} (h : RewriteAt b i r)
    (inner : ∀ c : Block, c.length < b.length → Sourced c c.recovered) {s : Statement}
    (hs : s ∈ r.made) :
    (s.adopt b.scope).finished.scope = b.scope ∧ (s.adopt b.scope).finished.Linked := by
  rcases h.made_cases hs with ⟨_, _, _, rfl⟩ | ⟨start, head, children, stop, rfl, hlt⟩
  · exact ⟨rfl, linked_escape ..⟩
  · rw [adopt_wrap, finished, linked_composite_iff]
    have structured := (inner ⟨⟨head.kind, start, stop⟩ :: b.scope,
      adoptAll (⟨head.kind, start, stop⟩ :: b.scope) children⟩ (by simpa [length] using hlt)).consistent
        (consistent_adoptAll _ _)
    have tidied := structured.tidy head start stop
    refine ⟨rfl, rfl, ?_⟩
    rw [consistent_iff, scope_tidy, scope_recovered] at tidied
    exact consistent_iff.2 tidied

/-- **Structuring keeps scopes.** What any number of passes leaves comes from the block, or is new and
stands in its scope. -/
theorem structureWithin_sourced (limit : Nat) (b : Block) :
    Sourced b (b.structureWithin limit).value := by
  refine value_structureWithin_induction Sourced.refl Sourced.trans (fun b r hr inner => ?_) limit b
  obtain ⟨i, hi⟩ := rewriteAt_of_firstRewrite? hr
  refine ⟨rfl, fun s hs => ?_⟩
  simp only [rewritten, List.mem_append] at hs
  rcases hs with (hs | hs) | hs
  · exact .inl (List.mem_of_mem_take hs)
  · rw [adoptAll_eq_map, List.map_map, List.mem_map] at hs
    obtain ⟨m, hm, rfl⟩ := hs
    exact .inr (hi.finished_linked inner hm)
  · exact .inl (List.mem_of_mem_drop hs)

theorem recovered_sourced (b : Block) : Sourced b b.recovered := structureWithin_sourced _ b

/-! ### Elision -/

theorem mem_withoutRedundantReturns {b : Block} {s : Statement}
    (h : s ∈ b.withoutRedundantReturns.statements) : s ∈ b.statements := by
  have upToReturn {c : Block} (h : s ∈ c.upToReturn.statements) : s ∈ c.statements := by
    unfold Block.upToReturn at h
    split at h
    · exact h
    · split at h <;> exact List.mem_of_mem_take h
  unfold withoutRedundantReturns at h
  dsimp only at h
  split at h
  · exact mem_trimLast h
  · exact mem_trimLast (upToReturn h)

@[simp] theorem scope_withoutRedundantReturns (b : Block) :
    b.withoutRedundantReturns.scope = b.scope := by
  have upToReturn (c : Block) : c.upToReturn.scope = c.scope := by
    unfold Block.upToReturn
    split
    · rfl
    · split <;> rfl
  unfold withoutRedundantReturns
  dsimp only
  split
  · exact scope_trimLast ..
  · rw [upToReturn]
    exact scope_trimLast ..

end Block

end FlowRecovery
