import FlowRecovery.Proofs.Surgery

/-!
# Blocks that can be put together

`Held` lists the blocks that come about when statements are made, put into blocks, moved between them
and structured, and `Loose` the statements that are held outside of a block. A block that was not cut
out of another one is consistent, however it came about (`consistent_of_held`).

A range that is cut out of a block is in no scope, but its statements keep the scopes they had. They
are still linked, which is all that moving them elsewhere depends on, also where a composite statement
is left alone because it is found to be in the right scope (`Sameness.Suits`).
-/

namespace FlowRecovery

/-- How a block came about. -/
inductive Origin where
  /-- Statements were put into it one by one, or it was made with a composite statement. -/
  | whole
  /-- It was cut out of another block. -/
  | cut

mutual

/-- The blocks that can come about, with any test for the sameness of scopes at every step. -/
inductive Held : Origin → Block → Prop where
  /-- An empty body. -/
  | empty : Held .whole ⟨[], []⟩
  /-- The children of a composite statement, as a block of their own. -/
  | children {o : Origin} {b : Block} {start stop : Offset} {scope inner : Scope} {head : Head}
      {l : List Statement} : Held o b → .composite start scope head stop inner l ∈ b.statements →
      Held .whole ⟨inner, l⟩
  /-- A statement is appended. -/
  | push {o : Origin} {b : Block} {s : Statement} (t : Sameness) : Held o b → Loose s →
      Held o (b.pushBy t s)
  /-- A statement is inserted. -/
  | insert {o : Origin} {b b' : Block} {s : Statement} {i : Nat} (t : Sameness) : Held o b → Loose s →
      b.insertBy? t i s = some b' → Held o b'
  /-- A range is replaced by a statement. -/
  | replaceRange {o : Origin} {b b' : Block} {s : Statement} {i count : Nat} (t : Sameness) :
      Held o b → Loose s → b.replaceRangeBy? t i count s = some b' → Held o b'
  /-- A range is removed. -/
  | removeRange {o : Origin} {b b' : Block} {i count : Nat} : Held o b →
      b.removeRange? i count = some b' → Held o b'
  /-- A statement is removed. -/
  | remove {o : Origin} {b b' : Block} {s : Statement} {i : Nat} : Held o b →
      b.remove? i = some (s, b') → Held o b'
  /-- A range that is cut out. -/
  | cutRange {o : Origin} {b range rest : Block} {i count : Nat} : Held o b →
      b.cutRange? i count = some (range, rest) → Held .cut range
  /-- What is left when a range is cut out. -/
  | cutRest {o : Origin} {b range rest : Block} {i count : Nat} : Held o b →
      b.cutRange? i count = some (range, rest) → Held o rest
  /-- The last statement is removed if it is an instruction of a given kind. -/
  | trimLast {o : Origin} {b : Block} (p : Token → Bool) : Held o b → Held o (b.trimLast p)
  /-- A default value is taken off the front. -/
  | takeDefault {o : Origin} {b : Block} : Held o b → Held o b.takeDefault.2
  /-- The block is structured, whether or not a limit stops it. -/
  | structured {o : Origin} {b : Block} {r : Outcome Block} {depth limit : Nat} (t : Sameness) :
      Held o b → b.length < depth → b.structureInPlace? t depth limit = some r → Held o r.value
  /-- An undecoded return at the end is dropped. -/
  | withoutTrailingErrorReturn {o : Origin} {b : Block} : Held o b →
      Held o b.withoutTrailingErrorReturn
  /-- Returns that add nothing are dropped. -/
  | withoutRedundantReturns {o : Origin} {b : Block} : Held o b → Held o b.withoutRedundantReturns

/-- The statements that can be held outside of a block. -/
inductive Loose : Statement → Prop where
  /-- An instruction. -/
  | plain (start : Offset) (stop? : Option Offset) (token : Token) :
      Loose (.plain start stop? [] token)
  /-- A `break` or `continue`. -/
  | escape (start : Offset) (how : Escape) (token : Token) : Loose (.escape start [] how token)
  /-- A composite statement over the statements of a block. -/
  | wrap {o : Origin} {b : Block} (t : Sameness) (start : Offset) (head : Head) (stop : Offset) :
      Held o b → Loose (.wrapBy t start head b.statements stop)
  /-- A statement that was removed from a block. -/
  | removed {o : Origin} {b b' : Block} {s : Statement} {i : Nat} : Held o b →
      b.remove? i = some (s, b') → Loose s

end

namespace Block

/-- All statements of a block are linked, and stand in its scope unless it was cut out of another. -/
def Tied (o : Origin) (b : Block) : Prop :=
  ∀ s ∈ b.statements, s.Linked ∧ (o = .whole → s.scope = b.scope)

/-- Statements that stay keep the block tied, and so do linked ones that stand in its scope. -/
theorem Tied.of_sourced {o : Origin} {b c : Block} (h : Tied o b) (hc : Sourced b c) : Tied o c := by
  intro s hs
  rw [hc.1]
  rcases hc.2 s hs with hs | ⟨hscope, hlinked⟩
  · exact h s hs
  · exact ⟨hlinked, fun _ => hscope⟩

theorem Tied.of_subset {o : Origin} {b c : Block} (h : Tied o b) (hscope : c.scope = b.scope)
    (hsub : ∀ s ∈ c.statements, s ∈ b.statements) : Tied o c :=
  h.of_sourced ⟨hscope, fun s hs => .inl (hsub s hs)⟩

theorem sourced_insertBy? {b b' : Block} {s : Statement} {i : Nat} {t : Sameness} (hs : s.Linked)
    (h : b.insertBy? t i s = some b') : Sourced b b' := by
  unfold insertBy? at h
  split at h
  · cases h
    refine ⟨rfl, fun m hm => ?_⟩
    simp only [List.mem_append, List.mem_cons] at hm
    rcases hm with hm | rfl | hm
    · exact .inl (List.mem_of_mem_take hm)
    · rw [Statement.moveTo_of_linked t _ s hs]
      exact .inr ⟨Statement.scope_adopt .., Statement.linked_adopt ..⟩
    · exact .inl (List.mem_of_mem_drop hm)
  · cases h

theorem mem_of_mem_splice_nil {b : Block} {i count : Nat} {s : Statement}
    (h : s ∈ (b.splice i count []).statements) : s ∈ b.statements := by
  simp only [splice, Statement.adoptAll, List.append_nil, List.mem_append] at h
  exact h.elim List.mem_of_mem_take List.mem_of_mem_drop

theorem removeRange?_eq_some {b b' : Block} {i count : Nat} (h : b.removeRange? i count = some b') :
    b'.scope = b.scope ∧ ∀ s ∈ b'.statements, s ∈ b.statements := by
  unfold removeRange? at h
  split at h
  · cases h
    exact ⟨rfl, fun s => mem_of_mem_splice_nil⟩
  · cases h

theorem remove?_eq_some {b b' : Block} {s : Statement} {i : Nat} (h : b.remove? i = some (s, b')) :
    s ∈ b.statements ∧ b'.scope = b.scope ∧ ∀ m ∈ b'.statements, m ∈ b.statements := by
  obtain ⟨_, hs, heq⟩ := Option.map_eq_some_iff.1 h
  cases heq
  exact ⟨List.mem_of_getElem? hs, rfl, fun m => mem_of_mem_splice_nil⟩

theorem cutRange?_eq_some {b range rest : Block} {i count : Nat}
    (h : b.cutRange? i count = some (range, rest)) :
    (∀ s ∈ range.statements, s ∈ b.statements) ∧ b.removeRange? i count = some rest := by
  obtain ⟨_, hrest, heq⟩ := Option.map_eq_some_iff.1 h
  cases heq
  exact ⟨fun s hs => List.mem_of_mem_drop (List.mem_of_mem_take hs), hrest⟩

theorem takeDefault_subset (b : Block) :
    b.takeDefault.2.scope = b.scope ∧ ∀ s ∈ b.takeDefault.2.statements, s ∈ b.statements := by
  unfold takeDefault
  split
  · next rest hl => exact ⟨rfl, fun s hs => hl ▸ List.mem_cons_of_mem _ hs⟩
  · next rest hl => exact ⟨rfl, fun s hs => hl ▸ List.mem_cons_of_mem _ hs⟩
  · exact ⟨rfl, fun s hs => hs⟩

end Block

open Block

mutual

theorem Held.tied {o : Origin} {b : Block} : Held o b → Tied o b
  | .empty => nofun
  | .children h hm => by
    obtain ⟨rfl, hchildren⟩ := Statement.linked_composite_iff.1 (h.tied _ hm).1
    intro s hs
    obtain ⟨hscope, hlinked⟩ := consistent_iff.1 hchildren s hs
    exact ⟨hlinked, fun _ => hscope⟩
  | .push t h hs => by
    refine h.tied.of_sourced ⟨rfl, fun m hm => ?_⟩
    rcases List.mem_append.1 hm with hm | hm
    · exact .inl hm
    · rw [List.mem_singleton.1 hm, Statement.moveTo_of_linked t _ _ hs.linked]
      exact .inr ⟨Statement.scope_adopt .., Statement.linked_adopt ..⟩
  | .insert _ h hs heq => h.tied.of_sourced (sourced_insertBy? hs.linked heq)
  | .replaceRange _ h hs heq => by
    obtain ⟨c, hc, heq⟩ := Option.bind_eq_some_iff.1 heq
    obtain ⟨hscope, hsub⟩ := removeRange?_eq_some hc
    exact (h.tied.of_subset hscope hsub).of_sourced (sourced_insertBy? hs.linked heq)
  | .removeRange h heq => h.tied.of_subset (removeRange?_eq_some heq).1 (removeRange?_eq_some heq).2
  | .remove h heq => h.tied.of_subset (remove?_eq_some heq).2.1 (remove?_eq_some heq).2.2
  | .cutRange h heq => fun s hs => ⟨(h.tied s ((cutRange?_eq_some heq).1 s hs)).1, nofun⟩
  | .cutRest h heq => by
    obtain ⟨hscope, hsub⟩ := removeRange?_eq_some (cutRange?_eq_some heq).2
    exact h.tied.of_subset hscope hsub
  | .trimLast p h => h.tied.of_subset (scope_trimLast p _) fun _ => mem_trimLast
  | .takeDefault h => h.tied.of_subset (takeDefault_subset _).1 (takeDefault_subset _).2
  | .structured t h hlen heq => by
    rw [structureInPlace?_eq t hlen fun s hs => .inr (h.tied s hs).1] at heq
    cases heq
    exact h.tied.of_sourced (structureWithin_sourced ..)
  | .withoutTrailingErrorReturn h => h.tied.of_subset (scope_trimLast ..) fun _ => mem_trimLast
  | .withoutRedundantReturns h =>
    h.tied.of_subset (scope_withoutRedundantReturns _) fun _ => mem_withoutRedundantReturns

theorem Loose.linked {s : Statement} : Loose s → s.Linked
  | .plain .. => Statement.linked_plain ..
  | .escape .. => Statement.linked_escape ..
  | .wrap t start head stop h => by
    rw [Sameness.Suits.wrapBy_eq fun s hs => .inr (h.tied s hs).1]
    exact Statement.linked_composite_iff.2 ⟨rfl, Statement.consistent_adoptAll _ _⟩
  | .removed h heq => (h.tied _ (remove?_eq_some heq).1).1

end

/-- **Blocks are consistent however they were put together.** -/
theorem consistent_of_held {b : Block} (h : Held .whole b) : b.Consistent :=
  consistent_iff.2 fun s hs => ⟨(h.tied s hs).2 rfl, (h.tied s hs).1⟩

/-- A conditional that was structured. -/
def guardedCall : Statement :=
  .composite 0 [] (.ifHead (.expression "c")) 5 [⟨.ifBlock, 0, 5⟩]
    [.plain 3 none [⟨.ifBlock, 0, 5⟩] (.expression "f()")]

/-- The conditional in the body of a loop. -/
def rehoused : Block :=
  ⟨[], [.composite 20 [] (.whileHead (.expression "d")) 30 [⟨.whileLoop, 20, 30⟩]
    [guardedCall.adopt [⟨.whileLoop, 20, 30⟩]]]⟩

theorem held_rehoused : Held .whole rehoused := by
  have listed : Held .whole (.ofTokens
      [(0, .jumpIfNot (.expression "c") 5), (3, .expression "f()"), (5, .expression "g()")]) :=
    ((Held.empty.push .never (.plain 0 none _)).push .never (.plain 3 none _)).push .never
      (.plain 5 none _)
  have structured : Held .whole ⟨[], [guardedCall, .plain 5 none [] (.expression "g()")]⟩ :=
    Held.structured (r := .done _) .never listed (Nat.lt_succ_self 3)
      (show structureInPlace? .never 4 4 _ = _ from rfl)
  have range : Held .cut ⟨[], [guardedCall]⟩ :=
    structured.cutRange (show cutRange? _ 0 1 = some (_, ⟨[], [.plain 5 none [] _]⟩) from rfl)
  exact Held.empty.push .never (.wrap .never 20 (.whileHead (.expression "d")) 30 range)

theorem consistent_of_held_rehoused : Held .whole rehoused ∧ rehoused.Consistent :=
  ⟨held_rehoused, consistent_of_held held_rehoused⟩

end FlowRecovery
