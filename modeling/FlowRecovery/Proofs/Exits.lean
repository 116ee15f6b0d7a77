import FlowRecovery.Proofs.Frontier

/-!
# Jumps that are left

A jump out of a loop becomes a `break` or a `continue`, however many conditionals lie between. It does so
when the list that it stands in is structured, and only if the loop is known to be around the list by
then: what a composite statement holds is not looked at again.

The loops are known early enough (`Listing.exits_structured`). The statements of a loop are folded from
instructions that no pass has changed yet, so every jump among them is looked at under the loop. Only a
selection takes in composite statements (`Frontier.child`), and no jump leads out of it from inside these.
-/

namespace FlowRecovery

open Statement

/-- No jump in the statements leads out of a loop, or out of the selection directly around it, where
`outer` is around all of them. -/
def Statement.Enclosed (l : List Statement) (outer : Scope) : Prop :=
  ∀ (path : Scope) (s : Statement) (target : Offset), Within l path s → s.jumpTarget? = some target →
    ¬Escape.leave.LeadsOut target path outer

namespace Escape

/-- What a composite statement around all statements adds. -/
theorem LeadsOut.of_under {how : Escape} {target : Offset} {path outer : Scope} {frame : Frame}
    (h : how.LeadsOut target (path ++ [frame]) outer) :
    how.LeadsOut target path (frame :: outer) ∨
      path = [] ∧ frame.kind = .switchBlock ∧ frame.stop = target := by
  rcases h with ⟨f, hf, hloop⟩ | ⟨hleave, f, hf, hkind, hstop⟩
  · exact .inl (.inl ⟨f, by simpa using hf, hloop⟩)
  · cases path with
    | nil =>
      cases hf
      exact .inr ⟨rfl, hkind, hstop⟩
    | cons g path => exact .inl (.inr ⟨hleave, f, hf, hkind, hstop⟩)

/-- A composite statement around everything that is no loop does not matter. -/
theorem LeadsOut.of_insert {how : Escape} {target : Offset} {path outer : Scope} {frame : Frame}
    (h : how.LeadsOut target path (frame :: outer)) (kind : frame.kind.isLoop = false) :
    how.LeadsOut target path outer := by
  rcases h with ⟨f, hf, hloop, hends⟩ | h
  · refine .inl ⟨f, ?_, hloop, hends⟩
    rcases List.mem_append.1 hf with hf | hf
    · exact List.mem_append_left _ hf
    · rcases List.mem_cons.1 hf with rfl | hf
      · rw [kind] at hloop
        cases hloop
      · exact List.mem_append_right _ hf
  · exact .inr h

/-- A jump that is looked at leads out exactly if it leads out of a loop. -/
theorem leadsOut_nil_iff {target : Offset} {outer : Scope} :
    leave.LeadsOut target [] outer ↔ (outer.loopExit? target).isSome = true := by
  simp [LeadsOut, EndsAt, Scope.loopExit?]

end Escape

namespace Statement

variable {l : List Statement} {outer : Scope}

theorem Within.mem {s : Statement} (h : Within l [] s) : s ∈ l := by
  generalize hpath : ([] : Scope) = path at h
  cases h with
  | here hm => exact hm
  | inside => simp at hpath

/-- Adoption below something that is no loop does not matter. -/
theorem Enclosed.adoptAll (h : Enclosed l outer) {frame : Frame} (kind : frame.kind.isLoop = false)
    (scope : Scope) : Enclosed (adoptAll scope l) (frame :: outer) := by
  intro path s target hw hjump hlead
  obtain ⟨s', outer', hw', rfl⟩ := hw.of_adoptAll rfl
  rw [jumpTarget?, token?_adopt] at hjump
  exact h path s' target hw' hjump (hlead.of_insert kind)

/-- No jump to the end of a selection is left directly in it. -/
theorem jumpTarget?_of_mem_breaksTo {stop : Offset} {scope : Scope} {s : Statement} {afterReturn : Bool}
    (h : s ∈ breaksTo stop scope afterReturn l) : s.jumpTarget? ≠ some stop := by
  induction l generalizing afterReturn with
  | nil => cases h
  | cons x rest ih =>
    rw [breaksTo] at h
    split at h
    · split at h
      · exact ih h
      · rcases List.mem_cons.1 h with rfl | h
        · intro heq
          cases heq
        · exact ih h
    · next hx =>
      rcases List.mem_cons.1 h with rfl | h
      · simpa using hx
      · exact ih h

end Statement

namespace Block

/-- No jump inside a composite statement of the block leads out. -/
def Deep (b : Block) : Prop := ∀ s ∈ b.statements, s.token? = none → Enclosed [s] b.scope

/-- In a block without a rewrite no jump leads out either. -/
theorem Deep.enclosed {b : Block} (h : b.Deep) (fixed : b.firstRewrite? = none) :
    Enclosed b.statements b.scope := by
  intro path s target hw hjump hlead
  cases hw with
  | here hm =>
    obtain ⟨i, hi⟩ := List.getElem?_of_mem hm
    obtain ⟨t, htoken, ht⟩ := Option.bind_eq_some_iff.1 hjump
    rw [Token.jumpTarget?_eq_some_iff.1 ht] at htoken
    have hnone := rewriteAt?_eq_none fixed i
    simp only [rewriteAt?, hi, htoken, escapeRewrite?, Option.map_eq_none_iff] at hnone
    rw [Escape.leadsOut_nil_iff, hnone] at hlead
    cases hlead
  | inside hm hw =>
    exact h _ hm rfl _ s target (.inside (List.mem_singleton.2 rfl) hw) hjump hlead

/-- A composite statement with tidied children that no jump leads out of. -/
theorem enclosed_composite {c : Block} {head : Head} {start stop : Offset} {scope outer inner : Scope}
    (h : Enclosed c.statements (⟨head.kind, start, stop⟩ :: outer)) :
    Enclosed [.composite start scope head stop inner (c.tidy head start stop).statements] outer := by
  intro path s target hw hjump hlead
  obtain ⟨t, htoken, ht⟩ := Option.bind_eq_some_iff.1 hjump
  cases hw with
  | here hm =>
    cases List.mem_singleton.1 hm
    cases htoken
  | inside hm hw =>
    cases List.mem_singleton.1 hm
    rcases hlead.of_under with hlead | ⟨rfl, hkind, hstop⟩
    · rcases within_tidy (isLeaf_of_token? htoken) hw with hw | ⟨-, -, from', rfl⟩
      · exact h _ s target hw hjump hlead
      · cases htoken
    · cases head with
      | switchHead =>
        cases hstop
        exact jumpTarget?_of_mem_breaksTo (mem_trimLast hw.mem) hjump
      | _ => cases hkind

variable {l : Listing} {b : Block} {r : Rewrite} {i : Nat} {done : List Statement} {rest : Listing}

/-- What a pass makes is folded from instructions, or by a selection. -/
theorem Frontier.deep_child (h : Frontier l b done rest) (deep : b.Deep) (hi : RewriteAt b i r)
    {start stop : Offset} {scope inner : Scope} {head : Head} {m : List Statement}
    (hm : .composite start scope head stop inner m ∈ adoptAll b.scope r.made) :
    (∃ done rest, Frontier l ⟨inner, m⟩ done rest) ∧ Deep ⟨inner, m⟩ := by
  obtain ⟨kept, run, front, taken⟩ := h.child hi hm
  refine ⟨⟨_, run, front⟩, fun s hs htoken => ?_⟩
  rw [front.statements, List.mem_append] at hs
  rcases hs with hs | hs
  · rw [adoptAll_eq_map, List.mem_map] at hs
    obtain ⟨x, hx, rfl⟩ := hs
    rcases taken with rfl | ⟨ahead, head', hdone, -, kind⟩
    · cases hx
    obtain ⟨rfl, -⟩ := hi.slice_of_wrap hm
    rw [token?_adopt] at htoken
    have hmem : x ∈ b.statements := by
      rw [h.statements, hdone]
      simp [hx]
    have noLoop : (Frame.mk head.kind start stop).kind.isLoop = false := by
      rw [kind]
      rfl
    exact (deep x hmem htoken).adoptAll noLoop _
  · obtain ⟨e, -, rfl⟩ := List.mem_map.1 hs
    cases htoken

/-- A pass leaves no jump that leads out of what it makes. -/
theorem Frontier.deep_rewritten (h : Frontier l b done rest) (deep : b.Deep) (hr : b.firstRewrite? = some r)
    (shorter : ∀ c : Block, c.length < b.length → (∃ done rest, Frontier l c done rest) → c.Deep →
      c.recovered.Deep) : (b.rewritten r).Deep := by
  obtain ⟨i, hi⟩ := rewriteAt_of_firstRewrite? hr
  intro s hs htoken
  simp only [Block.rewritten, List.mem_append] at hs
  rcases hs with (hs | hs) | hs
  · exact deep s (List.mem_of_mem_take hs) htoken
  · obtain ⟨m, hm, rfl⟩ := List.mem_map.1 hs
    cases m with
    | plain => cases htoken
    | escape =>
      intro path s target hw hjump
      cases hw with
      | here hs => cases List.mem_singleton.1 hs; cases hjump
      | inside hs => cases List.mem_singleton.1 hs
    | composite start scope head stop inner children =>
      obtain ⟨front, hdeep⟩ := h.deep_child deep hi hm
      obtain ⟨rfl, _, hlen, -, rfl⟩ := hi.mem_of_wrap hm
      have recovered := shorter _ (by simpa [length] using hlen) front hdeep
      have enclosed := recovered.enclosed (firstRewrite?_recovered _)
      rw [scope_recovered] at enclosed
      exact enclosed_composite enclosed
  · exact deep s (List.mem_of_mem_drop hs) htoken

end Block

namespace Listing

/-- No jump that structuring leaves leads out of what is around it. -/
theorem enclosed_recovered {l : Listing} (sorted : fault? l = none) (addr : l.Addressed) :
    Enclosed l.block.recovered.statements [] := by
  have deep : l.block.recovered.Deep := by
    refine Block.recovered_induction
      (P := fun b c => (∃ done rest, Block.Frontier l b done rest) → b.Deep → c.Deep)
      (fun _ _ _ => id) (fun b r hr shorter ih => ?_) l.block ⟨[], l, .start sorted⟩ ?_
    · rintro ⟨done, rest, h⟩ deep
      exact ih ⟨_, _, h.rewritten sorted addr hr⟩ (h.deep_rewritten deep hr shorter)
    · intro s hs htoken
      obtain ⟨e, -, rfl⟩ := List.mem_map.1 hs
      cases htoken
  have enclosed := deep.enclosed (Block.firstRewrite?_recovered _)
  rwa [Block.scope_recovered] at enclosed

/-- **No exit of a loop is left as a jump.** A jump that is left anywhere in a structured body goes to the
end of no loop around it, at any distance, and not to the end of a selection that it stands in directly. -/
theorem exits_structured {l : Listing} (sorted : fault? l = none) (addr : l.Addressed) {path : Scope}
    {s : Statement} {target : Offset} (within : Within l.block.structured.value.statements path s)
    (jump : s.jumpTarget? = some target) :
    (∀ frame ∈ path, frame.kind.isLoop = true → frame.stop ≠ target) ∧
      ∀ frame ∈ path.head?, frame.kind = .switchBlock → frame.stop ≠ target := by
  have enclosed := enclosed_recovered sorted addr path s target within jump
  constructor
  · intro frame hframe hloop hstop
    exact enclosed (.inl ⟨frame, List.mem_append_left _ hframe, hloop, hstop, nofun⟩)
  · intro frame hframe hkind hstop
    exact enclosed (.inr ⟨rfl, frame, hframe, hkind, hstop⟩)

/-- A selection in a conditional loop, with a jump back to the head of the loop in its first clause. -/
def startsOver : Listing :=
  [⟨0, none, .jumpIfNot (.expression "c") 50⟩, ⟨5, none, .switch (.expression "d")⟩,
    ⟨10, none, .caseLabel "1"⟩, ⟨12, none, .jump 0⟩, ⟨14, none, .jump 30⟩, ⟨20, none, .caseLabel "2"⟩,
    ⟨22, none, .expression "A()"⟩, ⟨30, none, .jump 0⟩, ⟨50, none, .expression "B()"⟩]

/-- The frames of the selection and of the loop. -/
def startsOverPath : Scope := [⟨.switchBlock, 5, 30⟩, ⟨.whileLoop, 0, 50⟩]

theorem exits_structured_startsOver :
    fault? startsOver = none ∧ startsOver.Addressed ∧
      Within startsOver.block.structured.value.statements startsOverPath
        (.plain 12 none startsOverPath (.jump 0)) ∧
      (∀ frame ∈ startsOverPath, frame.kind.isLoop = true → frame.stop ≠ 0) ∧
        ∀ frame ∈ startsOverPath.head?, frame.kind = .switchBlock → frame.stop ≠ 0 := by
  have sorted : fault? startsOver = none := by decide
  have addr : startsOver.Addressed := by decide
  have tree : startsOver.block.structured.value.statements =
      [.composite 0 [] (.whileHead (.expression "c")) 50 [⟨.whileLoop, 0, 50⟩]
        [.composite 5 [⟨.whileLoop, 0, 50⟩] (.switchHead (.expression "d")) 30 startsOverPath
          [.plain 10 none startsOverPath (.caseLabel "1"), .plain 12 none startsOverPath (.jump 0),
           .escape 14 startsOverPath .leave (.jump 30), .plain 20 none startsOverPath (.caseLabel "2"),
           .plain 22 none startsOverPath (.expression "A()")]],
       .plain 50 none [] (.expression "B()")] := rfl
  have within : Within startsOver.block.structured.value.statements startsOverPath
      (.plain 12 none startsOverPath (.jump 0)) := by
    rw [tree]
    exact .inside (List.mem_cons_self ..) (.inside (List.mem_cons_self ..)
      (.here (List.mem_cons_of_mem _ (List.mem_cons_self ..))))
  exact ⟨sorted, addr, within, exits_structured sorted addr within rfl⟩

end Listing

end FlowRecovery
