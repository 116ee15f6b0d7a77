import FlowRecovery.Listing
import FlowRecovery.Proofs.Convergence

/-!
# What breaks and continues leave

A `break` leaves the innermost loop or selection around it, and a `continue` goes on in the
innermost loop (`Escape.binder?`). This module says which composite statement the jump behind such
an escape leads out of: one around the escape that ends at the target of the jump
(`Statement.EscapesLead`), a loop at any distance or, for a `break`, the selection directly around it.
That need not be the innermost one. `escape_binds_iff` says that the escape means what the jump
means exactly if nothing that it would leave first lies between the two.

Where an escape stands is read off the tree (`Statement.Within`), not off the scopes that the
statements carry.
-/

namespace FlowRecovery

/-- `Within l path s`: the statement `s` is one of `l`, or inside one of them, and stands below the
composite statements `path`, innermost first. -/
inductive Statement.Within : List Statement → Scope → Statement → Prop where
  /-- One of the statements. -/
  | here {l : List Statement} {s : Statement} : s ∈ l → Within l [] s
  /-- Inside one of the statements. -/
  | inside {l children : List Statement} {start stop : Offset} {scope inner path : Scope}
      {head : Head} {s : Statement} :
      .composite start scope head stop inner children ∈ l → Within children path s →
      Within l (path ++ [⟨head.kind, start, stop⟩]) s

namespace Escape

/-- The composite statements that a `break` leaves and those that a `continue` goes on in. -/
def canLeave : Escape → BlockKind → Bool
  | leave, kind => kind.isLoop || kind == .switchBlock
  | advance, kind => kind.isLoop

/-- The composite statement that an escape below `path` leaves or goes on in. -/
def binder? (how : Escape) (path : Scope) : Option Frame := path.find? fun f => how.canLeave f.kind

/-- Control that leaves the composite statement `f`, or goes on in it, goes where a jump to `target`
goes. A `continue` stands for such a jump in iterations only. -/
def EndsAt (how : Escape) (target : Offset) (f : Frame) : Prop :=
  f.stop = target ∧ (how = .advance → f.kind = .foreachLoop)

instance (how : Escape) (target : Offset) (f : Frame) : Decidable (how.EndsAt target f) :=
  inferInstanceAs (Decidable (_ ∧ (_ → _)))

/-- An escape below `path` means what a jump to `target` means. -/
def Binds (how : Escape) (target : Offset) (path : Scope) : Prop :=
  ∃ f, how.binder? path = some f ∧ how.EndsAt target f

/-- A jump to `target` below `path` leads out of a loop, or out of the selection directly around it,
and `how` is the way it does. -/
def LeadsOut (how : Escape) (target : Offset) (path outer : Scope) : Prop :=
  (∃ f ∈ path ++ outer, f.kind.isLoop = true ∧ how.EndsAt target f) ∨
    (how = .leave ∧ ∃ f, path.head? = some f ∧ f.kind = .switchBlock ∧ f.stop = target)

theorem LeadsOut.exists_mem {how : Escape} {target : Offset} {path : Scope}
    (h : how.LeadsOut target path []) :
    ∃ f ∈ path, how.canLeave f.kind = true ∧ how.EndsAt target f := by
  rcases h with ⟨f, hf, hloop, hends⟩ | ⟨rfl, f, hf, hkind, hstop⟩
  · rw [List.append_nil] at hf
    exact ⟨f, hf, by cases how <;> simp [canLeave, hloop], hends⟩
  · exact ⟨f, List.mem_of_mem_head? hf, by simp [canLeave, hkind], hstop, nofun⟩

/-- An escape means what the jump means exactly if nothing that it would leave first is nearer than
the innermost composite statement that ends where the jump goes. -/
theorem binds_iff {how : Escape} {target : Offset} {nearer further : Scope} {frame : Frame}
    (leaves : how.canLeave frame.kind = true) (ends : how.EndsAt target frame)
    (first : ∀ f ∈ nearer, how.canLeave f.kind = true → ¬how.EndsAt target f) :
    how.Binds target (nearer ++ frame :: further) ↔ ∀ f ∈ nearer, how.canLeave f.kind = false := by
  rw [Binds, binder?, List.find?_append]
  cases hfind : nearer.find? fun f => how.canLeave f.kind with
  | none =>
    rw [List.find?_eq_none] at hfind
    simp only [Option.none_or, List.find?_cons, leaves, Option.some.injEq, exists_eq_left']
    exact ⟨fun _ f hf => by simpa using hfind f hf, fun _ => ends⟩
  | some g =>
    have hg := List.mem_of_find?_eq_some hfind
    have hleave := List.find?_some hfind
    simp only [Option.some_or, Option.some.injEq, exists_eq_left']
    constructor
    · exact fun hends => absurd hends (first g hg hleave)
    · intro h
      rw [h g hg] at hleave
      cases hleave

/-- More composite statements around an escape do not matter. -/
theorem LeadsOut.insert {how : Escape} {target : Offset} {path outer : Scope}
    (h : how.LeadsOut target path outer) (frame : Frame) :
    how.LeadsOut target path (frame :: outer) := by
  rcases h with ⟨f, hf, hloop⟩ | h
  · refine .inl ⟨f, ?_, hloop⟩
    rcases List.mem_append.1 hf with hf | hf
    · exact List.mem_append_left _ hf
    · exact List.mem_append_right _ (List.mem_cons_of_mem _ hf)
  · exact .inr h

theorem LeadsOut.under {how : Escape} {target : Offset} {path outer : Scope} {frame : Frame}
    (h : how.LeadsOut target path (frame :: outer)) :
    how.LeadsOut target (path ++ [frame]) outer := by
  rcases h with ⟨f, hf, hloop⟩ | ⟨hleave, f, hf, hswitch⟩
  · exact .inl ⟨f, by simpa using hf, hloop⟩
  · refine .inr ⟨hleave, f, ?_, hswitch⟩
    cases path with
    | nil => cases hf
    | cons g path => exact hf

end Escape

/-- Every escape in the statements comes from a jump that leads out of what is around it, where
`outer` is around all of them. -/
def Statement.EscapesLead (l : List Statement) (outer : Scope) : Prop :=
  ∀ (path : Scope) (start : Offset) (scope : Scope) (how : Escape) (token : Token),
    Within l path (.escape start scope how token) →
      ∃ target, token = .jump target ∧ how.LeadsOut target path outer

namespace Statement

theorem Within.mono {l m : List Statement} {path : Scope} {s : Statement} (h : Within l path s)
    (hlm : ∀ x ∈ l, x ∈ m) : Within m path s := by
  cases h with
  | here hm => exact .here (hlm _ hm)
  | inside hm h => exact .inside (hlm _ hm) h

theorem EscapesLead.mono {l m : List Statement} {outer : Scope} (h : EscapesLead m outer)
    (hlm : ∀ x ∈ l, x ∈ m) : EscapesLead l outer :=
  fun _ _ _ _ _ hw => h _ _ _ _ _ (hw.mono hlm)

/-- A list of statements can be looked at one by one. -/
theorem EscapesLead.of_forall {l : List Statement} {outer : Scope}
    (h : ∀ s ∈ l, EscapesLead [s] outer) : EscapesLead l outer := by
  intro path start scope how token hw
  cases hw with
  | here hm => exact h _ hm _ _ _ _ _ (.here (List.mem_singleton.2 rfl))
  | inside hm hw => exact h _ hm _ _ _ _ _ (.inside (List.mem_singleton.2 rfl) hw)

/-- An instruction or an escape. -/
def IsLeaf : Statement → Prop
  | composite .. => False
  | _ => True

theorem isLeaf_of_token? {s : Statement} {t : Token} (h : s.token? = some t) : s.IsLeaf := by
  cases s with
  | plain => trivial
  | escape | composite => cases h

/-- Adoption changes scopes only. -/
theorem Within.of_adoptAll {scope : Scope} {m : List Statement} {path : Scope} {s : Statement}
    (h : Within m path s) :
    ∀ {l : List Statement}, m = adoptAll scope l →
      ∃ s' outer, Within l path s' ∧ s = s'.adopt outer := by
  induction h generalizing scope with
  | here hm =>
    rintro l rfl
    rw [adoptAll_eq_map, List.mem_map] at hm
    obtain ⟨s', hs', rfl⟩ := hm
    exact ⟨s', scope, .here hs', rfl⟩
  | inside hm _ ih =>
    rintro l rfl
    rw [adoptAll_eq_map, List.mem_map] at hm
    obtain ⟨x, hx, heq⟩ := hm
    cases x with
    | plain | escape => simp [adopt] at heq
    | composite =>
      simp only [adopt, composite.injEq] at heq
      obtain ⟨rfl, -, rfl, rfl, -, hchildren⟩ := heq
      obtain ⟨s', outer, hw, rfl⟩ := ih hchildren.symm
      exact ⟨s', outer, .inside hx hw, rfl⟩

theorem EscapesLead.adoptAll {l : List Statement} {outer : Scope} (h : EscapesLead l outer)
    (scope : Scope) : EscapesLead (adoptAll scope l) outer := by
  intro path start scope' how token hw
  obtain ⟨s, outer', hw, heq⟩ := hw.of_adoptAll rfl
  cases s with
  | plain | composite => simp [adopt] at heq
  | escape =>
    simp only [adopt, escape.injEq] at heq
    obtain ⟨rfl, -, rfl, rfl⟩ := heq
    exact h _ _ _ _ _ hw

theorem EscapesLead.insert {l : List Statement} {outer : Scope} (h : EscapesLead l outer)
    (frame : Frame) : EscapesLead l (frame :: outer) := by
  intro path start scope how token hw
  obtain ⟨target, rfl, hlead⟩ := h _ _ _ _ _ hw
  exact ⟨target, rfl, hlead.insert frame⟩

/-! ### Tidying -/

theorem mem_removePops {l : List Statement} {s : Statement} (h : s ∈ removePops l) :
    ∃ s' ∈ l, s = s'.withoutPops := by
  induction l with
  | nil => cases h
  | cons x rest ih =>
    rw [removePops] at h
    split at h
    · obtain ⟨s', hs', heq⟩ := ih h
      exact ⟨s', List.mem_cons_of_mem _ hs', heq⟩
    · rcases List.mem_cons.1 h with heq | h
      · exact ⟨x, List.mem_cons_self .., heq⟩
      · obtain ⟨s', hs', heq⟩ := ih h
        exact ⟨s', List.mem_cons_of_mem _ hs', heq⟩

/-- Only instructions are removed. -/
theorem Within.of_removePops {m : List Statement} {path : Scope} {s : Statement} (leaf : s.IsLeaf)
    (h : Within m path s) : ∀ {l : List Statement}, m = removePops l → Within l path s := by
  induction h with
  | here hm =>
    rintro l rfl
    obtain ⟨s', hs', rfl⟩ := mem_removePops hm
    cases s' with
    | plain | escape => exact .here hs'
    | composite => exact leaf.elim
  | inside hm _ ih =>
    rintro l rfl
    obtain ⟨x, hx, heq⟩ := mem_removePops hm
    cases x with
    | plain | escape => simp [withoutPops] at heq
    | composite =>
      simp only [withoutPops, composite.injEq] at heq
      obtain ⟨rfl, rfl, rfl, rfl, rfl, hchildren⟩ := heq
      exact .inside hx (ih leaf hchildren)

theorem mem_breaksTo {stop : Offset} {scope : Scope} :
    ∀ {l : List Statement} {afterReturn : Bool} {s : Statement},
      s ∈ breaksTo stop scope afterReturn l →
        s ∈ l ∨ ∃ start, s = .escape start scope .leave (.jump stop)
  | [], _, _, h => by cases h
  | x :: rest, afterReturn, s, h => by
    rw [breaksTo] at h
    have later {afterReturn : Bool} (h : s ∈ breaksTo stop scope afterReturn rest) :
        s ∈ x :: rest ∨ ∃ start, s = .escape start scope .leave (.jump stop) :=
      (mem_breaksTo h).imp_left (List.mem_cons_of_mem _)
    split at h
    · split at h
      · exact later h
      · rcases List.mem_cons.1 h with heq | h
        · exact .inr ⟨_, heq⟩
        · exact later h
    · rcases List.mem_cons.1 h with heq | h
      · exact .inl (heq ▸ List.mem_cons_self ..)
      · exact later h

end Statement

namespace Block

open Statement

theorem mem_trimLast {p : Token → Bool} {b : Block} {s : Statement}
    (h : s ∈ (b.trimLast p).statements) : s ∈ b.statements := by
  unfold trimLast at h
  split at h
  · exact List.dropLast_subset _ h
  · exact h

/-- An instruction or escape among tidied children was there before, or is a new break out of a
selection. -/
theorem within_tidy {b : Block} {head : Head} {start stop : Offset} {path : Scope} {s : Statement}
    (leaf : s.IsLeaf) (h : Within (b.tidy head start stop).statements path s) :
    Within b.statements path s ∨
      (path = [] ∧ head.kind = .switchBlock ∧ ∃ from', s = .escape from' b.scope .leave (.jump stop)) := by
  cases head with
  | ifHead | elseHead => exact .inl h
  | whileHead => exact .inl (h.mono fun _ => mem_trimLast)
  | foreachHead =>
    refine .inl ((h.of_removePops leaf rfl).mono fun _ hx => ?_)
    exact mem_trimLast (mem_trimLast hx)
  | switchHead =>
    have h := h.mono fun _ => mem_trimLast
    cases h with
    | here hm =>
      rcases mem_breaksTo hm with hm | ⟨from', heq⟩
      · exact .inl (.here hm)
      · exact .inr ⟨rfl, rfl, from', heq⟩
    | inside hm hw =>
      rcases mem_breaksTo hm with hm | ⟨_, heq⟩
      · exact .inl (.inside hm hw)
      · cases heq

/-- A composite statement whose tidied children have escapes that lead out. -/
theorem escapesLead_composite {c : Block} {head : Head} {start stop : Offset} {scope outer inner : Scope}
    (h : EscapesLead c.statements (⟨head.kind, start, stop⟩ :: outer)) :
    EscapesLead [.composite start scope head stop inner (c.tidy head start stop).statements] outer := by
  intro path from' scope' how token hw
  cases hw with
  | here hm => cases List.mem_singleton.1 hm
  | inside hm hw =>
    cases List.mem_singleton.1 hm
    have leaf : (Statement.escape from' scope' how token).IsLeaf := trivial
    rcases within_tidy leaf hw with hw | ⟨rfl, hkind, _, heq⟩
    · obtain ⟨target, rfl, hlead⟩ := h _ _ _ _ _ hw
      exact ⟨target, rfl, hlead.under⟩
    · cases heq
      exact ⟨stop, rfl, .inr ⟨rfl, _, rfl, hkind, rfl⟩⟩

/-! ### A pass -/

/-- A rewrite wraps runs of statements from behind the first place that it replaces. -/
theorem RewriteAt.slice_of_wrap {b : Block} {i : Nat} {r : Rewrite} (h : RewriteAt b i r)
    {start stop : Offset} {head : Head} {scope inner : Scope} {children : List Statement}
    (hs : .composite start scope head stop inner children ∈ adoptAll b.scope r.made) :
    inner = ⟨head.kind, start, stop⟩ :: b.scope ∧
      ∃ j k, r.first < j ∧ children = adoptAll inner (b.slice j k) := by
  cases h with
  | conditional | loop | iteration | selection =>
    simp only [adoptAll, adopt_wrap, List.mem_singleton, composite.injEq] at hs
    obtain ⟨rfl, rfl, rfl, rfl, rfl, rfl⟩ := hs
    exact ⟨rfl, _, _, Nat.lt_succ_self i, rfl⟩
  | alternative _ _ forward =>
    simp only [adoptAll, adopt_wrap, List.mem_cons, List.not_mem_nil, or_false, composite.injEq] at hs
    rcases hs with ⟨rfl, rfl, rfl, rfl, rfl, rfl⟩ | ⟨rfl, rfl, rfl, rfl, rfl, rfl⟩
    · exact ⟨rfl, _, _, Nat.lt_succ_self i, rfl⟩
    · exact ⟨rfl, _, _, forward, rfl⟩
  | leave | advance => simp [adoptAll, adopt] at hs

/-- What a rewrite wraps stood in the block. -/
theorem RewriteAt.mem_of_wrap {b : Block} {i : Nat} {r : Rewrite} (h : RewriteAt b i r)
    {start stop : Offset} {head : Head} {scope inner : Scope} {children : List Statement}
    (hs : .composite start scope head stop inner children ∈ adoptAll b.scope r.made) :
    inner = ⟨head.kind, start, stop⟩ :: b.scope ∧
      ∃ l, l.length < b.length ∧ (∀ s ∈ l, s ∈ b.statements) ∧ children = adoptAll inner l := by
  obtain ⟨rfl, j, k, hj, rfl⟩ := h.slice_of_wrap hs
  have hb := Nat.zero_lt_of_lt h.lt_length
  exact ⟨rfl, _, length_slice_lt (Nat.zero_lt_of_lt hj) hb k, fun _ => mem_of_mem_slice, rfl⟩

theorem of_loopExit? {scope : Scope} {target : Offset} {frame : Frame}
    (h : scope.loopExit? target = some frame) :
    frame ∈ scope ∧ frame.kind.isLoop = true ∧ frame.stop = target := by
  have hp := List.find?_some h
  simp only [Bool.and_eq_true, beq_iff_eq] at hp
  exact ⟨List.mem_of_find?_eq_some h, hp⟩

/-- The escapes that a rewrite makes. -/
theorem RewriteAt.escapesLead {b : Block} {i : Nat} {r : Rewrite} (h : RewriteAt b i r)
    {start : Offset} {scope : Scope} {how : Escape} {token : Token}
    (hs : .escape start scope how token ∈ adoptAll b.scope r.made) :
    EscapesLead [.escape start scope how token] b.scope := by
  have lead : ∃ target, token = .jump target ∧ how.LeadsOut target [] b.scope := by
    cases h with
    | conditional | loop | alternative | iteration | selection =>
      simp [adoptAll, adopt_wrap] at hs
    | leave token exit =>
      simp only [adoptAll, adopt, List.mem_singleton, escape.injEq] at hs
      obtain ⟨-, -, rfl, rfl⟩ := hs
      obtain ⟨hmem, hloop, hstop⟩ := of_loopExit? exit
      exact ⟨_, rfl, .inl ⟨_, hmem, hloop, hstop, nofun⟩⟩
    | advance token exit kind =>
      simp only [adoptAll, adopt, List.mem_singleton, escape.injEq] at hs
      obtain ⟨-, -, rfl, rfl⟩ := hs
      obtain ⟨hmem, hloop, hstop⟩ := of_loopExit? exit
      exact ⟨_, rfl, .inl ⟨_, hmem, hloop, hstop, fun _ => kind⟩⟩
  intro path start' scope' how' token' hw
  cases hw with
  | here hm => cases List.mem_singleton.1 hm; exact lead
  | inside hm => cases List.mem_singleton.1 hm

/-- A pass keeps it that escapes lead out of what is around them. -/
theorem RewriteAt.escapesLead_rewritten {b : Block} {i : Nat} {r : Rewrite} (h : RewriteAt b i r)
    (inner : ∀ c : Block, c.length < b.length →
      EscapesLead c.statements c.scope → EscapesLead c.recovered.statements c.scope)
    (hb : EscapesLead b.statements b.scope) : EscapesLead (b.rewritten r).statements b.scope := by
  refine EscapesLead.of_forall fun s hs => ?_
  simp only [rewritten, List.mem_append, List.mem_map] at hs
  rcases hs with (hs | ⟨m, hm, rfl⟩) | hs
  · exact hb.mono fun x hx => List.mem_singleton.1 hx ▸ List.mem_of_mem_take hs
  · cases m with
    | plain start stop? scope token =>
      intro path start' scope' how token' hw
      cases hw with
      | here hm | inside hm => cases List.mem_singleton.1 hm
    | escape => exact h.escapesLead hm
    | composite start scope head stop frames children =>
      obtain ⟨rfl, l, hlen, hl, rfl⟩ := h.mem_of_wrap hm
      have kids := inner ⟨⟨head.kind, start, stop⟩ :: b.scope,
        adoptAll (⟨head.kind, start, stop⟩ :: b.scope) l⟩ (by simpa [length] using hlen)
      exact escapesLead_composite (kids (((hb.mono hl).insert _).adoptAll _))
  · exact hb.mono fun x hx => List.mem_singleton.1 hx ▸ List.mem_of_mem_drop hs

/-- Structuring keeps it that escapes lead out of what is around them. -/
theorem escapesLead_recovered (b : Block) (hb : EscapesLead b.statements b.scope) :
    EscapesLead b.recovered.statements b.scope := by
  refine recovered_induction
    (P := fun b c => EscapesLead b.statements b.scope → EscapesLead c.statements b.scope)
    (fun _ _ h => h) (fun b r hr inner ih hb => ?_) b hb
  obtain ⟨i, hi⟩ := rewriteAt_of_firstRewrite? hr
  exact ih (hi.escapesLead_rewritten inner hb)

end Block

namespace Listing

open Statement

theorem escapesLead_block (l : Listing) : EscapesLead l.block.statements [] := by
  intro path start scope how token hw
  cases hw with
  | here hm | inside hm =>
    obtain ⟨e, -, heq⟩ := List.mem_map.1 hm
    cases heq

/-- **What an escape leaves.** Some loop or selection around it ends where its jump goes, and the
escape means what the jump means exactly if it would leave nothing nearer than the innermost one
first. -/
theorem escape_binds_iff (l : Listing) {path scope : Scope} {start : Offset} {how : Escape}
    {token : Token}
    (h : Within l.block.structured.value.statements path (.escape start scope how token)) :
    ∃ target nearer frame further, token = .jump target ∧ path = nearer ++ frame :: further ∧
      how.canLeave frame.kind = true ∧ how.EndsAt target frame ∧
      (∀ f ∈ nearer, how.canLeave f.kind = true → ¬how.EndsAt target f) ∧
        (how.Binds target path ↔ ∀ f ∈ nearer, how.canLeave f.kind = false) := by
  obtain ⟨target, rfl, lead⟩ := Block.escapesLead_recovered l.block l.escapesLead_block _ _ _ _ _ h
  obtain ⟨g, hg, hleave, hends⟩ := lead.exists_mem
  obtain ⟨frame, hfind⟩ := Option.isSome_iff_exists.1
    (List.find?_isSome (p := fun f => decide (how.canLeave f.kind = true ∧ how.EndsAt target f)).2
      ⟨g, hg, by simp [hleave, hends]⟩)
  obtain ⟨hframe, nearer, further, rfl, hnearer⟩ := List.find?_eq_some_iff_append.1 hfind
  obtain ⟨leaves, ends⟩ := of_decide_eq_true hframe
  have first : ∀ f ∈ nearer, how.canLeave f.kind = true → ¬how.EndsAt target f :=
    fun f hf hl he => absurd (hnearer f hf) (by simp [hl, he])
  exact ⟨target, nearer, frame, further, rfl, rfl, leaves, ends, first,
    Escape.binds_iff leaves ends first⟩

/-- An iteration within an iteration, with a jump out of both. -/
def doubleExit : Listing :=
  [⟨0, none, .foreach (.expression "Outer(A)") 30⟩, ⟨5, none, .foreach (.expression "Inner(B)") 20⟩,
    ⟨10, none, .jump 30⟩, ⟨19, none, .iteratorNext⟩, ⟨20, none, .iteratorPop⟩,
    ⟨21, none, .expression "Tick()"⟩, ⟨29, none, .iteratorNext⟩, ⟨30, none, .iteratorPop⟩,
    ⟨31, none, .expression "Done()"⟩]

/-- The frames of the two iterations. -/
def doubleExitPath : Scope := [⟨.foreachLoop, 5, 20⟩, ⟨.foreachLoop, 0, 30⟩]

theorem within_doubleExit :
    Within doubleExit.block.structured.value.statements doubleExitPath
      (.escape 10 doubleExitPath .leave (.jump 30)) := by
  have tree : doubleExit.block.structured.value.statements =
      [.composite 0 [] (.foreachHead (.expression "Outer(A)") none) 30 [⟨.foreachLoop, 0, 30⟩]
        [.composite 5 [⟨.foreachLoop, 0, 30⟩] (.foreachHead (.expression "Inner(B)") none) 20
          doubleExitPath [.escape 10 doubleExitPath .leave (.jump 30)],
         .plain 21 none [⟨.foreachLoop, 0, 30⟩] (.expression "Tick()")],
       .plain 31 none [] (.expression "Done()")] := rfl
  rw [tree]
  exact .inside (List.mem_cons_self ..) (.inside (List.mem_cons_self ..)
    (.here (List.mem_singleton.2 rfl)))

theorem doubleExit_binds_iff :
    Within doubleExit.block.structured.value.statements doubleExitPath
        (.escape 10 doubleExitPath .leave (.jump 30)) ∧
      ∃ target nearer frame further, Token.jump 30 = .jump target ∧
        doubleExitPath = nearer ++ frame :: further ∧
        Escape.leave.canLeave frame.kind = true ∧ Escape.leave.EndsAt target frame ∧
        (∀ f ∈ nearer, Escape.leave.canLeave f.kind = true → ¬Escape.leave.EndsAt target f) ∧
          (Escape.leave.Binds target doubleExitPath ↔
            ∀ f ∈ nearer, Escape.leave.canLeave f.kind = false) :=
  ⟨within_doubleExit, escape_binds_iff doubleExit within_doubleExit⟩

/-- The jump out of both iterations becomes a break out of the inner one. -/
theorem doubleExit_not_binds :
    (doubleExit.map Entry.offset).Pairwise (· < ·) ∧
      Within doubleExit.block.structured.value.statements doubleExitPath
        (.escape 10 doubleExitPath .leave (.jump 30)) ∧
      ¬ Escape.leave.Binds 30 doubleExitPath := by
  refine ⟨by decide, within_doubleExit, ?_⟩
  rintro ⟨f, hf, hends⟩
  cases hf
  exact absurd hends.1 (by decide)

end Listing

end FlowRecovery
