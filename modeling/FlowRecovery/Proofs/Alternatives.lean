import FlowRecovery.Proofs.Frontier
import FlowRecovery.Proofs.Leftovers
import Mathlib.Data.List.Chain

/-!
# The two branches of a conditional

A second branch is a statement of its own behind the first branch, and starts where its first statement
starts. Nothing but its place says which conditional it belongs to. So a rewrite that ends between the
two branches, or takes in one of them only, would make it the second branch of something else, or of nothing.

That does not happen (`Listing.paired_structured`): in every list of a structured body, a second branch
stands directly behind the first branch that was made with it, from a jump that stands in the code in
front of its first instruction (`Branches`). Both branches are made from instructions that passes have not
yet changed, and from then on they are dealt with, so no rewrite begins or ends between them
(`Block.Frontier`).
-/

namespace FlowRecovery

/-- The frame of a composite statement. -/
def Statement.frame? : Statement → Option Frame
  | .composite start _ head stop _ _ => some ⟨head.kind, start, stop⟩
  | _ => none

/-- The frames are those of the two branches of a conditional: the first branch ends with a jump in the
code to the end of the second, which starts with the instruction directly behind the jump. -/
def Branches (l : Listing) (f g : Frame) : Prop :=
  f.kind = .ifBlock ∧ g.kind = .elseBlock ∧ ∃ before jump first after,
    l = before ++ jump :: first :: after ∧ jump.offset = f.stop ∧ jump.token = .jump g.stop ∧
      first.offset = g.start

/-- Each second branch in a list stands directly behind its first branch. -/
def Paired (l : Listing) (m : List Statement) : Prop :=
  ∀ front s behind, m = front ++ s :: behind → ∀ g ∈ s.frame?, g.kind = .elseBlock →
    ∃ x ∈ front.getLast?, ∃ f ∈ x.frame?, Branches l f g

/-- A statement with the frame `g`, if that is a second branch, has its first branch directly before it,
where there is something with the frame `f`. -/
def Follows (l : Listing) (f? g? : Option Frame) : Prop :=
  ∀ g ∈ g?, g.kind = .elseBlock → ∃ f ∈ f?, Branches l f g

open Statement

variable {l : Listing} {m n : List Statement} {s : Statement}

/-- `none` stands for what is before the list. -/
theorem paired_iff : Paired l m ↔ (none :: m.map frame?).IsChain (Follows l) := by
  rw [List.isChain_iff_forall_rel_of_append_cons_cons]
  constructor
  · intro h f? g? before after heq g hg hkind
    cases before with
    | nil =>
      obtain ⟨-, hm⟩ := List.cons.inj heq
      obtain ⟨s, behind, rfl, rfl, -⟩ := List.map_eq_cons_iff.1 hm
      obtain ⟨x, hx, -⟩ := h [] s behind rfl g hg hkind
      cases hx
    | cons _ before =>
      obtain ⟨-, hm⟩ := List.cons.inj heq
      obtain ⟨front, rest, rfl, -, hrest⟩ := List.map_eq_append_iff.1 hm
      obtain ⟨x, rest, rfl, rfl, hbehind⟩ := List.map_eq_cons_iff.1 hrest
      obtain ⟨s, behind, rfl, rfl, -⟩ := List.map_eq_cons_iff.1 hbehind
      obtain ⟨y, hy, hf⟩ := h (front ++ [x]) s behind (by simp) g hg hkind
      rw [List.getLast?_concat] at hy
      cases hy
      exact hf
  · rintro h front s behind rfl g hg hkind
    rcases List.eq_nil_or_concat front with rfl | ⟨front, x, rfl⟩
    · have here : none :: ([] ++ s :: behind).map frame? =
          [] ++ none :: s.frame? :: behind.map frame? := rfl
      obtain ⟨f, hf, -⟩ := h here g hg hkind
      cases hf
    · rw [List.concat_eq_append] at h ⊢
      have here : none :: (front ++ [x] ++ s :: behind).map frame? =
          (none :: front.map frame?) ++ x.frame? :: s.frame? :: behind.map frame? := by simp
      rw [List.getLast?_concat]
      exact ⟨x, rfl, h here g hg hkind⟩

theorem Follows.of_none {f? g? : Option Frame} (h : Follows l none g?) : Follows l f? g? := by
  intro g hg hkind
  obtain ⟨f, hf, -⟩ := h g hg hkind
  cases hf

theorem frame?_of_token? {t : Token} (h : s.token? = some t) : s.frame? = none := by
  cases s with
  | plain => rfl
  | escape | composite => cases h

/-! ### Lists without second branches, and lists put together -/

theorem paired_of_forall (h : ∀ s ∈ m, ∀ g ∈ s.frame?, g.kind ≠ .elseBlock) : Paired l m := by
  rintro front s behind rfl g hg hkind
  exact absurd hkind (h s (by simp) g hg)

theorem Paired.front (h : Paired l m) (hn : n <+: m) : Paired l n := by
  obtain ⟨behind, rfl⟩ := hn
  rintro front s rest rfl
  exact h front s (rest ++ behind) (by simp)

theorem Paired.append (hm : Paired l m) (hn : Paired l n) : Paired l (m ++ n) := by
  intro front s behind heq g hg hkind
  rcases of_append_cons_eq heq.symm with ⟨old, rfl, -⟩ | ⟨between, rfl, rfl⟩
  · exact hm front s old rfl g hg hkind
  · obtain ⟨x, hx, hf⟩ := hn between s behind rfl g hg hkind
    exact ⟨x, by rw [List.getLast?_append, hx]; rfl, hf⟩

/-- What is behind an instruction. -/
theorem Paired.behind {front : List Statement} {t : Token} (h : Paired l (front ++ s :: n))
    (ht : s.token? = some t) : Paired l n := by
  rw [paired_iff, List.map_append, List.map_cons, frame?_of_token? ht, ← List.cons_append] at h
  exact paired_iff.2 h.right_of_append

/-! ### Adoption and tidying -/

theorem map_frame?_adoptAll (scope : Scope) : (adoptAll scope m).map frame? = m.map frame? := by
  rw [adoptAll_eq_map, List.map_map]
  refine List.map_congr_left fun s _ => ?_
  cases s <;> simp [adopt, frame?]

theorem frame?_withoutPops (s : Statement) : s.withoutPops.frame? = s.frame? := by
  cases s <;> rfl

/-- An instruction may be left out. -/
theorem isChain_of_none {f? : Option Frame} {fs : List (Option Frame)}
    (h : (f? :: none :: fs).IsChain (Follows l)) : (f? :: fs).IsChain (Follows l) := by
  obtain ⟨-, h⟩ := List.isChain_cons_cons.1 h
  obtain ⟨head, tail⟩ := List.isChain_cons.1 h
  exact List.isChain_cons.2 ⟨fun g? hg => (head g? hg).of_none, tail⟩

theorem isChain_removePops {f? : Option Frame} (h : (f? :: m.map frame?).IsChain (Follows l)) :
    (f? :: (removePops m).map frame?).IsChain (Follows l) := by
  induction m generalizing f? with
  | nil => exact h
  | cons s m ih =>
    rw [removePops]
    split
    · next hpop =>
      obtain ⟨t, ht, -⟩ := isPlain_iff.1 (Bool.and_eq_true_iff.1 hpop).1
      rw [List.map_cons, frame?_of_token? ht] at h
      exact ih (isChain_of_none h)
    · obtain ⟨hs, hm⟩ := List.isChain_cons_cons.1 h
      rw [List.map_cons, frame?_withoutPops]
      exact List.isChain_cons_cons.2 ⟨hs, ih hm⟩

theorem isChain_breaksTo {f? : Option Frame} (stop : Offset) (scope : Scope) (afterReturn : Bool)
    (h : (f? :: m.map frame?).IsChain (Follows l)) :
    (f? :: (breaksTo stop scope afterReturn m).map frame?).IsChain (Follows l) := by
  induction m generalizing f? afterReturn with
  | nil => exact h
  | cons s m ih =>
    rw [breaksTo]
    split
    · next hjump =>
      obtain ⟨t, ht, -⟩ := Option.bind_eq_some_iff.1 (eq_of_beq hjump)
      rw [List.map_cons, frame?_of_token? ht] at h
      split
      · exact ih true (isChain_of_none h)
      · obtain ⟨hs, hm⟩ := List.isChain_cons_cons.1 h
        refine List.isChain_cons_cons.2 ⟨fun g hg => ?_, ih false hm⟩
        cases hg
    · obtain ⟨hs, hm⟩ := List.isChain_cons_cons.1 h
      exact List.isChain_cons_cons.2 ⟨hs, ih _ hm⟩

theorem stable_paired : Stable fun _ => Paired l where
  adoptAll scope h := by
    rw [paired_iff] at h ⊢
    rwa [map_frame?_adoptAll]
  removePops h := by
    rw [paired_iff] at h ⊢
    exact isChain_removePops h

namespace Block

variable {b : Block} {r : Rewrite} {i : Nat}

theorem paired_tidy {head : Head} {start stop : Offset} (h : Paired l b.statements) :
    Paired l (b.tidy head start stop).statements := by
  cases head with
  | ifHead | elseHead => exact h
  | whileHead => exact h.front (trimLast_isPrefix _ b)
  | foreachHead =>
    have trimmed : Paired l ((b.trimLast Token.isIteratorPop).trimLast Token.isIteratorNext).statements :=
      (h.front (trimLast_isPrefix _ b)).front (trimLast_isPrefix _ _)
    rw [paired_iff] at trimmed
    exact paired_iff.2 (isChain_removePops trimmed)
  | switchHead =>
    rw [paired_iff] at h
    exact (paired_iff.2 (isChain_breaksTo stop b.scope false h)).front (trimLast_isPrefix _ _)

/-! ### What passes make -/

variable {done : List Statement} {rest : Listing}

/-- What is left has no second branches. -/
theorem Frontier.paired (h : Frontier l b done rest) (hdone : Paired l done) :
    Paired l b.statements := by
  rw [h.statements]
  refine hdone.append (paired_of_forall fun s hs g hg => ?_)
  obtain ⟨e, -, rfl⟩ := Listing.mem_placed.1 hs
  cases hg

/-- What is at a place behind the frontier. -/
theorem Frontier.entry (h : Frontier l b done rest) {k : Nat} (hk : done.length ≤ k) (hlt : k < b.length) :
    ∃ e, rest[k - done.length]? = some e ∧ b.statements[k]? = some (e.placed b.scope) := by
  have hlen : b.length = done.length + rest.length := by simp [length, h.statements]
  have hrest : k - done.length < rest.length := by omega
  refine ⟨_, List.getElem?_eq_getElem hrest, ?_⟩
  rw [h.statements, List.getElem?_append_right hk, Listing.placed, List.getElem?_map,
    List.getElem?_eq_getElem hrest]
  rfl

/-- The branches of a conditional that is found behind the frontier. -/
theorem Frontier.branches (h : Frontier l b done rest) {split : Nat} {start x : Offset}
    (hsplit : done.length < split) (hlt : split < b.length)
    (across : b.tokenAt? (split - 1) = some (.jump x)) :
    Branches l ⟨.ifBlock, start, b.startAt (split - 1)⟩ ⟨.elseBlock, b.startAt split, x⟩ := by
  obtain ⟨jump, hjump, hjump'⟩ := h.entry (k := split - 1) (by omega) (by omega)
  obtain ⟨first, hfirst, hfirst'⟩ := h.entry (Nat.le_of_lt hsplit) hlt
  rw [tokenAt?, hjump'] at across
  rw [startAt_of_getElem? hjump', startAt_of_getElem? hfirst']
  rw [show split - done.length = split - 1 - done.length + 1 by omega] at hfirst
  generalize split - 1 - done.length = k at hjump hfirst
  obtain ⟨hk, rfl⟩ := List.getElem?_eq_some_iff.1 hjump
  obtain ⟨hk', rfl⟩ := List.getElem?_eq_some_iff.1 hfirst
  have hrest := List.take_append_drop k rest
  rw [List.drop_eq_getElem_cons hk, List.drop_eq_getElem_cons hk'] at hrest
  obtain ⟨before, after, hl⟩ := h.part
  have code : l = before ++ rest.take k ++ rest[k] :: rest[k + 1] :: (rest.drop (k + 1 + 1) ++ after) :=
    calc l = before ++ (rest.take k ++ rest[k] :: rest[k + 1] :: rest.drop (k + 1 + 1)) ++ after := by
          rw [hrest, hl]
      _ = _ := by simp only [List.append_assoc, List.cons_append]
  exact ⟨rfl, rfl, _, _, _, _, code, rfl, Option.some.inj across, rfl⟩

theorem paired_single {frame : Frame} (hs : s.frame? = some frame) (hkind : frame.kind ≠ .elseBlock) :
    Paired l [s] := by
  refine paired_of_forall fun x hx g hg => ?_
  rw [List.mem_singleton.1 hx, hs] at hg
  cases hg
  exact hkind

theorem paired_two {t : Statement} {f g : Frame} (hs : s.frame? = some f) (ht : t.frame? = some g)
    (h : Branches l f g) : Paired l [s, t] := by
  rw [paired_iff, List.map_cons, List.map_cons, hs, ht]
  refine List.isChain_cons_cons.2 ⟨?_, List.isChain_pair.2 ?_⟩
  · rintro _ ⟨⟩ hkind
    rw [h.1] at hkind
    cases hkind
  · rintro _ ⟨⟩ -
    exact ⟨f, rfl, h⟩

/-- What a rewrite makes is paired. -/
theorem Frontier.paired_made (h : Frontier l b done rest) (hi : RewriteAt b i r) :
    Paired l ((adoptAll b.scope r.made).map Statement.finished) := by
  cases h.step hi with
  | selection =>
    simp only [adoptAll, adopt_wrap, List.map_cons, List.map_nil, Statement.finished]
    exact paired_single rfl fun h => by cases h
  | ahead le =>
    cases hi with
    | alternative _ _ forward across _ second =>
      obtain ⟨hlt, hle, -⟩ := lt_of_secondBranchEnd? second
      simp only [adoptAll, adopt_wrap, List.map_cons, List.map_nil, Statement.finished]
      exact paired_two rfl rfl
        (h.branches (Nat.lt_of_le_of_lt le forward) (Nat.lt_of_lt_of_le hlt hle) across)
    | leave | advance =>
      simp only [adoptAll, adopt, List.map_cons, List.map_nil, Statement.finished]
      refine paired_of_forall fun s hs => ?_
      rw [List.mem_singleton.1 hs]
      intro g hg
      cases hg
    | _ =>
      simp only [adoptAll, adopt_wrap, List.map_cons, List.map_nil, Statement.finished]
      exact paired_single rfl fun h => by cases h

/-- The state of a block in which second branches stand where they belong. -/
def PairedSoFar (l : Listing) (b : Block) : Prop := ∃ done rest, Frontier l b done rest ∧ Paired l done

theorem carries_paired (sorted : Listing.fault? l = none) (addr : l.Addressed) :
    Carries (PairedSoFar l) fun _ => Paired l where
  rewritten := by
    rintro b r ⟨done, rest, h, hdone⟩ hr
    obtain ⟨i, hi⟩ := rewriteAt_of_firstRewrite? hr
    exact ⟨_, _, h.rewritten sorted addr hr,
      ((h.paired hdone).front (List.take_prefix ..)).append (h.paired_made hi)⟩
  children := by
    rintro b r start stop scope inner head m ⟨done, rest, h, hdone⟩ hr hm
    obtain ⟨i, hi⟩ := rewriteAt_of_firstRewrite? hr
    obtain ⟨kept, run, hchild, hkept⟩ := h.child hi hm
    refine ⟨_, run, hchild, ?_⟩
    rw [paired_iff, map_frame?_adoptAll, ← paired_iff]
    rcases hkept with rfl | ⟨front, s, rfl, hs, -⟩
    · exact paired_of_forall nofun
    · obtain ⟨t, ht, -⟩ := isPlain_iff.1 hs
      exact hdone.behind ht
  tidied := by
    rintro b start stop outer head ⟨done, rest, h, hdone⟩ - -
    exact paired_tidy (h.paired hdone)

end Block

namespace Listing

/-- **Every second branch of a structured body stands directly behind its first branch**, and between
their instructions the code has the jump that leads over the second branch. -/
theorem paired_structured (l : Listing) (sorted : fault? l = none) (addr : l.Addressed) :
    Throughout (Paired l) l.block.structured.value.withoutRedundantReturns.statements := by
  have start : Block.PairedSoFar l l.block := ⟨[], l, .start sorted, paired_of_forall nofun⟩
  obtain ⟨⟨done, rest, h, hdone⟩, lists⟩ := Block.everyListOf_structureWithin stable_paired
    (Block.carries_paired sorted addr) (l.block.length + 1) l.block start (everyListOf_block _ l)
  have elided := Block.withoutRedundantReturns_isPrefix l.block.structured.value
  exact ⟨(h.paired hdone).front elided, lists.mono fun s hs => elided.subset hs⟩

/-- A selection with another one in its first clause. It waits for the other, and takes in the two
branches in front of it when they are made already. -/
def deferred : Listing :=
  [⟨0, none, .switch (.expression "a")⟩, ⟨5, none, .caseLabel "1"⟩,
    ⟨10, none, .jumpIfNot (.expression "c") 25⟩, ⟨15, none, .expression "A()"⟩, ⟨20, none, .jump 30⟩,
    ⟨25, none, .expression "B()"⟩, ⟨30, none, .switch (.expression "b")⟩, ⟨35, none, .caseLabel "1"⟩,
    ⟨40, none, .expression "C()"⟩, ⟨45, none, .jump 60⟩, ⟨50, none, .caseLabel "2"⟩,
    ⟨55, none, .expression "D()"⟩, ⟨60, none, .jump 75⟩, ⟨65, none, .caseLabel "2"⟩,
    ⟨70, none, .expression "E()"⟩, ⟨75, none, .expression "F()"⟩]

theorem paired_structured_deferred :
    fault? deferred = none ∧ deferred.Addressed ∧
      Throughout (Paired deferred) deferred.block.structured.value.withoutRedundantReturns.statements :=
  ⟨by decide, by decide, paired_structured deferred (by decide) (by decide)⟩

end Listing

end FlowRecovery
