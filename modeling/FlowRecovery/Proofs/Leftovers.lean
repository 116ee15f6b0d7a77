import FlowRecovery.Elision
import FlowRecovery.Listing
import FlowRecovery.Proofs.Lists
import Mathlib.Data.List.Basic

/-!
# Heads that are left over

A block without a rewrite may still have the heads of selections and iterations in it, each for a
reason that can be seen in the list it stands in. Behind the head of a selection there is a jump that
leads nowhere in the list, directly before a label, and the exit of an iteration is no place behind its
head (`eachBehind_deferred`). The jump survives when the list is tidied as the children of a composite
statement, and whatever happens to that statement later leaves the list as it is. So every list
inside a structured block is `Settled` (`settled_structureWithin`).

Statements behind a return are elided only where no jump is left. Then no selection is left either, and
an iteration only where it exits to nowhere (`astray_of_elided`), or where the passes over the body were
stopped by their limit. The other way round, a selection that was left has a jump behind it in its list,
so the body does not count as complete (`throughout_waiting`).
-/

namespace FlowRecovery

/-! ### The reasons for which a head is left -/

namespace Statement

/-- The offset behind the end of the iterator, at which control goes on after an iteration. -/
def exit? (s : Statement) : Option Offset :=
  match s.token? with
  | some (.foreach _ target) | some (.foreachWith _ _ target) => target.next?
  | _ => none

/-- An offset is that of no statement of a list, and does not lead to the end of the list either; `ends`
says which offsets do. -/
def LeadsNowhere (ends : Offset → Bool) (rest : List Statement) (exit : Offset) : Prop :=
  ends exit = false ∧ ∀ m ∈ rest, m.start ≠ exit

/-- There is a jump in a list that does not lead to the end of it. -/
def HasJump (ends : Offset → Bool) (rest : List Statement) : Prop :=
  ∃ m ∈ rest, ∃ target, m.jumpTarget? = some target ∧ ends target = false

/-- The head of a selection has a jump behind it, and that of an iteration exits to nowhere. -/
def Excused (ends : Offset → Bool) (s : Statement) (rest : List Statement) : Prop :=
  (s.isPlain Token.isSwitch = true → HasJump ends rest) ∧
    ∀ exit, s.exit? = some exit → LeadsNowhere ends rest exit

/-- Every head in a list is there for a reason. -/
def Settled (ends : Offset → Bool) (l : List Statement) : Prop := EachBehind (Excused ends) l

/-- Behind every head of a selection in a list there is a jump. -/
def Waiting (l : List Statement) : Prop :=
  EachBehind (fun s rest => s.isPlain Token.isSwitch = true → ∃ m ∈ rest, m.jumpTarget?.isSome = true) l

/-- A list without the head of a selection, and with the head of an iteration only where it exits to
nowhere. -/
def Astray (ends : Offset → Bool) (l : List Statement) : Prop :=
  EachBehind (fun s rest => s.isPlain Token.isSwitch = false ∧
    ∀ exit, s.exit? = some exit → LeadsNowhere ends rest exit) l

/-- The statements of `l'` start where those of `l` do, and the jumps of `l` that do not lead to the end
are still among them. -/
def Keeps (ends : Offset → Bool) (l l' : List Statement) : Prop :=
  (∀ m' ∈ l', ∃ m ∈ l, m.start = m'.start) ∧
    ∀ m ∈ l, ∀ target, m.jumpTarget? = some target → ends target = false →
      ∃ m' ∈ l', m'.jumpTarget? = some target

section

variable {ends : Offset → Bool} {l l' : List Statement} {s s' : Statement}

theorem Excused.keeps (h : s.Excused ends l) (htoken : s'.token? = s.token?) (hl : Keeps ends l l') :
    s'.Excused ends l' := by
  refine ⟨fun hswitch => ?_, fun exit hexit => ?_⟩
  · obtain ⟨m, hm, target, hjump, hends⟩ := h.1 (by rwa [isPlain, htoken] at hswitch)
    obtain ⟨m', hm', hjump'⟩ := hl.2 m hm target hjump hends
    exact ⟨m', hm', target, hjump', hends⟩
  · obtain ⟨hends, hstarts⟩ := h.2 exit (by rwa [exit?, htoken] at hexit)
    refine ⟨hends, fun m' hm' heq => ?_⟩
    obtain ⟨m, hm, hstart⟩ := hl.1 m' hm'
    exact hstarts m hm (hstart.trans heq)

/-- A statement that is no instruction needs no reason. -/
theorem excused_of_token?_eq_none (h : s.token? = none) : s.Excused ends l := by
  refine ⟨fun hswitch => ?_, fun exit hexit => ?_⟩
  · rw [isPlain, h] at hswitch
    cases hswitch
  · rw [exit?, h] at hexit
    cases hexit

theorem Keeps.cons (hstart : s'.start = s.start) (htoken : s'.token? = s.token?)
    (h : Keeps ends l l') : Keeps ends (s :: l) (s' :: l') := by
  constructor
  · intro m' hm'
    rcases List.mem_cons.1 hm' with rfl | hm'
    · exact ⟨s, List.mem_cons_self .., hstart.symm⟩
    · obtain ⟨m, hm, heq⟩ := h.1 m' hm'
      exact ⟨m, List.mem_cons_of_mem _ hm, heq⟩
  · intro m hm target hjump hends
    rcases List.mem_cons.1 hm with rfl | hm
    · exact ⟨s', List.mem_cons_self .., by rwa [jumpTarget?, htoken]⟩
    · obtain ⟨m', hm', heq⟩ := h.2 m hm target hjump hends
      exact ⟨m', List.mem_cons_of_mem _ hm', heq⟩

/-- A statement that is no jump, or a jump to the end, may be left out. -/
theorem Keeps.drop (hjump : ∀ target, s.jumpTarget? = some target → ends target = true)
    (h : Keeps ends l l') : Keeps ends (s :: l) l' := by
  constructor
  · intro m' hm'
    obtain ⟨m, hm, heq⟩ := h.1 m' hm'
    exact ⟨m, List.mem_cons_of_mem _ hm, heq⟩
  · intro m hm target hm' hends
    rcases List.mem_cons.1 hm with rfl | hm
    · rw [hjump target hm'] at hends
      cases hends
    · exact h.2 m hm target hm' hends

end

/-! ### What changes a list -/

theorem keeps_map {ends : Offset → Bool} {f : Statement → Statement}
    (hstart : ∀ s, (f s).start = s.start) (htoken : ∀ s, (f s).token? = s.token?)
    (l : List Statement) : Keeps ends l (l.map f) := by
  induction l with
  | nil => exact ⟨nofun, nofun⟩
  | cons s rest ih => exact ih.cons (hstart s) (htoken s)

theorem Settled.adoptAll {ends : Offset → Bool} (scope : Scope) {l : List Statement}
    (h : Settled ends l) : Settled ends (adoptAll scope l) := by
  rw [adoptAll_eq_map]
  induction l with
  | nil => exact h
  | cons s rest ih =>
    obtain ⟨hs, hrest⟩ := EachBehind.cons_iff.1 h
    exact EachBehind.cons_iff.2 ⟨hs.keeps (token?_adopt scope s)
      (keeps_map (start_adopt scope) (token?_adopt scope) rest), ih hrest⟩

theorem jumpTarget?_eq_none {s : Statement} {t : Token} (h : s.token? = some t)
    (ht : t.jumpTarget? = none) : s.jumpTarget? = none := by
  rw [jumpTarget?, h, Option.bind_some, ht]

theorem start_withoutPops (s : Statement) : s.withoutPops.start = s.start := by
  cases s <;> rfl

theorem token?_withoutPops (s : Statement) : s.withoutPops.token? = s.token? := by
  cases s <;> rfl

theorem keeps_removePops {ends : Offset → Bool} (l : List Statement) :
    Keeps ends l (removePops l) := by
  induction l with
  | nil => exact ⟨nofun, nofun⟩
  | cons s rest ih =>
    rw [removePops]
    split
    · next hpop =>
      refine ih.drop fun target hjump => ?_
      obtain ⟨t, htoken, ht⟩ := isPlain_iff.1 (Bool.and_eq_true_iff.1 hpop).1
      rw [jumpTarget?_eq_none htoken (by cases t <;> first | rfl | cases ht)] at hjump
      cases hjump
    · exact ih.cons (start_withoutPops s) (token?_withoutPops s)

theorem Settled.removePops {ends : Offset → Bool} {l : List Statement} (h : Settled ends l) :
    Settled ends (removePops l) := by
  induction l with
  | nil => exact h
  | cons s rest ih =>
    obtain ⟨hs, hrest⟩ := EachBehind.cons_iff.1 h
    rw [Statement.removePops]
    split
    · exact ih hrest
    · exact EachBehind.cons_iff.2
        ⟨hs.keeps (token?_withoutPops s) (keeps_removePops rest), ih hrest⟩

theorem keeps_breaksTo (stop : Offset) (scope : Scope) (l : List Statement) :
    ∀ afterReturn, Keeps (stop == ·) l (breaksTo stop scope afterReturn l) := by
  induction l with
  | nil => exact fun _ => ⟨nofun, nofun⟩
  | cons s rest ih =>
    intro afterReturn
    rw [breaksTo]
    split
    · next hjump =>
      have hends (target : Offset) (h : s.jumpTarget? = some target) : (stop == target) = true := by
        rw [h, beq_iff_eq, Option.some.injEq] at hjump
        exact beq_iff_eq.2 hjump.symm
      split
      · exact (ih true).drop hends
      · obtain ⟨hstarts, hjumps⟩ := (ih false).drop hends
        refine ⟨fun m' hm' => ?_, fun m hm target htarget hne => ?_⟩
        · rcases List.mem_cons.1 hm' with rfl | hm'
          · exact ⟨s, List.mem_cons_self .., rfl⟩
          · exact hstarts m' hm'
        · obtain ⟨m', hm', heq⟩ := hjumps m hm target htarget hne
          exact ⟨m', List.mem_cons_of_mem _ hm', heq⟩
    · exact (ih _).cons rfl rfl

theorem Settled.breaksTo {stop : Offset} (scope : Scope) {l : List Statement}
    (h : Settled (stop == ·) l) :
    ∀ afterReturn, Settled (stop == ·) (breaksTo stop scope afterReturn l) := by
  induction l with
  | nil => exact fun _ => h
  | cons s rest ih =>
    intro afterReturn
    obtain ⟨hs, hrest⟩ := EachBehind.cons_iff.1 h
    rw [Statement.breaksTo]
    split
    · split
      · exact ih hrest true
      · exact EachBehind.cons_iff.2 ⟨excused_of_token?_eq_none rfl, ih hrest false⟩
    · exact EachBehind.cons_iff.2 ⟨hs.keeps rfl (keeps_breaksTo stop scope rest _), ih hrest _⟩

end Statement

namespace Block

open Statement

theorem endsAt_of_scope {b : Block} {frame : Frame} {scope : Scope} (h : b.scope = frame :: scope) :
    b.endsAt = (frame.stop == ·) := by
  funext target
  rw [endsAt, h]

/-- The last statement may go if it is no jump. -/
theorem settled_trimLast {ends : Offset → Bool} {b : Block} {p : Token → Bool}
    (hp : ∀ t, p t = true → t.jumpTarget? = none) (h : Settled ends b.statements) :
    Settled ends (b.trimLast p).statements := by
  unfold trimLast
  split
  · next hlast =>
    obtain ⟨last, hgets, hplain⟩ := (Option.any_eq_true _ _).1 hlast
    obtain ⟨t, htoken, ht⟩ := isPlain_iff.1 hplain
    refine EachBehind.dropLast fun s rest hs => ?_
    refine (h s rest hs).keeps rfl ⟨fun m hm => ⟨m, List.dropLast_subset _ hm, rfl⟩, ?_⟩
    intro m hm target hjump hends
    refine ⟨m, List.mem_dropLast_of_mem_of_ne_getLast? hm fun heq => ?_, hjump⟩
    -- The last statement is no jump, so `m` is another one.
    obtain ⟨front, hl⟩ := hs
    have hgets' : b.last? = rest.getLast? := by
      rw [last?, ← hl, List.getLast?_append, List.getLast?_cons, ← heq]
      rfl
    rw [hgets', ← heq, Option.some.injEq] at hgets
    rw [hgets, jumpTarget?_eq_none htoken (hp t ht)] at hjump
    cases hjump
  · exact h

/-! ### A block without a rewrite -/

/-- The reasons in a block without a rewrite: the jump behind the head of a selection is not the last
statement. -/
def Deferred (ends : Offset → Bool) (s : Statement) (rest : List Statement) : Prop :=
  (s.isPlain Token.isSwitch = true → HasJump ends rest.dropLast) ∧
    ∀ exit, s.exit? = some exit → LeadsNowhere ends rest exit

theorem Deferred.excused {ends : Offset → Bool} {s : Statement} {rest : List Statement}
    (h : Deferred ends s rest) : s.Excused ends rest ∧ s.Excused ends rest.dropLast := by
  refine ⟨⟨fun hswitch => ?_, h.2⟩, h.1, fun exit hexit => ?_⟩
  · obtain ⟨m, hm, hjump⟩ := h.1 hswitch
    exact ⟨m, List.dropLast_subset _ hm, hjump⟩
  · obtain ⟨hends, hstarts⟩ := h.2 exit hexit
    exact ⟨hends, fun m hm => hstarts m (List.dropLast_subset _ hm)⟩

/-- Where the end of a selection cannot be told, there is another selection ahead, or a jump before a
label that leads nowhere. -/
theorem of_selectionEndFrom?_eq_none {b : Block} {first : Nat} :
    ∀ {rest : List Statement} {previous : Statement} {j : Nat},
      b.selectionEndFrom? first previous j rest = none →
        (∃ m ∈ rest, m.isPlain Token.isSwitch = true) ∨
          ∃ m ∈ (previous :: rest).dropLast, ∃ target,
            m.jumpTarget? = some target ∧ b.endsAt target = false := by
  intro rest
  induction rest with
  | nil => intro previous j h; cases h
  | cons s rest ih =>
    intro previous j h
    rw [selectionEndFrom?] at h
    split at h
    · next hswitch => exact .inl ⟨s, List.mem_cons_self .., hswitch⟩
    · split at h
      · next target hlabel hjump =>
        rw [Option.map_eq_none_iff] at h
        refine .inr ⟨previous, List.mem_cons_self .., target, hjump, ?_⟩
        rw [← Bool.not_eq_true]
        intro hends
        rw [find?, if_pos hends] at h
        cases h
      · rcases ih h with ⟨m, hm, hswitch⟩ | ⟨m, hm, hjump⟩
        · exact .inl ⟨m, List.mem_cons_of_mem _ hm, hswitch⟩
        · exact .inr ⟨m, List.mem_cons_of_mem _ hm, hjump⟩

theorem leadsNowhere_of_find? {b : Block} {first : Nat} {exit : Offset} {rest : List Statement}
    (ahead : b.statements.drop first = rest) (h : b.find? exit first = none) :
    LeadsNowhere b.endsAt rest exit := by
  unfold find? at h
  split at h
  · cases h
  · next hends =>
    rw [ahead, Option.map_eq_none_iff, List.findIdx?_eq_none_iff] at h
    exact ⟨Bool.not_eq_true _ ▸ hends, fun m hm => by simpa using h m hm⟩

theorem mem_dropLast_cons {s m : Statement} {l : List Statement} (h : m ∈ l.dropLast) :
    m ∈ (s :: l).dropLast := by
  cases l with
  | nil => cases h
  | cons => exact List.mem_cons_of_mem _ h

/-- Behind the head of a selection whose end cannot be told there is a jump that leads nowhere. -/
theorem hasJump_of_selectionEndFrom?_eq_none {b : Block} {first : Nat} {s : Statement}
    {rest : List Statement} (hswitch : s.isPlain Token.isSwitch = true)
    (behind : EachBehind (Deferred b.endsAt) rest)
    (h : b.selectionEndFrom? first s first rest = none) : HasJump b.endsAt rest.dropLast := by
  rcases of_selectionEndFrom?_eq_none h with ⟨m, hm, hswitch'⟩ | ⟨m, hm, target, hjump, hends⟩
  · -- The jump is the one behind that other selection.
    obtain ⟨between, behindIt, rfl⟩ := List.append_of_mem hm
    obtain ⟨m', hm', hjump⟩ := (behind m behindIt (List.suffix_append ..)).1 hswitch'
    refine ⟨m', ?_, hjump⟩
    rw [List.dropLast_append_cons]
    exact List.mem_append_right _ (mem_dropLast_cons hm')
  · refine ⟨m, ?_, target, hjump, hends⟩
    cases rest with
    | nil => cases hm
    | cons r rest =>
      rcases List.mem_cons.1 hm with rfl | hm
      · obtain ⟨t, htoken, ht⟩ := isPlain_iff.1 hswitch
        rw [jumpTarget?_eq_none htoken (by cases t <;> first | rfl | cases ht)] at hjump
        cases hjump
      · exact hm

/-- In a block without a rewrite, every head is there for a reason. -/
theorem eachBehind_deferred {b : Block} (h : b.firstRewrite? = none) :
    EachBehind (Deferred b.endsAt) b.statements := by
  suffices loop : ∀ front l, front ++ l = b.statements → EachBehind (Deferred b.endsAt) l from
    loop [] b.statements rfl
  intro front l
  induction l generalizing front with
  | nil => exact fun _ => EachBehind.nil
  | cons s rest ih =>
    intro hl
    have behind := ih (front ++ [s]) (by simpa using hl)
    refine EachBehind.cons_iff.2 ⟨?_, behind⟩
    have here : b.statements[front.length]? = some s := by simp [← hl]
    have ahead : b.statements.drop (front.length + 1) = rest := by simp [← hl]
    have hnone := rewriteAt?_eq_none h front.length
    rw [rewriteAt?, here] at hnone
    dsimp only at hnone
    have iteration {collection : Token} {iterator? : Option Token} {target exit : Offset}
        (hr : b.iterationRewrite? front.length collection iterator? target = none)
        (hexit : target.next? = some exit) : LeadsNowhere b.endsAt rest exit := by
      simp only [iterationRewrite?, hexit, Option.map_eq_none_iff] at hr
      exact leadsNowhere_of_find? ahead hr
    refine ⟨fun hswitch => ?_, fun exit hexit => ?_⟩
    · obtain ⟨t, htoken, ht⟩ := isPlain_iff.1 hswitch
      cases t with
      | switch discriminant =>
        simp only [htoken, selectionRewrite?, ahead, Option.map_eq_none_iff] at hnone
        exact hasJump_of_selectionEndFrom?_eq_none hswitch behind hnone
      | _ => cases ht
    · rw [exit?] at hexit
      split at hexit
      · next htoken => exact iteration (by simpa [htoken] using hnone) hexit
      · next htoken => exact iteration (by simpa [htoken] using hnone) hexit
      · cases hexit

/-! ### The children of a composite statement -/

/-- Tidying leaves every head a reason. -/
theorem settled_tidy {b : Block} {start stop : Offset} {head : Head}
    (h : EachBehind (Deferred (stop == ·)) b.statements) :
    Settled (stop == ·) (b.tidy head start stop).statements := by
  have stays : Settled (stop == ·) b.statements := h.mono fun _ _ _ hs => hs.excused.1
  have shorter : Settled (stop == ·) b.statements.dropLast :=
    EachBehind.dropLast (h.mono fun _ _ _ hs => hs.excused.2)
  have trimmed (p : Token → Bool) : Settled (stop == ·) (b.trimLast p).statements := by
    unfold trimLast
    split
    · exact shorter
    · exact stays
  cases head with
  | ifHead | elseHead => exact stays
  | whileHead => exact trimmed _
  | foreachHead =>
    refine Settled.removePops (settled_trimLast (fun t ht => ?_) (trimmed _))
    cases t <;> first | rfl | cases ht
  | switchHead =>
    refine settled_trimLast (fun t ht => ?_) (stays.breaksTo b.scope false)
    cases t <;> first | rfl | cases ht

theorem stable_settled : Stable Settled :=
  ⟨fun scope h => h.adoptAll scope, fun h => h.removePops⟩

/-- A block without a rewrite makes a settled list, and nothing else is asked of a block. -/
theorem carries_settled : Carries (fun _ => True) Settled where
  rewritten _ _ := trivial
  children _ _ _ := trivial
  tidied _ hscope hnone := settled_tidy (endsAt_of_scope hscope ▸ eachBehind_deferred hnone)

/-- **What structuring leaves inside composite statements is settled**, whatever the limit. -/
theorem settled_structureWithin (limit : Nat) (b : Block) (h : EveryListOf Settled b.statements) :
    EveryListOf Settled (b.structureWithin limit).value.statements :=
  (everyListOf_structureWithin stable_settled carries_settled limit b trivial h).2

end Block

/-! ### Elision -/

namespace Statement

theorem eq_false_of_any {p : Statement → Bool} {s : Statement} (h : s.any p = false) : p s = false := by
  cases s with
  | plain | escape => exact h
  | composite =>
    rw [any, Bool.or_eq_false_iff] at h
    exact h.1

theorem Settled.waiting {ends : Offset → Bool} {l : List Statement} (h : Settled ends l) : Waiting l := by
  intro s rest hs hswitch
  obtain ⟨m, hm, target, hjump, -⟩ := (h s rest hs).1 hswitch
  exact ⟨m, hm, by rw [hjump]; rfl⟩

/-- In a settled list without a jump, no selection is left. -/
theorem Settled.astray {ends : Offset → Bool} {l : List Statement} (h : Settled ends l)
    (hjumps : anyOf isRawJump l = false) : Astray ends l := by
  intro s rest hs
  refine ⟨?_, (h s rest hs).2⟩
  rw [← Bool.not_eq_true]
  intro hswitch
  obtain ⟨m, hm, target, hjump, -⟩ := (h s rest hs).1 hswitch
  rw [anyOf_eq_any, List.any_eq_false] at hjumps
  have hno := eq_false_of_any
    (Bool.not_eq_true _ ▸ hjumps m (hs.subset (List.mem_cons_of_mem _ hm)))
  obtain ⟨t, htoken, ht⟩ := Option.bind_eq_some_iff.1 hjump
  rw [isRawJump, isPlain, htoken, Option.any_some, Token.isJump_of_jumpTarget? ht] at hno
  cases hno

section

variable {p : Statement → Bool} {P : (Offset → Bool) → List Statement → Prop}

mutual

theorem any_eq_false (h : ∀ ends l, P ends l → ∀ s ∈ l, p s = false) :
    (s : Statement) → p s = false → s.EveryList P → s.any p = false
  | plain .., hs, _ => hs
  | escape .., hs, _ => hs
  | composite _ _ _ stop _ children, hs, lists => by
    rw [any, hs, Bool.false_or]
    exact anyOf_eq_false h children (h _ children lists.1) lists.2

/-- What is in no list of a tree is nowhere in it. -/
theorem anyOf_eq_false (h : ∀ ends l, P ends l → ∀ s ∈ l, p s = false) :
    (l : List Statement) → (∀ s ∈ l, p s = false) → EveryListOf P l → anyOf p l = false
  | [], _, _ => rfl
  | s :: rest, hl, lists => by
    rw [anyOf, any_eq_false h s (hl s (List.mem_cons_self ..)) lists.1, Bool.false_or]
    exact anyOf_eq_false h rest (fun x hx => hl x (List.mem_cons_of_mem _ hx)) lists.2

end

end

mutual

theorem everyList_astray :
    (s : Statement) → s.EveryList Settled → s.any isRawJump = false → s.EveryList Astray
  | plain .., _, _ => trivial
  | escape .., _, _ => trivial
  | composite _ _ _ _ _ children, h, hjumps => by
    rw [any, Bool.or_eq_false_iff] at hjumps
    exact ⟨h.1.astray hjumps.2, everyListOf_astray children h.2 hjumps.2⟩

theorem everyListOf_astray :
    (l : List Statement) → EveryListOf Settled l → anyOf isRawJump l = false →
      EveryListOf Astray l
  | [], _, _ => trivial
  | s :: rest, h, hjumps => by
    rw [anyOf, Bool.or_eq_false_iff] at hjumps
    exact ⟨everyList_astray s h.1 hjumps.1, everyListOf_astray rest h.2 hjumps.2⟩

end

end Statement

namespace Block

open Statement

theorem trimLast_isPrefix (p : Token → Bool) (b : Block) : (b.trimLast p).statements <+: b.statements := by
  unfold trimLast
  split
  · exact List.dropLast_prefix _
  · exact List.prefix_refl _

/-- Elision leaves the front of a body. -/
theorem withoutRedundantReturns_isPrefix (b : Block) :
    b.withoutRedundantReturns.statements <+: b.statements := by
  have trimmed : b.withoutTrailingErrorReturn.statements <+: b.statements := trimLast_isPrefix _ b
  rw [withoutRedundantReturns]
  split
  · exact trimmed
  · refine List.IsPrefix.trans ?_ trimmed
    unfold upToReturn
    split
    · exact List.prefix_refl _
    · split <;> exact List.take_prefix ..

/-- An undecoded return is no jump. -/
theorem hasRawJumps_withoutTrailingErrorReturn (b : Block) :
    b.withoutTrailingErrorReturn.hasRawJumps = b.hasRawJumps := by
  refine anyOf_trimLast (fun t ht => ?_) b
  cases t <;> first | rfl | cases ht

theorem hasRawJumps_of_elided {b : Block}
    (h : b.withoutRedundantReturns.statements ≠ b.withoutTrailingErrorReturn.statements) :
    b.hasRawJumps = false := by
  rw [← hasRawJumps_withoutTrailingErrorReturn, ← Bool.not_eq_true]
  intro hjumps
  refine h ?_
  rw [withoutRedundantReturns, if_pos hjumps]

end Block

namespace Listing

open Statement

/-- **Statements are elided only where everything was structured that can be.** If more than an undecoded
return at the end is elided, then no jump was left anywhere. No selection was left inside a composite
statement, and an iteration only where it exits to nowhere in its list; if the passes over the body
were not stopped by their limit, the same holds of the body itself. -/
theorem astray_of_elided (l : Listing) (limit : Nat)
    (h : (l.block.structureWithin limit).value.withoutRedundantReturns.statements ≠
      (l.block.structureWithin limit).value.withoutTrailingErrorReturn.statements) :
    (l.block.structureWithin limit).value.hasRawJumps = false ∧
      EveryListOf Astray (l.block.structureWithin limit).value.statements ∧
      ((l.block.structureWithin limit).stopped? = none →
        Astray (l.block.structureWithin limit).value.endsAt
          (l.block.structureWithin limit).value.statements) := by
  have hjumps := Block.hasRawJumps_of_elided h
  have inside := Block.settled_structureWithin limit l.block (everyListOf_block Settled l)
  refine ⟨hjumps, everyListOf_astray _ inside hjumps, fun hdone => ?_⟩
  have fixed := Block.eachBehind_deferred (Block.firstRewrite?_structureWithin hdone)
  exact Settled.astray (fixed.mono fun _ _ _ hs => hs.excused.1) hjumps

/-- An iteration whose exit is no place of the listing, and a return in its body. -/
def straying : Listing :=
  [⟨0, none, .foreach (.expression "A") 5⟩, ⟨3, none, .expression "f()"⟩, ⟨10, none, .ret⟩,
    ⟨20, none, .expression "g()"⟩]

/-- A conditional, and a selection that a single pass does not get to. -/
def cutShort : Listing :=
  [⟨0, none, .jumpIfNot (.expression "c") 2⟩, ⟨1, none, .expression "f()"⟩,
    ⟨2, none, .switch (.expression "d")⟩, ⟨3, none, .caseLabel "1"⟩, ⟨4, none, .ret⟩,
    ⟨5, none, .defaultLabel⟩, ⟨6, none, .expression "g()"⟩]

theorem astray_of_elided_straying :
    (straying.block.structureWithin 5).value.withoutRedundantReturns.statements ≠
        (straying.block.structureWithin 5).value.withoutTrailingErrorReturn.statements ∧
      (straying.block.structureWithin 5).value.hasRawJumps = false ∧
      EveryListOf Astray (straying.block.structureWithin 5).value.statements ∧
      ((straying.block.structureWithin 5).stopped? = none →
        Astray (straying.block.structureWithin 5).value.endsAt
          (straying.block.structureWithin 5).value.statements) := by
  have elided : (straying.block.structureWithin 5).value.withoutRedundantReturns.statements ≠
      (straying.block.structureWithin 5).value.withoutTrailingErrorReturn.statements :=
    fun h => absurd (congrArg List.length h) (by decide)
  exact ⟨elided, astray_of_elided straying 5 elided⟩

/-- Statements behind a return are elided although a head was left: that of an iteration without a
place to exit to, and that of a selection when the passes are stopped. -/
theorem elided_behind_heads :
    (fault? straying = none ∧ (straying.block.structureWithin 5).stopped? = none ∧
        (straying.block.structureWithin 5).value.withoutRedundantReturns.statements ≠
          (straying.block.structureWithin 5).value.withoutTrailingErrorReturn.statements ∧
        anyOf (isPlain Token.isBranch) (straying.block.structureWithin 5).value.statements = true) ∧
      fault? cutShort = none ∧
        (cutShort.block.structureWithin 0).value.withoutRedundantReturns.statements ≠
          (cutShort.block.structureWithin 0).value.withoutTrailingErrorReturn.statements ∧
        anyOf (isPlain Token.isBranch) (cutShort.block.structureWithin 0).value.statements = true := by
  refine ⟨⟨rfl, rfl, fun h => ?_, rfl⟩, rfl, fun h => ?_, rfl⟩
  · exact absurd (congrArg List.length h) (by decide)
  · exact absurd (congrArg List.length h) (by decide)

/-! ### Selections that are left over -/

/-- **A selection that is left over has a jump behind it in its list**, wherever that list is in the tree.
So a body is never complete when a selection was left anywhere. -/
theorem throughout_waiting (l : Listing) :
    Throughout Waiting l.block.structured.value.statements ∧
      (anyOf (isPlain Token.isSwitch) l.block.structured.value.statements = true →
        l.block.structured.value.hasRawJumps = true) := by
  have inside : EveryListOf Settled l.block.recovered.statements :=
    Block.settled_structureWithin (l.block.length + 1) l.block (everyListOf_block Settled l)
  have fixed := Block.eachBehind_deferred (Block.firstRewrite?_recovered l.block)
  have whole : Settled l.block.recovered.endsAt l.block.recovered.statements :=
    fixed.mono fun _ _ _ hs => hs.excused.1
  refine ⟨⟨whole.waiting, inside.imp₂ (fun _ _ h _ => h.waiting) _ inside⟩, fun hswitch => ?_⟩
  by_contra hjumps
  rw [Bool.not_eq_true] at hjumps
  have switchless {ends : Offset → Bool} {m : List Statement} (h : Astray ends m) (s : Statement)
      (hs : s ∈ m) : s.isPlain Token.isSwitch = false := by
    obtain ⟨front, behind, rfl⟩ := List.append_of_mem hs
    exact (h s behind (List.suffix_append ..)).1
  have nowhere := anyOf_eq_false (fun _ _ => switchless) _ (switchless (whole.astray hjumps))
    (everyListOf_astray _ inside hjumps)
  exact absurd hswitch (Bool.eq_false_iff.1 nowhere)

/-- Two selections in a conditional, one in front of the other. The first label behind a jump stands behind
a jump back to the conditional, so the inner one has no end, and the outer one waits for it. -/
def stalled : Listing :=
  [⟨0, none, .jumpIfNot (.expression "c") 40⟩, ⟨5, none, .switch (.expression "a")⟩,
    ⟨10, none, .switch (.expression "b")⟩, ⟨15, none, .caseLabel "1"⟩, ⟨20, none, .jump 0⟩,
    ⟨25, none, .caseLabel "2"⟩, ⟨30, none, .expression "A()"⟩, ⟨40, none, .expression "B()"⟩]

theorem throughout_waiting_stalled :
    Throughout Waiting stalled.block.structured.value.statements ∧
      anyOf (isPlain Token.isSwitch) stalled.block.structured.value.statements = true ∧
        stalled.block.structured.value.hasRawJumps = true :=
  have left : anyOf (isPlain Token.isSwitch) stalled.block.structured.value.statements = true := rfl
  ⟨(throughout_waiting stalled).1, left, (throughout_waiting stalled).2 left⟩

end Listing

end FlowRecovery
