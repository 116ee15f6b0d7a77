import FlowRecovery.Inspection
import FlowRecovery.Proofs.Equations

/-!
# What is left of code without iterations

`Recovers` lists what can become of code that consists of ordinary instructions, returns and jumps,
one constructor for each shape, with everything that is known when a rewrite is found; `recovers`
says that the list is complete. Nothing is said of the code but that its offsets increase and that
its conditional jumps have targets: any jumps are allowed, and those that fit no shape stay.

The last instruction of the body of a conditional loop jumps back. It is either left where it is, or
it has come into a composite statement and a jump is left in there (`Recovers.stuck`), so nothing
else is lost when it is taken away.
-/

namespace FlowRecovery

/-- An instruction of a body without iterations and selections. -/
def Token.isGoto : Token → Bool
  | .expression _ | .jumpIfNot _ _ | .jump _ | .ret | .retValue _ => true
  | _ => false

namespace Listing

/-- Code without iterations and selections within a scope. In a whole body every conditional jump has
a target: an instruction, or a place behind the code. In a suffix of it, the target may be in front. -/
structure Gotos (scope : Scope) (l : Listing) : Prop where
  /-- The offsets increase. -/
  ascending : (l.map Entry.offset).Pairwise (· < ·)
  /-- There are no iterations and selections. -/
  isGoto : ∀ e ∈ l, e.token.isGoto = true
  /-- The composite statements around end behind the code. -/
  inside : ∀ frame ∈ scope, ∀ e ∈ l, e.offset < frame.stop
  /-- Conditional jumps of a whole body have targets. -/
  addressed : scope = [] → ∀ e ∈ l, ∀ condition target, e.token = .jumpIfNot condition target →
    (∃ x ∈ l, x.offset = target) ∨ (∀ x ∈ l, x.offset < target) ∨ ∀ x ∈ l, target < x.offset

/-- What can be left of code without iterations and selections within a scope. -/
inductive Recovers : Scope → Listing → List Statement → Prop where
  /-- Nothing is left of nothing. -/
  | nil {scope : Scope} : Recovers scope [] []
  /-- An instruction stays as it is. -/
  | stays {scope : Scope} {e : Entry} {l : Listing} {t : List Statement} :
      Recovers scope l t → Recovers scope (e :: l) (e.placed scope :: t)
  /-- A jump leads out of a loop. -/
  | leave {scope : Scope} {e : Entry} {l : Listing} {t : List Statement} {target : Offset}
      {frame : Frame} (token : e.token = .jump target) (exit : scope.loopExit? target = some frame) :
      Recovers scope l t →
      Recovers scope (e :: l) (.escape e.offset scope .leave (.jump target) :: t)
  /-- A conditional without a second branch. -/
  | conditional {scope : Scope} {e : Entry} {body post : Listing} {children t : List Statement}
      {condition : Token} {target : Offset} (token : e.token = .jumpIfNot condition target)
      (leads : Leads scope target (e :: body) post) :
      Recovers (⟨.ifBlock, e.offset, target⟩ :: scope) body children → Recovers scope post t →
      Recovers scope (e :: body ++ post)
        (.composite e.offset scope (.ifHead condition) target
          (⟨.ifBlock, e.offset, target⟩ :: scope) children :: t)
  /-- A conditional loop. -/
  | loop {scope : Scope} {e j : Entry} {body post : Listing} {children t : List Statement}
      {condition : Token} {target : Offset} (token : e.token = .jumpIfNot condition target)
      (leads : Leads scope target (e :: (body ++ [j])) post) (back : j.token = .jump e.offset)
      (stuck : Scope.loopExit? (⟨.whileLoop, e.offset, target⟩ :: scope) e.offset = none) :
      Recovers (⟨.whileLoop, e.offset, target⟩ :: scope) (body ++ [j]) children →
      Recovers scope post t →
      Recovers scope (e :: (body ++ [j]) ++ post)
        (.composite e.offset scope (.whileHead condition) target
          (⟨.whileLoop, e.offset, target⟩ :: scope)
          ((Block.mk (⟨.whileLoop, e.offset, target⟩ :: scope) children).trimLast
            (Token.isJumpTo e.offset)).statements :: t)
  /-- A conditional with a second branch. -/
  | alternative {scope : Scope} {e j o : Entry} {body other post : Listing}
      {children others t : List Statement} {condition : Token} {target stop : Offset}
      (token : e.token = .jumpIfNot condition target)
      (leads : Leads scope target (e :: body ++ [j]) (other ++ post))
      (across : j.token = .jump stop) (first : other.head? = some o)
      (leads' : Leads scope stop (e :: body ++ [j] ++ other) post) :
      Recovers (⟨.ifBlock, e.offset, j.offset⟩ :: scope) body children →
      Recovers (⟨.elseBlock, o.offset, stop⟩ :: scope) other others → Recovers scope post t →
      Recovers scope (e :: body ++ [j] ++ other ++ post)
        (.composite e.offset scope (.ifHead condition) j.offset
            (⟨.ifBlock, e.offset, j.offset⟩ :: scope) children ::
          .composite o.offset scope .elseHead stop (⟨.elseBlock, o.offset, stop⟩ :: scope) others ::
          t)

variable {scope : Scope} {e : Entry} {l m front behind : Listing} {condition : Token}
  {target : Offset}

/-! ### Parts of code -/

theorem Gotos.orderly (h : Gotos scope l) : l.Orderly := by
  refine ⟨h.ascending, fun e he => ?_⟩
  have goto := h.isGoto e he
  cases ht : e.token with
  | switch => rw [ht] at goto; cases goto
  | _ => rfl

/-- Code inside another composite statement that ends behind it. -/
theorem Gotos.inner {frame : Frame} (h : Gotos scope l) (hm : m.Sublist l)
    (hstop : ∀ e ∈ m, e.offset < frame.stop) : Gotos (frame :: scope) m where
  ascending := h.ascending.sublist (hm.map _)
  isGoto e he := h.isGoto e (hm.subset he)
  inside f hf e he := by
    rcases List.mem_cons.1 hf with rfl | hf
    · exact hstop e he
    · exact h.inside f hf e (hm.subset he)
  addressed h := by cases h

theorem Gotos.right (h : Gotos scope (front ++ l)) : Gotos scope l where
  ascending := h.orderly.right.ascending
  isGoto e he := h.isGoto e (List.mem_append_right _ he)
  inside f hf e he := h.inside f hf e (List.mem_append_right _ he)
  addressed hs e he condition target token := by
    rcases h.addressed hs e (List.mem_append_right _ he) condition target token with
      ⟨x, hx, rfl⟩ | hlt | hlt
    · rcases List.mem_append.1 hx with hx | hx
      · exact .inr (.inr fun y hy => h.orderly.lt_of_append hx hy)
      · exact .inl ⟨x, hx, rfl⟩
    · exact .inr (.inl fun y hy => hlt y (List.mem_append_right _ hy))
    · exact .inr (.inr fun y hy => hlt y (List.mem_append_right _ hy))

/-! ### Where jumps lead -/

/-- Where a target leads in code. -/
theorem leads_of_find? (h : Gotos scope l) {first k : Nat}
    (hfind : Block.find? ⟨scope, l.placed scope⟩ target first = some k) :
    ∃ front behind, l = front ++ behind ∧ front.length = k ∧ Leads scope target front behind := by
  rcases Block.find?_eq_some_iff.1 hfind with ⟨hends, hk⟩ | ⟨-, -, hstart, -⟩
  · refine ⟨l, [], (List.append_nil l).symm, by simpa [Block.length] using hk.symm, ?_⟩
    cases scope with
    | nil =>
      refine .atEnd (fun e he => ?_) fun _ hf => by cases hf
      obtain ⟨s, hlast, hs⟩ := (Option.any_eq_true _ _).1 hends
      obtain ⟨x, hx, rfl⟩ := Option.map_eq_some_iff.1 (List.getLast?_map.symm.trans hlast)
      have hxt : x.offset < target := of_decide_eq_true hs
      obtain ⟨rest, rfl⟩ := List.getLast?_eq_some_iff.1 hx
      rcases List.mem_append.1 he with he | he
      · exact Fin.lt_trans (h.orderly.lt_of_append he (List.mem_singleton.2 rfl)) hxt
      · exact List.mem_singleton.1 he ▸ hxt
    | cons frame scope =>
      have hstop : frame.stop = target := beq_iff_eq.1 hends
      refine .atEnd (fun e he => hstop ▸ h.inside frame (List.mem_cons_self ..) e he) ?_
      rintro _ ⟨⟩
      exact hstop
  · obtain ⟨s, hs, rfl⟩ := Option.map_eq_some_iff.1 hstart
    obtain ⟨x, hx, rfl⟩ := Option.map_eq_some_iff.1 ((List.getElem?_map ..).symm.trans hs)
    obtain ⟨hk, rfl⟩ := List.getElem?_eq_some_iff.1 hx
    have hl : l = l.take k ++ l[k] :: l.drop (k + 1) := by
      rw [← List.drop_eq_getElem_cons, List.take_append_drop]
    refine ⟨l.take k, l[k] :: l.drop (k + 1), hl, List.length_take_of_le (Nat.le_of_lt hk),
      .atFront (fun y hy => ?_) fun f hf => ?_⟩
    · exact (hl ▸ h.orderly).lt_of_append hy (List.mem_cons_self ..)
    · exact h.inside f (List.mem_of_mem_head? hf) _ (List.getElem_mem hk)

/-- A conditional jump that leads nowhere, or to itself, is dormant. -/
theorem dormant_of_find? (h : Gotos scope (e :: l)) (token : e.token = .jumpIfNot condition target)
    (hfind : ∀ k, Block.find? ⟨scope, placed scope (e :: l)⟩ target 0 = some k → k = 0) :
    Block.Dormant scope (l.placed scope) (e.placed scope) := by
  have hends : Block.endsAt ⟨scope, placed scope (e :: l)⟩ target = false := by
    rw [Bool.eq_false_iff]
    intro hends
    have := hfind _ (Block.find?_eq_some_iff.2 (.inl ⟨hends, rfl⟩))
    simp [Block.length] at this
  have inside : ∀ x ∈ l, x.offset ≠ target := by
    intro x hx hxt
    cases hf : Block.find? ⟨scope, placed scope (e :: l)⟩ target 0 with
    | none =>
      simp only [Block.find?, hends, Bool.false_eq_true, if_false, List.drop_zero,
        Option.map_eq_none_iff, List.findIdx?_eq_none_iff] at hf
      have := hf (x.placed scope) (List.mem_cons_of_mem _ (mem_placed.2 ⟨x, hx, rfl⟩))
      simp [Entry.placed, Statement.start, hxt] at this
    | some k =>
      obtain rfl := hfind k hf
      rcases Block.find?_eq_some_iff.1 hf with ⟨he, -⟩ | ⟨-, -, hstart, -⟩
      · rw [hends] at he
        cases he
      · have he : e.offset = target := by simpa [Entry.placed, Statement.start] using hstart
        exact absurd (he.trans hxt.symm) (Fin.ne_of_lt (h.orderly.lt hx))
  rw [Entry.placed, token]
  refine .jumpIfNot (fun s hs => ?_) (fun frame hf hstop => ?_) fun hs => ?_
  · obtain ⟨x, hx, rfl⟩ := mem_placed.1 hs
    exact inside x hx
  · obtain ⟨rest, rfl⟩ := List.head?_eq_some_iff.1 hf
    exact beq_eq_false_iff_ne.1 hends hstop
  · subst hs
    rcases h.addressed rfl e (List.mem_cons_self ..) condition target token with
      ⟨x, hx, hxt⟩ | hlt | hlt
    · rcases List.mem_cons.1 hx with rfl | hx
      · exact Nat.le_of_eq (congrArg Fin.val hxt.symm)
      · exact absurd hxt (inside x hx)
    · have hlast := List.getLast?_eq_some_getLast (List.cons_ne_nil e l)
      rw [Block.endsAt, Block.last?, placed, List.getLast?_map, hlast] at hends
      exact absurd (hlt _ (List.getLast_mem _)) (of_decide_eq_false hends)
    · exact Nat.le_of_lt (hlt e (List.mem_cons_self ..))

/-! ### The list of shapes is complete -/

/-- No loop around an instruction exits back to it. -/
theorem Gotos.loopExit?_start (h : Gotos scope (e :: l)) {frame : Frame}
    (hstop : e.offset < frame.stop) : Scope.loopExit? (frame :: scope) e.offset = none := by
  rw [Scope.loopExit?, List.find?_eq_none]
  intro f hf hp
  simp only [Bool.and_eq_true, beq_iff_eq] at hp
  have hlt : e.offset < f.stop := by
    rcases List.mem_cons.1 hf with rfl | hf
    · exact hstop
    · exact h.inside f hf e (List.mem_cons_self ..)
  exact absurd hp.2 (Fin.ne_of_lt hlt).symm

/-- A second branch is the code up to where the jump over it leads. -/
theorem exists_of_secondBranchEnd? {x : Offset} {after : Nat} (h : Gotos scope (front ++ behind))
    (hsecond : Block.secondBranchEnd? ⟨scope, placed scope (front ++ behind)⟩ front.length x =
      some after) :
    ∃ o other post, behind = o :: other ++ post ∧ scope.loopExit? x = none ∧
      Leads scope x (front ++ o :: other) post := by
  obtain ⟨hlt, -, exit, hfind⟩ := Block.lt_of_secondBranchEnd? hsecond
  obtain ⟨front', post, heq, rfl, leads⟩ := leads_of_find? h hfind
  rcases List.append_eq_append_iff.1 heq with ⟨other, rfl, rfl⟩ | ⟨rest, hrest, -⟩
  · cases other with
    | nil => simp at hlt
    | cons o other => exact ⟨o, other, post, rfl, exit, leads⟩
  · have hlen := congrArg List.length hrest
    rw [List.length_append] at hlen
    omega

/-- What can be left of a conditional jump that leads forward, its body and the code behind, given
what can be left of shorter code. -/
theorem recovers_of_leads {body post : Listing} (h : Gotos scope (e :: body ++ post))
    (token : e.token = .jumpIfNot condition target) (leads : Leads scope target (e :: body) post)
    (shorter : ∀ {inner : Scope} {m : Listing}, m.length < (e :: body ++ post).length →
      Gotos inner m → Recovers inner m (recovered inner m)) :
    Recovers scope (e :: body ++ post) (recovered scope (e :: body ++ post)) := by
  have below : ∀ x ∈ body, x.offset < target := fun x hx => leads.before x (List.mem_cons_of_mem _ hx)
  have sublist : body.Sublist (e :: body ++ post) :=
    (List.sublist_cons_self e body).trans (List.sublist_append_left _ _)
  have inner {frame : Frame} {m : Listing} (hm : m.Sublist body)
      (hstop : ∀ x ∈ m, x.offset < frame.stop) :
      Recovers (frame :: scope) m (recovered (frame :: scope) m) := by
    have := hm.length_le
    exact shorter (by simp; omega) (h.inner (hm.trans sublist) hstop)
  have hpost : post.length < (e :: body ++ post).length := by
    simp only [List.length_append, List.length_cons]
    omega
  by_cases back : body.getLast?.map Entry.token = some (.jump e.offset)
  · obtain ⟨j, hj, hjt⟩ := Option.map_eq_some_iff.1 back
    obtain ⟨front, rfl⟩ := List.getLast?_eq_some_iff.1 hj
    have stuck := h.loopExit?_start (show e.offset < Frame.stop ⟨.whileLoop, e.offset, target⟩ from
      leads.before e (List.mem_cons_self ..))
    rw [recovered_loop h.orderly token leads back]
    exact .loop token leads hjt stuck (inner (List.Sublist.refl _) below) (shorter hpost h.right)
  by_cases across : ∃ x after, body.getLast?.map Entry.token = some (.jump x) ∧
      Block.secondBranchEnd? ⟨scope, placed scope (e :: body ++ post)⟩ (e :: body).length x = some after
  · obtain ⟨x, after, hx, hsecond⟩ := across
    obtain ⟨j, hj, hjt⟩ := Option.map_eq_some_iff.1 hx
    obtain ⟨front, rfl⟩ := List.getLast?_eq_some_iff.1 hj
    obtain ⟨o, other, post, rfl, exit, leads'⟩ := exists_of_secondBranchEnd? h hsecond
    have ne_start : x ≠ e.offset := by
      rintro rfl
      exact back hx
    have hassoc : e :: (front ++ [j]) ++ (o :: other ++ post) =
        e :: front ++ [j] ++ o :: other ++ post := by simp
    rw [hassoc] at h ⊢
    rw [recovered_alternative h.orderly token leads hjt ne_start exit rfl leads']
    have beforeJump : ∀ y ∈ front, y.offset < j.offset := fun y hy =>
      h.orderly.left.left.lt_of_append (List.mem_cons_of_mem e hy) (List.mem_singleton.2 rfl)
    have beforeEnd : ∀ y ∈ o :: other, y.offset < x := fun y hy =>
      leads'.before y (List.mem_append_right _ hy)
    have sublistOther : (o :: other).Sublist (e :: front ++ [j] ++ o :: other ++ post) :=
      (List.sublist_append_right ..).trans (List.sublist_append_left ..)
    exact .alternative token leads hjt rfl leads' (inner (List.sublist_append_left ..) beforeJump)
      (shorter (by simp; omega) (h.inner sublistOther beforeEnd)) (shorter (by simp; omega) h.right)
  · have single (x : Offset) (hx : (e :: body).getLast?.map Entry.token = some (.jump x)) :
        x ≠ e.offset ∧ Block.secondBranchEnd? ⟨scope, placed scope (e :: body ++ post)⟩
          (e :: body).length x = none := by
      by_cases hbody : body = []
      · subst hbody
        rw [List.getLast?_singleton, Option.map_some, token] at hx
        cases hx
      rw [List.getLast?_cons_of_ne_nil hbody] at hx
      constructor
      · rintro rfl
        exact back hx
      · exact Option.eq_none_iff_forall_ne_some.2 fun after h => across ⟨x, after, hx, h⟩
    rw [recovered_conditional h.orderly token leads single]
    exact .conditional token leads (inner (List.Sublist.refl _) below) (shorter hpost h.right)

/-- **Every shape is on the list.** -/
theorem recovers (h : Gotos scope l) : Recovers scope l (recovered scope l) := by
  induction hn : l.length using Nat.strongRecOn generalizing scope l with
  | ind n ih =>
    subst hn
    cases l with
    | nil =>
      rw [recovered_nil]
      exact .nil
    | cons e l =>
      have tail : Gotos scope l := (show Gotos scope ([e] ++ l) from h).right
      have hl : Recovers scope l (recovered scope l) := ih _ (Nat.lt_succ_self _) tail rfl
      have goto := h.isGoto e (List.mem_cons_self ..)
      have stays (dormant : Block.Dormant scope (placed scope l) (e.placed scope)) :
          Recovers scope (e :: l) (recovered scope (e :: l)) := by
        rw [recovered_cons h.orderly dormant fun hnext => ?_]
        · exact .stays hl
        · cases token : e.token with
          | iteratorNext => rw [token] at goto; cases goto
          | _ => rw [token] at hnext; cases hnext
      cases token : e.token with
      | jump target =>
        cases exit : scope.loopExit? target with
        | none =>
          refine stays ?_
          rw [Entry.placed, token]
          exact .jump exit
        | some frame =>
          rw [recovered_leave h.orderly token exit]
          exact .leave token exit hl
      | jumpIfNot condition target =>
        by_cases hfind : ∃ k,
            Block.find? ⟨scope, placed scope (e :: l)⟩ target 0 = some (k + 1)
        · obtain ⟨k, hfind⟩ := hfind
          obtain ⟨front, behind, heq, hlen, leads⟩ := leads_of_find? h hfind
          obtain ⟨x, body, rfl⟩ := List.exists_cons_of_length_eq_add_one hlen
          obtain ⟨rfl, rfl⟩ := List.cons.inj heq
          exact recovers_of_leads h token leads fun hlt hm => ih _ hlt hm rfl
        · refine stays (dormant_of_find? h token fun k hk => ?_)
          cases k with
          | zero => rfl
          | succ k => exact absurd ⟨k, hk⟩ hfind
      | expression | ret | retValue => exact stays (.still (by rw [isPlain_placed, token]; rfl))
      | _ => rw [token] at goto; cases goto

/-! ### Jumps back -/

/-- The last statement is the jump `j`, or one with a jump in it. -/
def Stuck (scope : Scope) (j : Entry) (t : List Statement) : Prop :=
  t.getLast? = some (j.placed scope) ∨
    ∃ s, t.getLast? = some s ∧ s.token? = none ∧ s.any Statement.isRawJump = true

theorem Stuck.cons {j : Entry} {t : List Statement} (h : Stuck scope j t) (s : Statement) :
    Stuck scope j (s :: t) := by
  rcases h with h | ⟨x, h, hx⟩
  · exact .inl (by rw [List.getLast?_cons, h]; rfl)
  · exact .inr ⟨x, by rw [List.getLast?_cons, h]; rfl, hx⟩

theorem Stuck.anyOf {j : Entry} {t : List Statement} (h : Stuck scope j t)
    (token : j.token = .jump target) : Statement.anyOf Statement.isRawJump t = true := by
  rw [Statement.anyOf_eq_any, List.any_eq_true]
  rcases h with h | ⟨s, h, -, hs⟩
  · refine ⟨_, List.mem_of_getLast? h, ?_⟩
    simp [Entry.placed, token, Statement.any, Statement.isRawJump, Statement.isPlain,
      Statement.token?, Token.isJump]
  · exact ⟨s, List.mem_of_getLast? h, hs⟩

/-- A composite statement at the end with a jump in it. -/
theorem Stuck.of_children {j : Entry} {start stop : Offset} {outer inner : Scope} {head : Head}
    {children : List Statement} (h : Statement.anyOf Statement.isRawJump children = true) :
    Stuck scope j [.composite start outer head stop inner children] :=
  .inr ⟨_, rfl, rfl, by simp [Statement.any, h]⟩

theorem last_of_append {j : Entry} (h : (l ++ m).getLast? = some j) :
    m.getLast? = some j ∨ m = [] ∧ l.getLast? = some j := by
  by_cases hm : m = []
  · rw [hm, List.append_nil] at h
    exact .inr ⟨hm, h⟩
  · rw [List.getLast?_append, List.getLast?_eq_some_getLast hm, Option.some_or] at h
    exact .inl ((List.getLast?_eq_some_getLast hm).trans h)

theorem last_of_cons {j : Entry} (h : (e :: l).getLast? = some j) (hj : e.token ≠ j.token) :
    l.getLast? = some j := by
  rcases last_of_append (show ([e] ++ l).getLast? = some j from h) with hl | ⟨-, he⟩
  · exact hl
  · cases he
    exact absurd rfl hj

/-- A jump at the end of code that leads in front of it, and out of no loop, stays behind all else
or has come into a composite statement. -/
theorem Recovers.stuck {t : List Statement} (h : Recovers scope l t) {j : Entry}
    (last : l.getLast? = some j) (token : j.token = .jump target)
    (exit : scope.loopExit? target = none) (below : ∀ x ∈ l, target < x.offset) :
    Stuck scope j t := by
  induction h with
  | nil => cases last
  | @stays scope e l t h ih =>
    rcases last_of_append (show ([e] ++ l).getLast? = some j from last) with hl | ⟨rfl, he⟩
    · exact (ih hl exit fun x hx => below x (List.mem_cons_of_mem _ hx)).cons _
    · cases he
      cases h
      exact .inl rfl
  | @leave scope e l t x frame he exit' h ih =>
    have hj : e.token ≠ j.token := by
      rw [he, token]
      rintro ⟨⟩
      rw [exit'] at exit
      cases exit
    exact (ih (last_of_cons last hj) exit fun x hx => below x (List.mem_cons_of_mem _ hx)).cons _
  | @conditional scope e body post children t condition x he leads _ hpost ihb ih =>
    rcases last_of_append last with hl | ⟨rfl, hl⟩
    · exact (ih hl exit fun x hx => below x (List.mem_append_right _ hx)).cons _
    · cases hpost
      have hj : e.token ≠ j.token := by
        rw [he, token]
        rintro ⟨⟩
      refine .of_children ((ihb (last_of_cons hl hj) ?_ fun x hx => ?_).anyOf token)
      · rwa [Scope.loopExit?_branch rfl]
      · exact below x (List.mem_append_left _ (List.mem_cons_of_mem _ hx))
  | @loop scope e j' body post children t condition x he leads back _ _ _ ihb ih =>
    rcases last_of_append last with hl | ⟨-, hl⟩
    · exact (ih hl exit fun x hx => below x (List.mem_append_right _ hx)).cons _
    · -- The last instruction is the jump back, which does not lead in front of the loop.
      rw [← List.cons_append, List.getLast?_concat] at hl
      cases hl
      rw [back, Token.jump.injEq] at token
      have hlt := below e (List.mem_append_left _ (List.mem_cons_self ..))
      exact absurd token (Fin.ne_of_lt hlt).symm
  | @alternative scope e j' o body other post children others t condition x stop he leads across first
      leads' _ _ hpost ihb iho ih =>
    rcases last_of_append last with hl | ⟨rfl, hl⟩
    · exact ((ih hl exit fun x hx => below x (List.mem_append_right _ hx)).cons _).cons _
    · cases hpost
      rcases last_of_append hl with hl | ⟨rfl, -⟩
      · refine (Stuck.of_children ((iho hl ?_ fun x hx => ?_).anyOf token)).cons _
        · rwa [Scope.loopExit?_branch rfl]
        · exact below x (List.mem_append_left _ (List.mem_append_right _ hx))
      · cases first

end Listing

end FlowRecovery
