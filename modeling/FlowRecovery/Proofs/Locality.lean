import FlowRecovery.Proofs.Convergence

/-!
# Recovery goes from front to back

If no rewrite will ever be found at the first statement of a block (`Block.Dormant`), the statements
behind it are structured as if it were not there (`recovered_cons`). If a rewrite replaces the first
statements, what it makes is finished at once, and again the statements behind it are structured on
their own (`recovered_of_front`). Both hold for blocks in the order of the code.

So what is left of a block without selections is found by going through it once. The head of a
selection may have to wait for the statements behind it, so no first statement of this kind is dormant.
The equations for the shapes that a rewrite can have are in `FlowRecovery.Proofs.Equations`.
-/

namespace FlowRecovery

/-- The rewrite one place further. -/
def Rewrite.shift (r : Rewrite) : Rewrite := ⟨r.first + 1, r.after + 1, r.made⟩

namespace Block

/-- The statements are in the order of the code. -/
def Ascending (l : List Statement) : Prop := (l.map Statement.start).Pairwise (· < ·)

/-- None of the statements is the head of a selection. -/
def Switchless (l : List Statement) : Prop := ∀ s ∈ l, s.isPlain Token.isSwitch = false

/-- No rewrite is found at a statement, now or after rewrites behind it, where `later` are the
statements behind it. -/
inductive Dormant (scope : Scope) (later : List Statement) : Statement → Prop where
  /-- A statement that is no branch. -/
  | still {s : Statement} (still : s.isPlain Token.isBranch = false) : Dormant scope later s
  /-- A jump that leads out of no loop. -/
  | jump {start : Offset} {stop? : Option Offset} {inner : Scope} {target : Offset}
      (exit : scope.loopExit? target = none) :
      Dormant scope later (.plain start stop? inner (.jump target))
  /-- A conditional jump that does not lead forward in the block. -/
  | jumpIfNot {start : Offset} {stop? : Option Offset} {inner : Scope} {condition : Token}
      {target : Offset} (inside : ∀ s ∈ later, s.start ≠ target)
      (behind : ∀ frame ∈ scope.head?, frame.stop ≠ target) (whole : scope = [] → target ≤ start) :
      Dormant scope later (.plain start stop? inner (.jumpIfNot condition target))
  /-- The head of an iteration that does not exit forward in the block. -/
  | iteration {start : Offset} {stop? : Option Offset} {inner : Scope} {collection : Token}
      {iterator? : Option Token} {target : Offset}
      (inside : ∀ exit, target.next? = some exit → ∀ s ∈ later, s.start ≠ exit)
      (behind : ∀ exit, target.next? = some exit → ∀ frame ∈ scope.head?, frame.stop ≠ exit)
      (whole : ∀ exit, target.next? = some exit → scope = [] → exit ≤ start) :
      Dormant scope later (.plain start stop? inner (.foreachOver collection iterator? target))

variable {scope : Scope} {s : Statement} {l later : List Statement}

theorem Ascending.tail (h : Ascending (s :: l)) : Ascending l := List.Pairwise.of_cons h

theorem Ascending.lt (h : Ascending (s :: l)) {x : Statement} (hx : x ∈ l) : s.start < x.start :=
  (List.pairwise_cons.1 h).1 _ (List.mem_map_of_mem hx)

theorem Ascending.le_of_mem (h : Ascending (s :: l)) {x : Statement} (hx : x ∈ s :: l) :
    s.start ≤ x.start := by
  rcases List.mem_cons.1 hx with rfl | hx
  · exact Nat.le_refl _
  · exact Nat.le_of_lt (h.lt hx)

theorem Ascending.lt_of_append {front : List Statement} (h : Ascending (front ++ l)) {x y : Statement}
    (hx : x ∈ front) (hy : y ∈ l) : x.start < y.start := by
  rw [Ascending, List.map_append] at h
  exact (List.pairwise_append.1 h).2.2 _ (List.mem_map_of_mem hx) _ (List.mem_map_of_mem hy)

theorem Ascending.right {front : List Statement} (h : Ascending (front ++ l)) : Ascending l :=
  h.sublist ((List.sublist_append_right front l).map _)

theorem Ascending.left (h : Ascending (l ++ later)) : Ascending l :=
  h.sublist ((List.sublist_append_left l later).map _)

theorem Ascending.le_last (h : Ascending l) {x y : Statement} (hx : x ∈ l) (hy : l.getLast? = some y) :
    x.start ≤ y.start := by
  obtain ⟨front, rfl⟩ := List.getLast?_eq_some_iff.1 hy
  rcases List.mem_append.1 hx with hx | hx
  · exact Nat.le_of_lt (h.lt_of_append hx (List.mem_singleton.2 rfl))
  · obtain rfl := List.mem_singleton.1 hx
    exact Nat.le_refl _

theorem Switchless.tail (h : Switchless (s :: l)) : Switchless l :=
  fun x hx => h x (List.mem_cons_of_mem _ hx)

/-! ### The front of a block -/

theorem endsAt_eq_false {target : Offset} {b : Block}
    (behind : ∀ frame ∈ b.scope.head?, frame.stop ≠ target)
    (whole : b.scope = [] → ∀ s ∈ b.last?, target ≤ s.start) : b.endsAt target = false := by
  obtain ⟨scope, l⟩ := b
  cases scope with
  | nil =>
    rw [endsAt, Option.any_eq_false]
    intro s hs
    exact decide_eq_false (Nat.not_lt.2 (whole rfl s hs))
  | cons frame _ => exact beq_eq_false_iff_ne.2 (behind frame rfl)

/-- A target that is not that of a statement behind `s`, and not that of the end, leads to `s` at most. -/
theorem le_of_find?_of_inside {front : List Statement} {target : Offset} {first k : Nat}
    (asc : Ascending (front ++ s :: l)) (inside : ∀ x ∈ l, x.start ≠ target)
    (behind : ∀ frame ∈ scope.head?, frame.stop ≠ target) (whole : scope = [] → target ≤ s.start)
    (h : find? ⟨scope, front ++ s :: l⟩ target first = some k) : k ≤ front.length := by
  have hends : endsAt ⟨scope, front ++ s :: l⟩ target = false := by
    refine endsAt_eq_false behind fun hs x hx => Nat.le_trans (whole hs) ?_
    have hlast : (s :: l).getLast? = some x := by
      have hx : (front ++ s :: l).getLast? = some x := hx
      rwa [List.getLast?_append, List.getLast?_eq_some_getLast (List.cons_ne_nil s l),
        Option.some_or, ← List.getLast?_eq_some_getLast] at hx
    exact asc.right.le_of_mem (List.mem_of_getLast? hlast)
  rcases find?_eq_some_iff.1 h with ⟨he, -⟩ | ⟨-, -, hstart, -⟩
  · rw [hends] at he
    cases he
  refine Nat.le_of_not_lt fun hlt => ?_
  obtain ⟨x, hx, hxs⟩ := Option.map_eq_some_iff.1 hstart
  obtain ⟨d, rfl⟩ : ∃ d, k = front.length + (d + 1) := ⟨k - front.length - 1, by omega⟩
  rw [List.getElem?_append_right (Nat.le_add_right ..), Nat.add_sub_cancel_left,
    List.getElem?_cons_succ] at hx
  exact inside x (List.mem_of_getElem? hx) hxs

/-- No rewrite is found at a dormant statement. -/
theorem rewriteAt?_of_dormant {b : Block} {front : List Statement} (hb : b.statements = front ++ s :: l)
    (asc : Ascending b.statements) (h : Dormant b.scope l s) : b.rewriteAt? front.length = none := by
  obtain ⟨scope, statements⟩ := b
  subst hb
  rw [Option.eq_none_iff_forall_ne_some]
  intro r hr
  have hi := rewriteAt_of_rewriteAt? hr
  have here : (front ++ s :: l)[front.length]? = some s := by simp
  obtain ⟨t, ht, hbranch⟩ := hi.isBranch
  have token (t : Token) : tokenAt? ⟨scope, front ++ s :: l⟩ front.length = some t → s.token? = some t :=
    fun ht => by simpa [tokenAt?] using ht
  cases h with
  | still still =>
    rw [Statement.isPlain, token t ht] at still
    rw [show t.isBranch = false from still] at hbranch
    cases hbranch
  | jump exit =>
    cases token t ht
    cases hi with
    | leave ht exit' | advance ht exit' =>
      cases token _ ht
      exact absurd exit' (by simp [exit])
    | conditional ht | loop ht | alternative ht => cases token _ ht
    | @iteration _ iterator? _ _ _ ht => cases iterator? <;> cases token _ ht
    | selection here' ht => cases here.symm.trans here'; cases ht
  | jumpIfNot inside behind whole =>
    cases token t ht
    cases hi with
    | conditional ht found forward | loop ht found forward | alternative ht found forward =>
      cases token _ ht
      have := le_of_find?_of_inside asc inside behind whole found
      omega
    | leave ht | advance ht => cases token _ ht
    | @iteration _ iterator? _ _ _ ht => cases iterator? <;> cases token _ ht
    | selection here' ht => cases here.symm.trans here'; cases ht
  | @iteration _ _ _ _ iterator? _ inside behind whole =>
    cases hi with
    | iteration ht next found =>
      obtain rfl := Token.target_of_foreachOver_eq (Option.some.inj (token _ ht))
      have := le_of_find?_of_inside asc (inside _ next) (behind _ next) (whole _ next) found
      have := le_of_find? found (by simp [length])
      omega
    | conditional ht | loop ht | alternative ht | leave ht | advance ht =>
      have := token _ ht
      cases iterator? <;> cases this
    | selection here' ht =>
      cases here.symm.trans here'
      cases iterator? <;> cases ht

/-- No rewrite is found at a dormant statement in front. -/
theorem rewriteAt?_zero_of_dormant (asc : Ascending (s :: l)) (h : Dormant scope l s) :
    rewriteAt? ⟨scope, s :: l⟩ 0 = none :=
  rewriteAt?_of_dormant (show (Block.mk scope (s :: l)).statements = [] ++ s :: l from rfl) asc h

/-- A target at which nothing is found behind `s` is that of no statement there, and not that of the end.
In a whole body, where a target is that of a statement or lies behind all of them, it is not behind `s`. -/
theorem of_find?_le {front : List Statement} {target : Offset} {first : Nat}
    (asc : Ascending (front ++ s :: l)) (hfirst : first ≤ front.length + 1)
    (h : ∀ k, find? ⟨scope, front ++ s :: l⟩ target first = some k → k ≤ front.length)
    (addressed : scope = [] → target ≤ s.start ∨ (∃ x ∈ l, x.start = target) ∨
      ∀ x ∈ front ++ s :: l, x.start < target) :
    (∀ x ∈ l, x.start ≠ target) ∧ (∀ frame ∈ scope.head?, frame.stop ≠ target) ∧
      (scope = [] → target ≤ s.start) := by
  have hends : endsAt ⟨scope, front ++ s :: l⟩ target = false := by
    rw [← Bool.not_eq_true]
    intro hends
    have := h _ (find?_eq_some_iff.2 (.inl ⟨hends, rfl⟩))
    simp only [length, List.length_append, List.length_cons] at this
    omega
  have inside : ∀ x ∈ l, x.start ≠ target := by
    rintro x hx rfl
    obtain ⟨before, after, rfl⟩ := List.append_of_mem hx
    -- The offsets increase, so `x` is the only statement that starts there.
    have place : find? ⟨scope, front ++ s :: (before ++ x :: after)⟩ x.start first =
        some (front ++ s :: before).length := by
      rw [← List.cons_append, ← List.append_assoc] at asc hends ⊢
      refine find?_eq_some_iff.2 (.inr ⟨hends, by simp; omega, by simp, fun j _ hj => ?_⟩)
      rw [List.getElem?_append_left hj, List.getElem?_eq_getElem hj, Option.map_some, ne_eq,
        Option.some.injEq]
      exact Fin.ne_of_lt (asc.lt_of_append (List.getElem_mem hj) (List.mem_cons_self ..))
    have := h _ place
    simp only [List.length_append, List.length_cons] at this
    omega
  refine ⟨inside, fun frame hf hstop => ?_, fun hscope => ?_⟩
  · obtain ⟨outer, rfl⟩ := List.head?_eq_some_iff.1 hf
    exact beq_eq_false_iff_ne.1 hends hstop
  · rcases addressed hscope with hle | ⟨x, hx, heq⟩ | hlt
    · exact hle
    · exact absurd heq (inside x hx)
    · subst hscope
      have hlast := List.getLast?_eq_some_getLast (List.append_ne_nil_of_right_ne_nil front
        (List.cons_ne_nil s l))
      rw [endsAt, last?, hlast] at hends
      exact absurd (hlt _ (List.getLast_mem _)) (of_decide_eq_false hends)

/-- A statement other than the head of a selection is dormant if no rewrite is found at it. -/
theorem dormant_of_rewriteAt?_eq_none {b : Block} {front : List Statement}
    (hb : b.statements = front ++ s :: l) (asc : Ascending b.statements)
    (h : b.rewriteAt? front.length = none) (switchless : s.isPlain Token.isSwitch = false)
    (addressed : b.scope = [] → ∀ t n, s.token? = some t → t.goal? = some n → n ≤ s.start.val ∨
      (∃ x ∈ l, x.start.val = n) ∨ ∀ x ∈ b.statements, x.start.val < n) : Dormant b.scope l s := by
  obtain ⟨scope, statements⟩ := b
  subst hb
  cases s with
  | escape | composite => exact .still rfl
  | plain start stop? inner t =>
    have here : (front ++ Statement.plain start stop? inner t :: l)[front.length]? =
        some (.plain start stop? inner t) := by simp
    have iteration {collection : Token} (iterator? : Option Token) {target : Offset}
        (ht : t = .foreachOver collection iterator? target)
        (h : iterationRewrite? ⟨scope, front ++ Statement.plain start stop? inner t :: l⟩ front.length
          collection iterator? target = none) :
        Dormant scope l (.plain start stop? inner (.foreachOver collection iterator? target)) := by
      have nowhere (exit : Offset) (next : target.next? = some exit) :=
        of_find?_le asc (Nat.le_refl _)
          (fun k (hk : find? ⟨scope, _⟩ exit _ = some k) => by
            simp [iterationRewrite?, next, hk] at h)
          fun hscope => by
            have := addressed hscope t _ rfl (ht ▸ Token.goal?_foreachOver ..)
            simpa only [← Offset.val_of_next? next, Fin.val_inj, Fin.le_def, Fin.lt_def] using this
      exact .iteration (fun exit next => (nowhere exit next).1) (fun exit next => (nowhere exit next).2.1)
        fun exit next => (nowhere exit next).2.2
    rw [rewriteAt?, here] at h
    cases t with
    | jumpIfNot condition target =>
      obtain ⟨inside, behind, whole⟩ := of_find?_le asc (Nat.zero_le _)
        (fun k (hk : find? ⟨scope, _⟩ target _ = some k) => Nat.le_of_not_lt fun hlt => by
          simp [Statement.token?, branchRewrite?, hk, hlt] at h)
        fun hscope => by
          have := addressed hscope _ _ rfl rfl
          simpa only [Fin.val_inj, Fin.le_def, Fin.lt_def] using this
      exact .jumpIfNot inside behind whole
    | jump target =>
      exact .jump (by simpa [Statement.token?, escapeRewrite?] using h)
    | foreach collection target => exact iteration none rfl h
    | foreachWith collection iterator target => exact iteration (some iterator) rfl h
    | switch => cases switchless
    | _ => exact .still rfl

/-- In a whole body, a dormant statement stays so with any statements behind it. -/
theorem Dormant.whole (h : Dormant [] later s) (asc : Ascending (s :: l)) : Dormant [] l s := by
  have outside {target : Offset} (hle : target ≤ s.start) (x : Statement) (hx : x ∈ l) :
      x.start ≠ target :=
    (Fin.ne_of_lt (Nat.lt_of_le_of_lt hle (asc.lt hx))).symm
  cases h with
  | still still => exact .still still
  | jump exit => exact .jump exit
  | jumpIfNot _ _ whole => exact .jumpIfNot (outside (whole rfl)) nofun whole
  | iteration _ _ whole =>
    exact .iteration (fun exit next => outside (whole exit next rfl)) (fun _ _ => nofun) whole

/-! ### The places behind the front -/

theorem endsAt_cons (hl : l ≠ []) (target : Offset) :
    endsAt ⟨scope, s :: l⟩ target = endsAt ⟨scope, l⟩ target := by
  cases scope with
  | nil =>
    obtain ⟨x, rest, rfl⟩ := List.exists_cons_of_ne_nil hl
    simp [endsAt, last?, List.getLast?_cons_cons]
  | cons frame _ => rfl

theorem find?_succ (hl : l ≠ []) (target : Offset) (first : Nat) :
    find? ⟨scope, s :: l⟩ target (first + 1) = (find? ⟨scope, l⟩ target first).map (· + 1) := by
  unfold find?
  rw [endsAt_cons hl]
  split
  · rfl
  · simp [Function.comp_def, Nat.add_assoc]

theorem find?_zero_of_ne (hl : l ≠ []) {target : Offset} (hs : s.start ≠ target) :
    find? ⟨scope, s :: l⟩ target 0 = (find? ⟨scope, l⟩ target 0).map (· + 1) := by
  unfold find?
  rw [endsAt_cons hl]
  split
  · rfl
  · simp [List.findIdx?_cons, hs, Function.comp_def]

theorem slice_succ (i j : Nat) :
    slice ⟨scope, s :: l⟩ (i + 1) (j + 1) = slice ⟨scope, l⟩ i j := by
  simp [slice]

theorem startAt_succ (i : Nat) : startAt ⟨scope, s :: l⟩ (i + 1) = startAt ⟨scope, l⟩ i := by
  simp [startAt]

theorem jumpTargetAt?_succ (i : Nat) :
    jumpTargetAt? ⟨scope, s :: l⟩ (i + 1) = jumpTargetAt? ⟨scope, l⟩ i := by
  simp [jumpTargetAt?]

theorem secondBranchEnd?_succ (hl : l ≠ []) (split : Nat) (target : Offset) :
    secondBranchEnd? ⟨scope, s :: l⟩ (split + 1) target =
      (secondBranchEnd? ⟨scope, l⟩ split target).map (· + 1) := by
  unfold secondBranchEnd?
  split
  · rfl
  · rw [find?_succ hl]
    cases find? ⟨scope, l⟩ target (split + 1) with
    | none => rfl
    | some after => by_cases h : split < after <;> simp [Option.filter, h]

theorem branchRewrite_succ (hl : l ≠ []) (i : Nat) (condition : Token) (target : Offset)
    {split : Nat} (hsplit : 0 < split) :
    branchRewrite ⟨scope, s :: l⟩ (i + 1) condition target (split + 1) =
      (branchRewrite ⟨scope, l⟩ i condition target split).shift := by
  obtain ⟨k, rfl⟩ : ∃ k, split = k + 1 := ⟨split - 1, by omega⟩
  simp only [branchRewrite, startAt_succ, slice_succ, Nat.add_sub_cancel, jumpTargetAt?_succ,
    secondBranchEnd?_succ hl]
  cases jumpTargetAt? ⟨scope, l⟩ k with
  | none => rfl
  | some x =>
    dsimp only
    split
    · rfl
    · cases secondBranchEnd? ⟨scope, l⟩ (k + 1) x with
      | none => rfl
      | some after =>
        simp only [Option.map_some, Rewrite.shift, slice_succ]

theorem branchRewrite?_succ (asc : Ascending (s :: l)) (hl : l ≠ []) (i : Nat) (condition : Token)
    (target : Offset) :
    branchRewrite? ⟨scope, s :: l⟩ (i + 1) condition target =
      (branchRewrite? ⟨scope, l⟩ i condition target).map Rewrite.shift := by
  unfold branchRewrite?
  by_cases hs : s.start = target
  · -- The first statement starts there, so nothing behind it does.
    have hnone (split : Nat) (h : find? ⟨scope, l⟩ target 0 = some split) :
        endsAt ⟨scope, l⟩ target = true := by
      rcases find?_eq_some_iff.1 h with ⟨he, -⟩ | ⟨-, -, hstart, -⟩
      · exact he
      · obtain ⟨x, hx, hxs⟩ := Option.map_eq_some_iff.1 hstart
        exact absurd (hs.trans hxs.symm) (Fin.ne_of_lt (asc.lt (List.mem_of_getElem? hx)))
    cases he : endsAt ⟨scope, l⟩ target with
    | true =>
      have hcons : find? ⟨scope, s :: l⟩ target 0 = some (l.length + 1) := by
        simp [find?, endsAt_cons hl, he, length]
      have htail : find? ⟨scope, l⟩ target 0 = some l.length := by simp [find?, he, length]
      simp only [hcons, htail, Nat.add_lt_add_iff_right]
      split
      · rw [branchRewrite_succ hl _ _ _ (by omega)]; rfl
      · rfl
    | false =>
      have hcons : find? ⟨scope, s :: l⟩ target 0 = some 0 := by
        simp [find?, endsAt_cons hl, he, List.findIdx?_cons, hs]
      have htail : find? ⟨scope, l⟩ target 0 = none := by
        rw [Option.eq_none_iff_forall_ne_some]
        intro split h
        rw [hnone split h] at he
        cases he
      simp [hcons, htail]
  · rw [find?_zero_of_ne hl hs]
    cases find? ⟨scope, l⟩ target 0 with
    | none => rfl
    | some split =>
      simp only [Option.map_some, Nat.add_lt_add_iff_right]
      split
      · rw [branchRewrite_succ hl _ _ _ (by omega)]; rfl
      · rfl

theorem iterationRewrite?_succ (hl : l ≠ []) (i : Nat) (collection : Token)
    (iterator? : Option Token) (target : Offset) :
    iterationRewrite? ⟨scope, s :: l⟩ (i + 1) collection iterator? target =
      (iterationRewrite? ⟨scope, l⟩ i collection iterator? target).map Rewrite.shift := by
  unfold iterationRewrite?
  cases target.next? with
  | none => rfl
  | some exit =>
    simp only [find?_succ hl, Option.map_map]
    cases find? ⟨scope, l⟩ exit (i + 1) with
    | none => rfl
    | some after =>
      simp only [Option.map_some, Function.comp, Rewrite.shift, startAt_succ, slice_succ]

/-- A jump behind the first statement, unless it leads out of a loop directly behind the step of an
iterator. -/
theorem escapeRewrite?_succ {i : Nat} {target : Offset}
    (h : i = 0 → s.isPlain Token.isIteratorNext = true → scope.loopExit? target = none) :
    escapeRewrite? ⟨scope, s :: l⟩ (i + 1) target =
      (escapeRewrite? ⟨scope, l⟩ i target).map Rewrite.shift := by
  unfold escapeRewrite?
  cases exit : scope.loopExit? target with
  | none => rfl
  | some frame =>
    have hnext : followsNext ⟨scope, s :: l⟩ (i + 1) = followsNext ⟨scope, l⟩ i := by
      cases i with
      | zero =>
        have hs : s.isPlain Token.isIteratorNext = false := by
          rw [← Bool.not_eq_true]
          intro hs
          rw [h rfl hs] at exit
          cases exit
        simp [followsNext, hs]
      | succ i => simp [followsNext]
    simp only [hnext, Option.map_some, startAt_succ]
    split
    · next hf =>
      cases i with
      | zero => simp [followsNext] at hf
      | succ i => rfl
    · rfl

theorem openSelectionEnd_succ (hl : l ≠ []) (first : Nat) :
    openSelectionEnd ⟨scope, s :: l⟩ (first + 1) =
      ((openSelectionEnd ⟨scope, l⟩ first).1 + 1, (openSelectionEnd ⟨scope, l⟩ first).2) := by
  obtain ⟨x, rest, rfl⟩ := List.exists_cons_of_ne_nil hl
  have hlast : last? ⟨scope, s :: x :: rest⟩ = last? ⟨scope, x :: rest⟩ := List.getLast?_cons_cons
  have hstop : stop ⟨scope, s :: x :: rest⟩ = stop ⟨scope, x :: rest⟩ := by
    cases scope with
    | nil => simp only [stop, hlast]
    | cons frame _ => rfl
  have hlength : length ⟨scope, s :: x :: rest⟩ = length ⟨scope, x :: rest⟩ + 1 := rfl
  have hpos : 0 < length ⟨scope, x :: rest⟩ := Nat.succ_pos _
  unfold openSelectionEnd
  rw [hlast, hstop, hlength]
  generalize length ⟨scope, x :: rest⟩ = n at hpos
  split
  · simp only [Nat.add_lt_add_iff_right]
    split
    · simp only [Prod.mk.injEq, and_true]
      omega
    · rfl
  · rfl

theorem selectionEndFrom?_succ (hl : l ≠ []) (first : Nat) (rest : List Statement) :
    ∀ (previous : Statement) (j : Nat),
      selectionEndFrom? ⟨scope, s :: l⟩ (first + 1) previous (j + 1) rest =
        (selectionEndFrom? ⟨scope, l⟩ first previous j rest).map fun (after, stop) => (after + 1, stop) := by
  induction rest with
  | nil => exact fun _ _ => congrArg some (openSelectionEnd_succ hl first)
  | cons x rest ih =>
    intro previous j
    simp only [selectionEndFrom?]
    split
    · rfl
    · split
      · rw [find?_succ hl, Option.map_map, Option.map_map]
        rfl
      · exact ih x (j + 1)

theorem selectionRewrite?_succ (hl : l ≠ []) (i : Nat) (x : Statement) (discriminant : Token) :
    selectionRewrite? ⟨scope, s :: l⟩ (i + 1) x discriminant =
      (selectionRewrite? ⟨scope, l⟩ i x discriminant).map Rewrite.shift := by
  unfold selectionRewrite?
  rw [selectionEndFrom?_succ hl, List.drop_succ_cons, Option.map_map, Option.map_map]
  congr 1
  funext (after, stop)
  simp only [Function.comp, Rewrite.shift, slice_succ]

/-- A rewrite behind a first statement that is no step of an iterator before a jump out of a loop. -/
theorem rewriteAt?_succ (asc : Ascending (s :: l))
    (step : s.isPlain Token.isIteratorNext = true → ∀ x ∈ l.head?, ∀ target,
      x.jumpTarget? = some target → scope.loopExit? target = none)
    (i : Nat) :
    rewriteAt? ⟨scope, s :: l⟩ (i + 1) = (rewriteAt? ⟨scope, l⟩ i).map Rewrite.shift := by
  unfold rewriteAt?
  rw [List.getElem?_cons_succ]
  cases hx : l[i]? with
  | none => rfl
  | some x =>
    have hmem := List.mem_of_getElem? hx
    have hl := List.ne_nil_of_mem hmem
    dsimp only
    cases ht : x.token? with
    | none => rfl
    | some t =>
      cases t with
      | jumpIfNot => exact branchRewrite?_succ asc hl ..
      | jump target =>
        refine escapeRewrite?_succ fun hi hnext => ?_
        subst hi
        refine step hnext x (by rw [List.head?_eq_getElem?, hx]; rfl) target ?_
        rw [Statement.jumpTarget?, ht]
        rfl
      | foreach => exact iterationRewrite?_succ hl ..
      | foreachWith => exact iterationRewrite?_succ hl ..
      | switch => exact selectionRewrite?_succ hl ..
      | _ => rfl

/-! ### The order of the code -/

/-- What a rewrite makes starts where statements that it replaces start. -/
theorem RewriteAt.sublist_made {b : Block} {i : Nat} {r : Rewrite} (h : RewriteAt b i r) :
    (r.made.map Statement.start).Sublist ((b.slice r.first r.after).map Statement.start) := by
  obtain ⟨hia, hle⟩ := h.bounds
  have single {first after j : Nat} (hf : first ≤ j) (hj : j < after) (hjb : j < b.length) :
      [b.startAt j].Sublist ((b.slice first after).map Statement.start) := by
    obtain ⟨x, hx⟩ : ∃ x, b.statements[j]? = some x := ⟨_, List.getElem?_eq_getElem hjb⟩
    rw [startAt_of_getElem? hx, List.singleton_sublist]
    refine List.mem_map_of_mem (List.mem_of_getElem? (i := j - first) ?_)
    rwa [getElem?_slice (by omega), show first + (j - first) = j by omega]
  cases h with
  | conditional | loop | iteration | leave =>
    exact single (Nat.le_refl i) hia (Nat.lt_of_lt_of_le hia hle)
  | selection here =>
    have := single (Nat.le_refl i) hia (Nat.lt_of_lt_of_le hia hle)
    rwa [startAt_of_getElem? here] at this
  | advance => exact single (Nat.sub_le i 1) hia (Nat.lt_of_lt_of_le hia hle)
  | @alternative _ _ _ split after token found forward across ne_start second =>
    obtain ⟨hlt, hafter, -⟩ := lt_of_secondBranchEnd? second
    dsimp only
    rw [b.slice_append (Nat.le_of_lt forward) (Nat.le_of_lt hlt), List.map_append]
    exact (single (Nat.le_refl i) forward (by omega)).append
      (single (Nat.le_refl split) hlt (by omega))

theorem map_start_finished_adopt (scope : Scope) (made : List Statement) :
    ((Statement.adoptAll scope made).map Statement.finished).map Statement.start =
      made.map Statement.start := by
  rw [Statement.adoptAll_eq_map, List.map_map, List.map_map]
  refine List.map_congr_left fun s _ => ?_
  cases s <;> simp [Statement.adopt, Statement.finished, Statement.start]

/-- A rewrite keeps the order and adds no offset. -/
theorem RewriteAt.sublist_rewritten {b : Block} {i : Nat} {r : Rewrite} (h : RewriteAt b i r) :
    ((b.rewritten r).statements.map Statement.start).Sublist (b.statements.map Statement.start) := by
  have hbounds := h.bounds
  have hfirst := h.first_le
  conv => rhs; rw [← b.take_slice_drop (i := r.first) (j := r.after) (by omega)]
  simp only [rewritten, List.map_append, map_start_finished_adopt, List.append_assoc]
  exact (List.Sublist.refl _).append (h.sublist_made.append (List.Sublist.refl _))

/-- From the first place that is replaced on, everything starts where something has started there. -/
theorem RewriteAt.start_mem {b : Block} {i : Nat} {r : Rewrite} (h : RewriteAt b i r) {x : Statement}
    (hx : x ∈ (Statement.adoptAll b.scope r.made).map Statement.finished ++ b.statements.drop r.after) :
    x.start ∈ (b.statements.drop r.first).map Statement.start := by
  have hle : r.first ≤ r.after := Nat.le_of_lt (Nat.lt_of_le_of_lt h.first_le h.bounds.1)
  have hmem := List.mem_map_of_mem (f := Statement.start) hx
  rw [List.map_append, map_start_finished_adopt] at hmem
  rw [← b.slice_append_drop hle, List.map_append]
  exact (h.sublist_made.append (List.Sublist.refl _)).subset hmem

theorem RewriteAt.made_ne_nil {b : Block} {i : Nat} {r : Rewrite} (h : RewriteAt b i r) :
    r.made ≠ [] := by
  cases h <;> exact List.cons_ne_nil _ _

/-- No instruction comes to the front. -/
theorem RewriteAt.front_rewritten {b : Block} {i : Nat} {r : Rewrite} (h : RewriteAt b i r)
    {x : Statement} (hx : (b.rewritten r).statements.head? = some x)
    (hp : x.isPlain (fun _ => true) = true) : b.statements.head? = some x := by
  obtain ⟨m, made, hmade⟩ := List.exists_cons_of_ne_nil h.made_ne_nil
  have hlt := h.bounds
  have hfirst := h.first_le
  cases hf : r.first with
  | zero =>
    have hm : (m.adopt b.scope).finished = x := by
      simpa [rewritten, hf, hmade, Statement.adoptAll] using hx
    rw [← hm, isPlain_finished_adopt _ (h.token?_of_mem (hmade ▸ List.mem_cons_self ..))] at hp
    cases hp
  | succ k =>
    simp only [length] at hlt
    obtain ⟨y, rest, hl⟩ := List.exists_cons_of_length_pos (l := b.statements) (by omega)
    simpa [rewritten, hf, hl] using hx

theorem Dormant.mono (h : Dormant scope l s)
    (hlater : ∀ x ∈ later, x.start ∈ l.map Statement.start) : Dormant scope later s := by
  cases h with
  | still still => exact .still still
  | jump exit => exact .jump exit
  | jumpIfNot inside behind whole =>
    refine .jumpIfNot (fun x hx heq => ?_) behind whole
    obtain ⟨y, hy, hyx⟩ := List.mem_map.1 (hlater x hx)
    exact inside y hy (hyx.trans heq)
  | iteration inside behind whole =>
    refine .iteration (fun exit next x hx heq => ?_) behind whole
    obtain ⟨y, hy, hyx⟩ := List.mem_map.1 (hlater x hx)
    exact inside exit next y hy (hyx.trans heq)

/-! ### From front to back -/

theorem firstRewrite?_of_front {b : Block} {r : Rewrite} (h : b.rewriteAt? 0 = some r) :
    b.firstRewrite? = some r := by
  have hlt := (rewriteAt_of_rewriteAt? h).lt_length
  obtain ⟨n, hn⟩ : ∃ n, b.length = n + 1 := ⟨b.length - 1, by omega⟩
  simp [firstRewrite?, hn, List.range_succ_eq_map, h]

theorem firstRewrite?_of_second {b : Block} {r : Rewrite} (front : b.rewriteAt? 0 = none)
    (h : b.rewriteAt? 1 = some r) : b.firstRewrite? = some r := by
  have hlt := (rewriteAt_of_rewriteAt? h).lt_length
  obtain ⟨n, hn⟩ : ∃ n, b.length = n + 2 := ⟨b.length - 2, by omega⟩
  simp [firstRewrite?, hn, List.range_succ_eq_map, front, h]

theorem firstRewrite?_cons (front : rewriteAt? ⟨scope, s :: l⟩ 0 = none)
    (behind : ∀ i, rewriteAt? ⟨scope, s :: l⟩ (i + 1) =
      (rewriteAt? ⟨scope, l⟩ i).map Rewrite.shift) :
    firstRewrite? ⟨scope, s :: l⟩ = (firstRewrite? ⟨scope, l⟩).map Rewrite.shift := by
  simp only [firstRewrite?, length, List.length_cons, List.range_succ_eq_map, List.findSome?_cons,
    front, List.findSome?_map]
  rw [List.map_findSome?]
  exact congrArg (List.findSome? · _) (funext behind)

theorem rewritten_shift (r : Rewrite) :
    rewritten ⟨scope, s :: l⟩ r.shift = ⟨scope, s :: (rewritten ⟨scope, l⟩ r).statements⟩ := by
  simp [rewritten, Rewrite.shift]

/-- A first statement at which no rewrite is found stays, and what is behind it is structured as if
it were not there. -/
theorem recovered_cons (asc : Ascending (s :: l)) (dormant : Dormant scope l s)
    (step : s.isPlain Token.isIteratorNext = true → ∀ x ∈ l.head?, ∀ target,
      x.jumpTarget? = some target → scope.loopExit? target = none) :
    recovered ⟨scope, s :: l⟩ = ⟨scope, s :: (recovered ⟨scope, l⟩).statements⟩ := by
  have front {b : Block} (hasc : Ascending (s :: b.statements))
      (hdorm : Dormant b.scope b.statements s)
      (hstep : s.isPlain Token.isIteratorNext = true → ∀ x ∈ b.statements.head?, ∀ target,
        x.jumpTarget? = some target → b.scope.loopExit? target = none) :
      firstRewrite? ⟨b.scope, s :: b.statements⟩ = b.firstRewrite?.map Rewrite.shift :=
    firstRewrite?_cons (rewriteAt?_zero_of_dormant hasc hdorm) (rewriteAt?_succ hasc hstep)
  refine recovered_induction
    (P := fun b c => Ascending (s :: b.statements) → Dormant b.scope b.statements s →
      (s.isPlain Token.isIteratorNext = true → ∀ x ∈ b.statements.head?, ∀ target,
        x.jumpTarget? = some target → b.scope.loopExit? target = none) →
      recovered ⟨b.scope, s :: b.statements⟩ = ⟨b.scope, s :: c.statements⟩)
    ?_ ?_ ⟨scope, l⟩ asc dormant step
  · intro b hb hasc hdorm hstep
    refine recovered_of_firstRewrite?_eq_none ?_
    rw [front hasc hdorm hstep, hb]
    rfl
  · intro b r hr _ ih hasc hdorm hstep
    obtain ⟨i, hi⟩ := rewriteAt_of_firstRewrite? hr
    have hfirst : firstRewrite? ⟨b.scope, s :: b.statements⟩ = some r.shift := by
      rw [front hasc hdorm hstep, hr]
      rfl
    rw [recovered_of_firstRewrite? hfirst, rewritten_shift]
    refine ih (hasc.sublist (hi.sublist_rewritten.cons_cons _))
      (hdorm.mono fun x hx => hi.sublist_rewritten.subset (List.mem_map_of_mem hx))
      fun hnext x hx target hjump => ?_
    have hplain : x.isPlain (fun _ => true) = true := by
      cases x with
      | plain => rfl
      | escape | composite => cases hjump
    exact hstep hnext x (hi.front_rewritten hx hplain) target hjump

theorem recovered_append {front : List Statement} (asc : Ascending (front ++ l))
    (still : ∀ s ∈ front, s.isPlain Token.isBranch = false ∧
      s.isPlain Token.isIteratorNext = false) :
    recovered ⟨scope, front ++ l⟩ = ⟨scope, front ++ (recovered ⟨scope, l⟩).statements⟩ := by
  induction front with
  | nil => exact congrArg (Block.mk · _) (scope_recovered ⟨scope, l⟩)
  | cons s front ih =>
    obtain ⟨hbranch, hnext⟩ := still s (List.mem_cons_self ..)
    rw [List.cons_append] at asc ⊢
    rw [recovered_cons asc (.still hbranch) (fun h => by rw [hnext] at h; cases h),
      ih asc.tail fun x hx => still x (List.mem_cons_of_mem _ hx)]
    rfl

/-- If the first rewrite replaces the first statements, the statements behind it are structured on
their own. -/
theorem recovered_of_front {b : Block} {r : Rewrite} (asc : Ascending b.statements)
    (h : b.firstRewrite? = some r) (hfirst : r.first = 0) :
    b.recovered =
      ⟨b.scope, (Statement.adoptAll b.scope r.made).map Statement.finished ++
        (recovered ⟨b.scope, b.statements.drop r.after⟩).statements⟩ := by
  obtain ⟨i, hi⟩ := rewriteAt_of_firstRewrite? h
  have asc' : Ascending (b.rewritten r).statements := asc.sublist hi.sublist_rewritten
  rw [recovered_of_firstRewrite? h]
  have hrewritten : b.rewritten r = ⟨b.scope, (Statement.adoptAll b.scope r.made).map
      Statement.finished ++ b.statements.drop r.after⟩ := by
    simp [rewritten, hfirst]
  rw [hrewritten] at asc' ⊢
  exact recovered_append asc' fun s hs => ⟨hi.isPlain_made _ hs, hi.isPlain_made _ hs⟩

end Block

end FlowRecovery
