import FlowRecovery.Listing
import FlowRecovery.Proofs.Locality

/-!
# One part of a body after the other

If the jumps in the first part of a body lead within that part, or directly behind it, and no
selection is in it, then the two parts are structured independently of each other
(`Listing.structured_append`). The same jump is resolved in two ways: on its own, the first part is left
at its end, and in the whole body the jump goes to the first statement of the second part.

Both runs go through the first part from front to back. What is behind a rewrite at the front is
structured on its own, so the only targets that the front can lose are before everything that is left
(`Aimed.drop`).
-/

namespace FlowRecovery

namespace Block

/-- The jumps in `l` lead to statements of `l`, to the first statement of `m`, or to before `l`. -/
def Aimed (l m : List Statement) : Prop :=
  ∀ s ∈ l, ∀ t, s.token? = some t → ∀ n, t.goal? = some n →
    (∃ x ∈ l, x.start.val = n) ∨ (∃ x ∈ m.head?, x.start.val = n) ∨ ∀ x ∈ l, n < x.start.val

variable {s : Statement} {l m : List Statement}

/-- What is behind the first statements is aimed if all of it is. -/
theorem Aimed.drop (h : Aimed l m) (asc : Ascending l) (k : Nat) : Aimed (l.drop k) m := by
  intro s hs t ht n hn
  rw [← List.take_append_drop k l] at asc
  rcases h s (List.mem_of_mem_drop hs) t ht n hn with ⟨x, hx, hstart⟩ | hhead | hbefore
  · rw [← List.take_append_drop k l, List.mem_append] at hx
    rcases hx with hx | hx
    · exact .inr (.inr fun y hy => hstart ▸ asc.lt_of_append hx hy)
    · exact .inl ⟨x, hx, hstart⟩
  · exact .inr (.inl hhead)
  · exact .inr (.inr fun y hy => hbefore y (List.mem_of_mem_drop hy))

/-! ### A target in the first part -/

/-- A target that does not lead behind the first statement of the second part is resolved in the same way
without that part. -/
theorem find?_append {target : Offset} {first : Nat} (asc : Ascending (l ++ s :: m)) (hl : l ≠ [])
    (hfirst : first ≤ l.length)
    (aim : (∃ x ∈ l, x.start = target) ∨ s.start = target ∨ ∀ x ∈ l, target < x.start) :
    find? ⟨[], l ++ s :: m⟩ target first = find? ⟨[], l⟩ target first := by
  obtain ⟨last, hlast⟩ : ∃ x, l.getLast? = some x := ⟨_, List.getLast?_eq_some_getLast hl⟩
  obtain ⟨last', hlast'⟩ : ∃ x, (l ++ s :: m).getLast? = some x :=
    ⟨_, List.getLast?_eq_some_getLast (List.append_ne_nil_of_left_ne_nil hl _)⟩
  have ends : endsAt ⟨[], l⟩ target = decide (last.start < target) := by
    simp [endsAt, last?, hlast]
  have ends' : endsAt ⟨[], l ++ s :: m⟩ target = decide (last'.start < target) := by
    simp [endsAt, last?, hlast']
  have hs : s.start ≤ last'.start := asc.le_last (by simp) hlast'
  have hsecond : last.start < s.start :=
    asc.lt_of_append (List.mem_of_getLast? hlast) (List.mem_cons_self ..)
  unfold find?
  rw [ends, ends']
  by_cases hend : last.start < target
  · -- The target is behind the first part, so it is the start of the second.
    obtain rfl : s.start = target := by
      rcases aim with ⟨x, hx, rfl⟩ | heq | hbefore
      · exact absurd hend (Nat.not_lt.2 (asc.left.le_last hx hlast))
      · exact heq
      · exact absurd hend (Nat.lt_asymm (hbefore _ (List.mem_of_getLast? hlast)))
    have none_before : (l.drop first).findIdx? (fun x => x.start == s.start) = none := by
      rw [List.findIdx?_eq_none_iff]
      intro x hx
      exact beq_eq_false_iff_ne.2
        (Fin.ne_of_lt (asc.lt_of_append (List.mem_of_mem_drop hx) (List.mem_cons_self ..)))
    rw [if_neg (by simpa using hs), if_pos (by simpa using hend), List.drop_append_of_le_length hfirst,
      List.findIdx?_append, none_before]
    simp [List.findIdx?_cons, length]
    omega
  · have hle : target ≤ last.start := Nat.not_lt.1 hend
    have none_behind : (s :: m).findIdx? (fun x => x.start == target) = none := by
      rw [List.findIdx?_eq_none_iff]
      intro x hx
      exact beq_eq_false_iff_ne.2 (Fin.ne_of_gt
        (Nat.lt_of_le_of_lt hle (asc.lt_of_append (List.mem_of_getLast? hlast) hx)))
    have hle' : target ≤ last'.start := Nat.le_trans hle (Nat.le_trans (Nat.le_of_lt hsecond) hs)
    rw [if_neg (by simpa using hle'), if_neg (by simpa using hend), List.drop_append_of_le_length hfirst,
      List.findIdx?_append, none_behind]
    simp

theorem secondBranchEnd?_append {target : Offset} {split : Nat} (asc : Ascending (l ++ s :: m))
    (hl : l ≠ []) (hsplit : split ≤ l.length)
    (aim : (∃ x ∈ l, x.start = target) ∨ s.start = target ∨ ∀ x ∈ l, target < x.start) :
    secondBranchEnd? ⟨[], l ++ s :: m⟩ split target = secondBranchEnd? ⟨[], l⟩ split target := by
  unfold secondBranchEnd?
  rw [if_neg (by simp [Scope.loopExit?]), if_neg (by simp [Scope.loopExit?])]
  rcases Nat.lt_or_eq_of_le hsplit with hlt | heq
  · rw [find?_append asc hl hlt aim]
  · subst heq
    -- A second branch would begin with the second part, and no jump leads behind its first statement.
    have hle : target ≤ s.start := by
      rcases aim with ⟨x, hx, rfl⟩ | rfl | hbefore
      · exact Nat.le_of_lt (asc.lt_of_append hx (List.mem_cons_self ..))
      · exact Nat.le_refl _
      · obtain ⟨x, hx⟩ := List.exists_mem_of_ne_nil l hl
        exact Nat.le_of_lt (Nat.lt_trans (hbefore x hx) (asc.lt_of_append hx (List.mem_cons_self ..)))
    have inside : ∀ x ∈ m, x.start ≠ target := fun x hx =>
      Fin.ne_of_gt (Nat.lt_of_le_of_lt hle (asc.right.lt hx))
    have nowhere {b : Block} (h : ∀ k, b.find? target (l.length + 1) = some k → k ≤ l.length) :
        (b.find? target (l.length + 1)).filter (fun after => l.length < after) = none :=
      Option.filter_eq_none_iff.2 fun k hk => by simpa using h k hk
    have short (k : Nat) (hk : find? ⟨[], l ++ s :: m⟩ target (l.length + 1) = some k) :
        k ≤ l.length :=
      le_of_find?_of_inside asc inside (fun _ hf => absurd hf (Option.not_mem_none _)) (fun _ => hle) hk
    rw [nowhere short, nowhere fun k => find?_le_length]

/-! ### A rewrite in the first part -/

theorem slice_append_left {i j : Nat} (hj : j ≤ l.length) :
    slice ⟨[], l ++ m⟩ i j = slice ⟨[], l⟩ i j := by
  by_cases hij : i ≤ j
  · rw [slice, slice, List.drop_append_of_le_length (Nat.le_trans hij hj),
      List.take_append_of_le_length (by simp; omega)]
  · simp [slice, show j - i = 0 by omega]

theorem startAt_append_left {i : Nat} (hi : i < l.length) :
    startAt ⟨[], l ++ m⟩ i = startAt ⟨[], l⟩ i := by
  simp [startAt, List.getElem?_append_left hi]

theorem jumpTargetAt?_append_left {i : Nat} (hi : i < l.length) :
    jumpTargetAt? ⟨[], l ++ m⟩ i = jumpTargetAt? ⟨[], l⟩ i := by
  simp [jumpTargetAt?, List.getElem?_append_left hi]

/-- What is known of the targets of a statement of the first part. -/
theorem Aimed.of_mem (h : Aimed l (s :: m)) {x : Statement} (hx : x ∈ l) {t : Token}
    (ht : x.token? = some t) {target : Offset} (goal : t.goal? = some target.val) :
    (∃ y ∈ l, y.start = target) ∨ s.start = target ∨ ∀ y ∈ l, target < y.start := by
  rcases h x hx t ht _ goal with ⟨y, hy, hstart⟩ | ⟨y, hy, hstart⟩ | hbefore
  · exact .inl ⟨y, hy, Fin.ext hstart⟩
  · cases hy
    exact .inr (.inl (Fin.ext hstart))
  · exact .inr (.inr hbefore)

theorem branchRewrite?_append {i : Nat} {condition : Token} {target : Offset}
    (asc : Ascending (l ++ s :: m)) (aimed : Aimed l (s :: m))
    (token : tokenAt? ⟨[], l⟩ i = some (.jumpIfNot condition target)) :
    branchRewrite? ⟨[], l ++ s :: m⟩ i condition target = branchRewrite? ⟨[], l⟩ i condition target := by
  obtain ⟨x, hx, ht⟩ := tokenAt?_eq_some_iff.1 token
  have hmem := List.mem_of_getElem? hx
  have hi : i < l.length := lt_length_of_tokenAt? token
  have hl := List.ne_nil_of_mem hmem
  unfold branchRewrite?
  rw [find?_append asc hl (Nat.zero_le _) (aimed.of_mem hmem ht rfl)]
  cases found : find? ⟨[], l⟩ target 0 with
  | none => rfl
  | some split =>
    dsimp only
    split
    · next forward =>
      have hsplit : split ≤ l.length := find?_le_length found
      have hlast : split - 1 < l.length := by omega
      rw [branchRewrite, branchRewrite, startAt_append_left hi, slice_append_left hsplit,
        jumpTargetAt?_append_left hlast]
      cases hjump : jumpTargetAt? ⟨[], l⟩ (split - 1) with
      | none => rfl
      | some x =>
        dsimp only
        split
        · rfl
        · obtain ⟨y, hy, hty⟩ := tokenAt?_eq_some_iff.1 (jumpTargetAt?_eq_some_iff.1 hjump)
          rw [secondBranchEnd?_append asc hl hsplit (aimed.of_mem (List.mem_of_getElem? hy) hty rfl)]
          cases second : secondBranchEnd? ⟨[], l⟩ split x with
          | none => rfl
          | some after =>
            obtain ⟨hlt, hafter, -⟩ := lt_of_secondBranchEnd? second
            dsimp only [length] at hafter
            simp only [slice_append_left (Nat.le_of_lt hlast), slice_append_left hafter,
              startAt_append_left hlast, startAt_append_left (Nat.lt_of_lt_of_le hlt hafter)]
    · rfl

theorem iterationRewrite?_append {i : Nat} {collection : Token} {iterator? : Option Token}
    {target : Offset} (asc : Ascending (l ++ s :: m)) (aimed : Aimed l (s :: m))
    (token : tokenAt? ⟨[], l⟩ i = some (.foreachOver collection iterator? target)) :
    iterationRewrite? ⟨[], l ++ s :: m⟩ i collection iterator? target =
      iterationRewrite? ⟨[], l⟩ i collection iterator? target := by
  obtain ⟨x, hx, ht⟩ := tokenAt?_eq_some_iff.1 token
  have hmem := List.mem_of_getElem? hx
  have hi : i < l.length := lt_length_of_tokenAt? token
  unfold iterationRewrite?
  cases next : target.next? with
  | none => rfl
  | some exit =>
    have goal := Offset.val_of_next? next ▸ Token.goal?_foreachOver collection iterator? target
    dsimp only
    rw [find?_append asc (List.ne_nil_of_mem hmem) hi (aimed.of_mem hmem ht goal)]
    cases found : find? ⟨[], l⟩ exit (i + 1) with
    | none => rfl
    | some after =>
      have hafter : after ≤ l.length := find?_le_length found
      simp only [Option.map_some, startAt_append_left hi, slice_append_left hafter]

/-- In a first part without selections, the second part does not matter. -/
theorem rewriteAt?_append (asc : Ascending (l ++ s :: m)) (switchless : Switchless l)
    (aimed : Aimed l (s :: m)) {i : Nat} (hi : i < l.length) :
    rewriteAt? ⟨[], l ++ s :: m⟩ i = rewriteAt? ⟨[], l⟩ i := by
  have here : l[i]? = some l[i] := List.getElem?_eq_getElem hi
  unfold rewriteAt?
  dsimp only
  rw [List.getElem?_append_left hi, here]
  dsimp only
  cases ht : l[i].token? with
  | none => rfl
  | some t =>
    have token : tokenAt? ⟨[], l⟩ i = some t := tokenAt?_eq_some_iff.2 ⟨_, here, ht⟩
    cases t with
    | jumpIfNot => exact branchRewrite?_append asc aimed token
    | foreach collection target =>
      exact iterationRewrite?_append asc aimed
        (show _ = some (Token.foreachOver collection none target) from token)
    | foreachWith => exact iterationRewrite?_append asc aimed token
    | switch =>
      have := switchless _ (List.getElem_mem hi)
      simp [Statement.isPlain, ht, Token.isSwitch] at this
    | _ => rfl

/-! ### Both parts -/

theorem Switchless.drop (h : Switchless l) (k : Nat) : Switchless (l.drop k) :=
  fun x hx => h x (List.mem_of_mem_drop hx)

/-- A first statement at which no rewrite is found is dormant, with the second part and without it. -/
theorem dormant_of_aimed (asc : Ascending (s :: l ++ m)) (switchless : Switchless (s :: l))
    (aimed : Aimed (s :: l) m) (h : rewriteAt? ⟨[], s :: l⟩ 0 = none) : Dormant [] l s := by
  have hb : (Block.mk [] (s :: l)).statements = [] ++ s :: l := rfl
  refine dormant_of_rewriteAt?_eq_none hb asc.left h
    (switchless s (List.mem_cons_self ..)) fun _ t n ht hn => ?_
  rcases aimed s (List.mem_cons_self ..) t ht n hn with ⟨x, hx, rfl⟩ | ⟨x, hx, rfl⟩ | hbefore
  · rcases List.mem_cons.1 hx with rfl | hx
    · exact .inl (Nat.le_refl _)
    · exact .inr (.inl ⟨x, hx, rfl⟩)
  · exact .inr (.inr fun y hy => asc.lt_of_append hy (List.mem_of_head? hx))
  · exact .inl (Nat.le_of_lt (hbefore s (List.mem_cons_self ..)))

/-- **Structuring goes through one part after the other.** -/
theorem recovered_append_of_aimed (l m : List Statement) (asc : Ascending (l ++ m))
    (switchless : Switchless l) (aimed : Aimed l m) :
    recovered ⟨[], l ++ m⟩ = ⟨[], (recovered ⟨[], l⟩).statements ++ (recovered ⟨[], m⟩).statements⟩ := by
  have nothing : recovered ⟨[], []⟩ = ⟨[], []⟩ := recovered_of_firstRewrite?_eq_none rfl
  have eta (l : List Statement) : recovered ⟨[], l⟩ = ⟨[], (recovered ⟨[], l⟩).statements⟩ :=
    congrArg (Block.mk · _) (scope_recovered ⟨[], l⟩)
  cases m with
  | nil => rw [List.append_nil, nothing, List.append_nil, ← eta]
  | cons x m =>
    -- On the number of statements of the first part, which goes down with each one that stays and with
    -- each rewrite at the front.
    induction hn : l.length using Nat.strongRecOn generalizing l with
    | ind n ih =>
      cases l with
      | nil => rw [List.nil_append, nothing, List.nil_append, ← eta]
      | cons s l =>
        have behind (k : Nat) (hk : 0 < k) (hle : k ≤ (s :: l).length) :
            recovered ⟨[], (s :: l).drop k ++ x :: m⟩ =
              ⟨[], (recovered ⟨[], (s :: l).drop k⟩).statements ++ (recovered ⟨[], x :: m⟩).statements⟩ := by
          refine ih _ ?_ _ (switchless.drop k) ?_ (aimed.drop asc.left k) rfl
          · rw [List.length_drop]
            omega
          · rw [← List.drop_append_of_le_length hle]
            exact asc.sublist ((List.drop_sublist ..).map _)
        cases hr : rewriteAt? ⟨[], s :: l⟩ 0 with
        | none =>
          have dormant := dormant_of_aimed asc switchless aimed hr
          have asc' : Ascending (s :: (l ++ x :: m)) := asc
          rw [List.cons_append, recovered_cons asc' (dormant.whole asc') (fun _ _ _ _ _ => rfl),
            recovered_cons asc.left dormant (fun _ _ _ _ _ => rfl)]
          exact congrArg (fun b => Block.mk [] (s :: b.statements)) (behind 1 Nat.one_pos (by simp))
        | some r =>
          have hi := rewriteAt_of_rewriteAt? hr
          have hfirst : r.first = 0 := Nat.le_zero.1 hi.first_le
          obtain ⟨hpos, hle⟩ := hi.bounds
          have hr' := (rewriteAt?_append asc switchless aimed (Nat.succ_pos _)).trans hr
          rw [recovered_of_front asc (firstRewrite?_of_front hr') hfirst,
            recovered_of_front asc.left (firstRewrite?_of_front hr) hfirst]
          dsimp only
          rw [List.drop_append_of_le_length hle, behind r.after hpos hle, List.append_assoc]

end Block

namespace Listing

/-- **A body is structured part by part.** The jumps in the first part lead within that part or directly
behind it, and no selection is in it. -/
theorem structured_append (l m : Listing) (sorted : fault? (l ++ m) = none)
    (switchless : ∀ e ∈ l, e.token.isSwitch = false)
    (aimed : ∀ e ∈ l, ∀ n ∈ e.token.goal?,
      (∃ x ∈ l, x.offset.val = n) ∨ ∃ x ∈ m.head?, x.offset.val = n) :
    (block (l ++ m)).structured =
      .done ⟨[], l.block.structured.value.statements ++ m.block.structured.value.statements⟩ := by
  have asc : Block.Ascending (l.block.statements ++ m.block.statements) := by
    have h := (fault?_eq_none_iff _).1 sorted
    rw [Block.Ascending, block, block, ← List.map_append, List.map_map]
    exact h
  have hswitch : Block.Switchless l.block.statements := by
    intro s hs
    obtain ⟨e, he, rfl⟩ := List.mem_map.1 hs
    exact switchless e he
  have haim : Block.Aimed l.block.statements m.block.statements := by
    intro s hs t ht n hn
    obtain ⟨e, he, rfl⟩ := List.mem_map.1 hs
    cases ht
    rcases aimed e he n hn with ⟨x, hx, hstart⟩ | ⟨x, hx, hstart⟩
    · exact .inl ⟨x.statement, List.mem_map_of_mem hx, hstart⟩
    · refine .inr (.inl ⟨x.statement, ?_, hstart⟩)
      rw [block, List.head?_map, Option.mem_def.1 hx]
      rfl
  rw [Block.structured_eq_done, block, List.map_append]
  exact congrArg Outcome.done (Block.recovered_append_of_aimed _ _ asc hswitch haim)

/-- A conditional with a second branch whose end is the end of this part. -/
def choice : Listing :=
  [⟨0, none, .jumpIfNot (.expression "Ready") 20⟩, ⟨10, none, .expression "Start()"⟩,
    ⟨15, none, .jump 30⟩, ⟨20, none, .expression "Wait()"⟩]

/-- A conditional that goes back to its head. -/
def repetition : Listing :=
  [⟨30, none, .jumpIfNot (.expression "More") 50⟩, ⟨40, none, .expression "Tick()"⟩,
    ⟨45, none, .jump 30⟩]

theorem structured_choice_append_repetition :
    fault? (choice ++ repetition) = none ∧ (∀ e ∈ choice, e.token.isSwitch = false) ∧
      (∀ e ∈ choice, ∀ n ∈ e.token.goal?,
        (∃ x ∈ choice, x.offset.val = n) ∨ ∃ x ∈ repetition.head?, x.offset.val = n) ∧
      (block (choice ++ repetition)).structured =
        .done ⟨[], choice.block.structured.value.statements ++
          repetition.block.structured.value.statements⟩ :=
  ⟨by decide, by decide, by decide,
    structured_append choice repetition (by decide) (by decide) (by decide)⟩

end Listing

end FlowRecovery
