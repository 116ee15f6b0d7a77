import FlowRecovery.Proofs.Escapes
import FlowRecovery.Proofs.Locality
import FlowRecovery.Proofs.Relocation

/-!
# Structuring code that is moved

Structuring compares offsets and takes the next one of an offset; it does nothing else with them. So a
block whose code lies further on by some distance is structured like the block itself, with all offsets
further on by that distance (`Block.structured_relocate`).

There has to be room for that. What is compared are the starts of the statements directly in a block, the
goals of its instructions and the ends of the frames around it (`Block.Fits`). Passes keep this, and so do
the children of what they make: the end that a pass gives a composite statement is an offset that was
in the block, or the one behind its last statement (`Block.Fits.stop_made`).
-/

namespace FlowRecovery

namespace Block

open Statement

/-! ### Room in a block -/

/-- What structuring compares in a block still are offsets when it is moved. -/
structure Fits (c : Nat) (b : Block) : Prop where
  /-- The starts of statements, and the places behind them. -/
  starts : ∀ s ∈ b.statements, Offset.Fits c (s.start.val + 1)
  /-- The places that instructions lead to. -/
  goals : ∀ s ∈ b.statements, ∀ t n, s.token? = some t → t.goal? = some n → Offset.Fits c n
  /-- The ends of the frames around the block. -/
  frames : ∀ frame ∈ b.scope, Offset.Fits c frame.stop.val

variable {c : Nat} {b : Block}

theorem Fits.start (h : b.Fits c) {s : Statement} (hs : s ∈ b.statements) : Offset.Fits c s.start.val :=
  (h.starts s hs).of_le (Nat.le_succ _)

theorem Fits.startAt (h : b.Fits c) {i : Nat} (hi : i < b.length) : Offset.Fits c (b.startAt i).val := by
  rw [startAt_of_getElem? (List.getElem?_eq_getElem hi)]
  exact h.start (List.getElem_mem hi)

theorem Fits.goalAt (h : b.Fits c) {i n : Nat} {t : Token} (ht : b.tokenAt? i = some t)
    (hn : t.goal? = some n) : Offset.Fits c n := by
  obtain ⟨s, hs, hst⟩ := tokenAt?_eq_some_iff.1 ht
  exact h.goals s (List.mem_of_getElem? hs) t n hst hn

theorem Fits.jumpTarget (h : b.Fits c) {s : Statement} (hs : s ∈ b.statements) {target : Offset}
    (hj : s.jumpTarget? = some target) : Offset.Fits c target.val := by
  obtain ⟨t, ht, hjump⟩ := Option.bind_eq_some_iff.1 hj
  rw [Token.jumpTarget?_eq_some_iff] at hjump
  exact h.goals s hs t _ ht (hjump ▸ rfl)

theorem Fits.stop (h : b.Fits c) (hne : b.statements ≠ []) : Offset.Fits c b.stop.val := by
  obtain ⟨scope, l⟩ := b
  cases scope with
  | cons frame _ => exact h.frames frame (List.mem_cons_self ..)
  | nil =>
    have hlast : Block.last? ⟨[], l⟩ = _ := List.getLast?_eq_some_getLast hne
    rw [Block.stop, hlast]
    exact Offset.fits_nextCapped (h.starts _ (List.getLast_mem hne))

/-! ### The parts of a moved block -/

theorem getElem?_relocate (b : Block) (i : Nat) :
    (b.relocate c).statements[i]? = b.statements[i]?.map (Statement.relocate c) := by
  rw [relocate, relocateAll_eq_map, List.getElem?_map]

@[simp] theorem length_relocate (b : Block) : (b.relocate c).length = b.length := by
  rw [length, relocate, relocateAll_eq_map, List.length_map, length]

theorem last?_relocate (b : Block) : (b.relocate c).last? = b.last?.map (Statement.relocate c) := by
  rw [last?, relocate, relocateAll_eq_map, List.getLast?_map, last?]

theorem take_relocate (b : Block) (i : Nat) :
    (b.relocate c).statements.take i = relocateAll c (b.statements.take i) := by
  rw [relocate, relocateAll_eq_map, relocateAll_eq_map, List.map_take]

theorem drop_relocate (b : Block) (i : Nat) :
    (b.relocate c).statements.drop i = relocateAll c (b.statements.drop i) := by
  rw [relocate, relocateAll_eq_map, relocateAll_eq_map, List.map_drop]

theorem slice_relocate (b : Block) (i j : Nat) :
    (b.relocate c).slice i j = relocateAll c (b.slice i j) := by
  rw [slice, slice, drop_relocate, relocateAll_eq_map, relocateAll_eq_map, List.map_take]

theorem startAt_relocate {i : Nat} (hi : i < b.length) :
    (b.relocate c).startAt i = (b.startAt i).relocate c := by
  rw [startAt, startAt, getElem?_relocate, List.getElem?_eq_getElem hi]
  exact start_relocate _

theorem jumpTargetAt?_relocate (b : Block) (i : Nat) :
    (b.relocate c).jumpTargetAt? i = (b.jumpTargetAt? i).map (Offset.relocate c) := by
  rw [jumpTargetAt?, jumpTargetAt?, getElem?_relocate]
  cases b.statements[i]? with
  | none => rfl
  | some s => exact s.jumpTarget?_relocate

theorem followsNext_relocate (b : Block) : ∀ i, (b.relocate c).followsNext i = b.followsNext i
  | 0 => rfl
  | i + 1 => by
    rw [followsNext, followsNext, getElem?_relocate, Option.any_map]
    congr 1
    funext s
    exact isPlain_relocate Token.isIteratorNext_relocate s

theorem trimLast_relocate {p q : Token → Bool} {b : Block}
    (h : ∀ s ∈ b.statements, (s.relocate c).isPlain p = s.isPlain q) :
    (b.relocate c).trimLast p = (b.trimLast q).relocate c := by
  have ends : (b.relocate c).endsWith p = b.endsWith q := by
    rw [endsWith, endsWith, last?_relocate]
    cases hlast : b.last? with
    | none => rfl
    | some s => exact h s (List.mem_of_getLast? hlast)
  rw [trimLast, trimLast, ends]
  split
  · rw [relocate, relocate, relocateAll_eq_map, relocateAll_eq_map, List.map_dropLast]
  · rfl

/-! ### Where targets lead in a moved block -/

variable {target : Offset}

theorem Fits.endsAt_relocate (h : b.Fits c) (ht : Offset.Fits c target.val) :
    (b.relocate c).endsAt (target.relocate c) = b.endsAt target := by
  obtain ⟨scope, l⟩ := b
  cases scope with
  | cons frame _ => exact Offset.relocate_beq (h.frames frame (List.mem_cons_self ..)) ht
  | nil =>
    have hlast : (Block.relocate c ⟨[], l⟩).last? = _ := last?_relocate _
    rw [endsAt, endsAt]
    show (Block.relocate c ⟨[], l⟩).last?.any _ = _
    rw [hlast]
    cases hs : Block.last? ⟨[], l⟩ with
    | none => rfl
    | some s =>
      rw [Option.map_some, Option.any_some, Option.any_some, start_relocate]
      exact decide_eq_decide.2 (Offset.relocate_lt (h.start (List.mem_of_getLast? hs)) ht)

theorem Fits.find?_relocate (h : b.Fits c) (ht : Offset.Fits c target.val) (first : Nat) :
    (b.relocate c).find? (target.relocate c) first = b.find? target first := by
  rw [find?, find?, h.endsAt_relocate ht, length_relocate, drop_relocate,
    findIdx?_relocateAll ht fun s hs => h.start (List.mem_of_mem_drop hs)]

theorem Fits.stop_relocate (h : b.Fits c) (hne : b.statements ≠ []) :
    (b.relocate c).stop = b.stop.relocate c := by
  obtain ⟨scope, l⟩ := b
  cases scope with
  | cons frame _ => rfl
  | nil =>
    have hlast : Block.last? ⟨[], l⟩ = _ := List.getLast?_eq_some_getLast hne
    have hlast' : (Block.relocate c ⟨[], l⟩).last? = _ := last?_relocate _
    rw [Block.stop, Block.stop, hlast]
    show Option.getD (Option.map _ (Block.relocate c ⟨[], l⟩).last?) _ = _
    rw [hlast', hlast]
    exact (congrArg _ (start_relocate _)).trans
      (Offset.nextCapped_relocate (h.starts _ (List.getLast_mem hne)))

theorem Fits.secondBranchEnd?_relocate (h : b.Fits c) (ht : Offset.Fits c target.val) (split : Nat) :
    (b.relocate c).secondBranchEnd? split (target.relocate c) = b.secondBranchEnd? split target := by
  have exit := Scope.loopExit?_relocate h.frames ht
  rw [secondBranchEnd?, secondBranchEnd?, h.find?_relocate ht]
  show (if (Scope.loopExit? (b.scope.relocate c) _).isSome then _ else _) = _
  rw [exit, Option.isSome_map]

/-! ### The rewrites of a moved block -/

variable {i : Nat}

theorem relocate_wrapped (first after : Nat) (start stop : Offset) (head : Head) (l : List Statement) :
    Rewrite.relocate c ⟨first, after, [.wrap start head l stop]⟩ =
      ⟨first, after, [.wrap (start.relocate c) (head.relocate c) (relocateAll c l) (stop.relocate c)]⟩ := by
  rw [← wrap_relocate]
  rfl

theorem Fits.branchRewrite_relocate (h : b.Fits c) {split : Nat} (forward : i < split)
    (hsplit : split ≤ b.length) (condition : Token) (target : Offset) :
    (b.relocate c).branchRewrite i (condition.relocate c) (target.relocate c) split =
      (b.branchRewrite i condition target split).relocate c := by
  have hi : i < b.length := Nat.lt_of_lt_of_le forward hsplit
  have hlast : split - 1 < b.length := by omega
  rw [branchRewrite, branchRewrite, jumpTargetAt?_relocate, startAt_relocate hi, slice_relocate]
  cases hjump : b.jumpTargetAt? (split - 1) with
  | none => exact (relocate_wrapped _ _ _ _ (.ifHead condition) _).symm
  | some x =>
    have hx : Offset.Fits c x.val := h.goalAt (jumpTargetAt?_eq_some_iff.1 hjump) rfl
    simp only [Option.map_some, Offset.relocate_inj hx (h.startAt hi), h.secondBranchEnd?_relocate hx]
    split
    · exact (relocate_wrapped _ _ _ _ (.whileHead condition) _).symm
    · cases second : b.secondBranchEnd? split x with
      | none => exact (relocate_wrapped _ _ _ _ (.ifHead condition) _).symm
      | some after =>
        obtain ⟨hlt, hle, -⟩ := lt_of_secondBranchEnd? second
        dsimp only
        rw [Rewrite.relocate, relocateAll, relocateAll, relocateAll, wrap_relocate, wrap_relocate,
          slice_relocate, slice_relocate, startAt_relocate hlast,
          startAt_relocate (Nat.lt_of_lt_of_le hlt hle)]
        rfl

theorem Fits.branchRewrite?_relocate (h : b.Fits c) {target : Offset} (ht : Offset.Fits c target.val)
    (condition : Token) :
    (b.relocate c).branchRewrite? i (condition.relocate c) (target.relocate c) =
      (b.branchRewrite? i condition target).map (Rewrite.relocate c) := by
  rw [branchRewrite?, branchRewrite?, h.find?_relocate ht]
  cases found : b.find? target 0 with
  | none => rfl
  | some split =>
    dsimp only
    split
    · next forward =>
      rw [h.branchRewrite_relocate forward (find?_le_length found), Option.map_some]
    · rfl

theorem Fits.escapeRewrite?_relocate (h : b.Fits c) (hi : i < b.length) (ht : Offset.Fits c target.val) :
    (b.relocate c).escapeRewrite? i (target.relocate c) =
      (b.escapeRewrite? i target).map (Rewrite.relocate c) := by
  have exit : Scope.loopExit? (b.relocate c).scope _ = _ := Scope.loopExit?_relocate h.frames ht
  rw [escapeRewrite?, escapeRewrite?, exit, Option.map_map, Option.map_map]
  congr 1
  funext frame
  simp only [Function.comp, Frame.relocate, followsNext_relocate, startAt_relocate hi]
  split <;> rfl

theorem Fits.iterationRewrite?_relocate (h : b.Fits c) (hi : i < b.length) {target : Offset}
    (ht : Offset.Fits c (target.val + 1)) (collection : Token) (iterator? : Option Token) :
    (b.relocate c).iterationRewrite? i (collection.relocate c) (iterator?.map (Token.relocate c))
        (target.relocate c) =
      (b.iterationRewrite? i collection iterator? target).map (Rewrite.relocate c) := by
  rw [iterationRewrite?, iterationRewrite?, Offset.next?_relocate ht]
  cases next : target.next? with
  | none => rfl
  | some exit =>
    have hexit : Offset.Fits c exit.val := Offset.val_of_next? next ▸ ht
    simp only [Option.map_some, h.find?_relocate hexit, Option.map_map]
    congr 1
    funext after
    rw [slice_relocate, startAt_relocate hi]
    exact (relocate_wrapped _ _ _ _ (.foreachHead collection iterator?) _).symm

theorem Fits.openSelectionEnd_relocate (h : b.Fits c) (hne : b.statements ≠ []) (first : Nat) :
    (b.relocate c).openSelectionEnd first =
      ((b.openSelectionEnd first).1, (b.openSelectionEnd first).2.relocate c) := by
  rw [openSelectionEnd, openSelectionEnd, last?_relocate, length_relocate, h.stop_relocate hne]
  cases b.last? with
  | none => rfl
  | some s =>
    simp only [Option.map_some, isPlain_relocate Token.isErrorReturn_relocate, start_relocate]
    split <;> rfl

theorem Fits.selectionEndFrom?_relocate (h : b.Fits c) (first : Nat) {rest : List Statement} :
    ∀ {previous : Statement} {j : Nat}, previous ∈ b.statements → (∀ s ∈ rest, s ∈ b.statements) →
      (b.relocate c).selectionEndFrom? first (previous.relocate c) j (relocateAll c rest) =
        (b.selectionEndFrom? first previous j rest).map fun (after, stop) => (after, stop.relocate c) := by
  induction rest with
  | nil =>
    intro previous j hp _
    exact congrArg some (h.openSelectionEnd_relocate (List.ne_nil_of_mem hp) first)
  | cons s rest ih =>
    intro previous j hp hrest
    rw [relocateAll, selectionEndFrom?, selectionEndFrom?, isPlain_relocate Token.isSwitch_relocate,
      isPlain_relocate Token.isCaseLabel_relocate, jumpTarget?_relocate]
    have skip := ih (j := j + 1) (hrest s (List.mem_cons_self ..))
      fun x hx => hrest x (List.mem_cons_of_mem _ hx)
    split
    · rfl
    · cases s.isPlain Token.isCaseLabel with
      | false => exact skip
      | true =>
        cases hj : previous.jumpTarget? with
        | none => exact skip
        | some x =>
          simp only [Option.map_some, h.find?_relocate (h.jumpTarget hp hj), Option.map_map]
          rfl

theorem Fits.selectionRewrite?_relocate (h : b.Fits c) {s : Statement} (hs : s ∈ b.statements)
    (discriminant : Token) :
    (b.relocate c).selectionRewrite? i (s.relocate c) (discriminant.relocate c) =
      (b.selectionRewrite? i s discriminant).map (Rewrite.relocate c) := by
  rw [selectionRewrite?, selectionRewrite?, drop_relocate,
    h.selectionEndFrom?_relocate _ hs fun x hx => List.mem_of_mem_drop hx, Option.map_map, Option.map_map]
  congr 1
  funext ends
  obtain ⟨after, stop⟩ := ends
  simp only [Function.comp, slice_relocate, start_relocate]
  exact (relocate_wrapped _ _ _ _ (.switchHead discriminant) _).symm

/-- What is rewritten at a place of a moved block is what is rewritten there, moved. -/
theorem Fits.rewriteAt?_relocate (h : b.Fits c) (i : Nat) :
    (b.relocate c).rewriteAt? i = (b.rewriteAt? i).map (Rewrite.relocate c) := by
  rw [rewriteAt?, rewriteAt?, getElem?_relocate]
  cases hs : b.statements[i]? with
  | none => rfl
  | some s =>
    have hi : i < b.length := (List.getElem?_eq_some_iff.1 hs).1
    have hmem := List.mem_of_getElem? hs
    simp only [Option.map_some, token?_relocate]
    cases ht : s.token? with
    | none => rfl
    | some t =>
      have goal (n : Nat) : t.goal? = some n → Offset.Fits c n := h.goals s hmem t n ht
      cases t with
      | jumpIfNot => exact h.branchRewrite?_relocate (goal _ rfl) _
      | jump => exact h.escapeRewrite?_relocate hi (goal _ rfl)
      | foreach => exact h.iterationRewrite?_relocate hi (goal _ rfl) _ none
      | foreachWith => exact h.iterationRewrite?_relocate hi (goal _ rfl) _ (some _)
      | switch => exact h.selectionRewrite?_relocate hmem _
      | _ => rfl

theorem Fits.firstRewrite?_relocate (h : b.Fits c) :
    (b.relocate c).firstRewrite? = b.firstRewrite?.map (Rewrite.relocate c) := by
  rw [firstRewrite?, firstRewrite?, length_relocate, List.map_findSome?]
  congr 1
  funext i
  exact h.rewriteAt?_relocate i

/-! ### Tidying moved children -/

theorem breaksTo_relocateAll {stop : Offset} (hstop : Offset.Fits c stop.val) (scope : Scope)
    {l : List Statement}
    (hl : ∀ s ∈ l, ∀ target, s.jumpTarget? = some target → Offset.Fits c target.val) :
    ∀ afterReturn : Bool, breaksTo (stop.relocate c) (scope.relocate c) afterReturn (relocateAll c l) =
      relocateAll c (breaksTo stop scope afterReturn l) := by
  induction l with
  | nil => exact fun _ => rfl
  | cons s l ih =>
    intro afterReturn
    have ih := ih fun x hx => hl x (List.mem_cons_of_mem _ hx)
    have same : ((s.relocate c).jumpTarget? == some (stop.relocate c)) = (s.jumpTarget? == some stop) := by
      rw [jumpTarget?_relocate]
      cases hj : s.jumpTarget? with
      | none => rfl
      | some target => exact Offset.relocate_beq (hl s (List.mem_cons_self ..) target hj) hstop
    rw [relocateAll, breaksTo, breaksTo, same, isPlain_relocate Token.isReturn_relocate]
    split
    · split
      · exact ih true
      · rw [ih false, relocateAll, start_relocate]
        rfl
    · rw [ih, relocateAll]

theorem Fits.tidy_relocate (h : b.Fits c) {start stop : Offset} (hstart : Offset.Fits c start.val)
    (hstop : Offset.Fits c stop.val) (head : Head) :
    (b.relocate c).tidy (head.relocate c) (start.relocate c) (stop.relocate c) =
      (b.tidy head start stop).relocate c := by
  have plain {p : Token → Bool} (hp : ∀ t : Token, p (t.relocate c) = p t) (b : Block) :
      (b.relocate c).trimLast p = (b.trimLast p).relocate c :=
    trimLast_relocate fun s _ => isPlain_relocate hp s
  cases head with
  | ifHead | elseHead => rfl
  | whileHead =>
    refine trimLast_relocate fun s hs => ?_
    cases ht : s.token? with
    | none => rw [isPlain, isPlain, token?_relocate, ht]; rfl
    | some t =>
      rw [isPlain, isPlain, token?_relocate, ht]
      show ((t.relocate c).jumpTarget? == _) = (t.jumpTarget? == _)
      rw [Token.jumpTarget?_relocate]
      cases hj : t.jumpTarget? with
      | none => rfl
      | some target =>
        refine Offset.relocate_beq (h.jumpTarget hs ?_) hstart
        rw [Statement.jumpTarget?, ht]
        exact hj
  | foreachHead =>
    have trims := (congrArg (trimLast Token.isIteratorNext) (plain Token.isIteratorPop_relocate b)).trans
      (plain Token.isIteratorNext_relocate _)
    rw [Head.relocate, tidy, trims]
    exact congrArg (Block.mk _) (removePops_relocateAll _)
  | switchHead =>
    have breaks := breaksTo_relocateAll hstop b.scope (fun s hs target => h.jumpTarget hs) false
    exact (congrArg (fun l => trimLast Token.isDefaultLabel ⟨b.scope.relocate c, l⟩) breaks).trans
      (plain Token.isDefaultLabel_relocate ⟨b.scope, breaksTo stop b.scope false b.statements⟩)

/-! ### Passes over a moved block -/

variable {r : Rewrite}

/-- What a rewrite makes starts where there is room. -/
theorem Fits.start_made (h : b.Fits c) (hi : RewriteAt b i r) {s : Statement}
    (hs : s ∈ adoptAll b.scope r.made) : Offset.Fits c (s.start.val + 1) := by
  have hstart : s.finished.start = s.start := by cases s <;> rfl
  have hmem := hi.start_mem (List.mem_append_left _ (List.mem_map_of_mem (f := Statement.finished) hs))
  obtain ⟨x, hx, heq⟩ := List.mem_map.1 hmem
  rw [← hstart, ← heq]
  exact h.starts x (List.mem_of_mem_drop hx)

theorem Fits.selectionEnd (h : b.Fits c) {first after : Nat} {stop : Offset} {rest : List Statement} :
    ∀ {previous : Statement} {j : Nat}, previous ∈ b.statements → (∀ s ∈ rest, s ∈ b.statements) →
      b.selectionEndFrom? first previous j rest = some (after, stop) → Offset.Fits c stop.val := by
  induction rest with
  | nil =>
    intro previous j hp _ hends
    have hends : b.openSelectionEnd first = (after, stop) := Option.some.inj hends
    have hstop := h.stop (List.ne_nil_of_mem hp)
    unfold openSelectionEnd at hends
    split at hends
    · next s hlast =>
      split at hends <;> cases hends
      · exact h.start (List.mem_of_getLast? hlast)
      · exact hstop
    · cases hends
      exact hstop
  | cons s rest ih =>
    intro previous j hp hrest hends
    unfold selectionEndFrom? at hends
    split at hends
    · cases hends
    · split at hends
      · next hj =>
        obtain ⟨k, -, hpair⟩ := Option.map_eq_some_iff.1 hends
        cases hpair
        exact h.jumpTarget hp hj
      · exact ih (hrest s (List.mem_cons_self ..)) (fun x hx => hrest x (List.mem_cons_of_mem _ hx)) hends

/-- The end of a new composite statement is an offset that was in the block, or the one behind its last
statement. -/
theorem Fits.stop_made (h : b.Fits c) (hi : RewriteAt b i r) {start stop : Offset} {head : Head}
    {scope inner : Scope} {children : List Statement}
    (hs : .composite start scope head stop inner children ∈ adoptAll b.scope r.made) :
    Offset.Fits c stop.val := by
  cases hi with
  | conditional token | loop token =>
    simp only [adoptAll, adopt_wrap, List.mem_singleton, composite.injEq] at hs
    obtain ⟨-, -, -, rfl, -⟩ := hs
    exact h.goalAt token rfl
  | alternative _ found forward across _ second =>
    have hlast := find?_le_length found
    simp only [adoptAll, adopt_wrap, List.mem_cons, List.not_mem_nil, or_false, composite.injEq] at hs
    rcases hs with ⟨-, -, -, rfl, -⟩ | ⟨-, -, -, rfl, -⟩
    · exact h.startAt (by omega)
    · exact h.goalAt across rfl
  | leave | advance => simp [adoptAll, adopt] at hs
  | iteration token =>
    simp only [adoptAll, adopt_wrap, List.mem_singleton, composite.injEq] at hs
    obtain ⟨-, -, -, rfl, -⟩ := hs
    exact (h.goalAt token (Token.goal?_foreachOver ..)).of_le (Nat.le_succ _)
  | selection here _ ends =>
    simp only [adoptAll, adopt_wrap, List.mem_singleton, composite.injEq] at hs
    obtain ⟨-, -, -, rfl, -⟩ := hs
    exact h.selectionEnd (List.mem_of_getElem? here) (fun _ => List.mem_of_mem_drop) ends

/-- There is room for the children of a new composite statement. -/
theorem Fits.children (h : b.Fits c) (hi : RewriteAt b i r) {start stop : Offset} {head : Head}
    {scope inner : Scope} {children : List Statement}
    (hs : .composite start scope head stop inner children ∈ adoptAll b.scope r.made) :
    Fits c ⟨inner, children⟩ ∧ children.length < b.length := by
  have hstop := h.stop_made hi hs
  obtain ⟨rfl, l, hlen, hl, rfl⟩ := hi.mem_of_wrap hs
  rw [length_adoptAll, adoptAll_eq_map]
  refine ⟨⟨fun s hs => ?_, fun s hs t n ht hn => ?_, fun frame hframe => ?_⟩, hlen⟩
  · obtain ⟨x, hx, rfl⟩ := List.mem_map.1 hs
    rw [start_adopt]
    exact h.starts x (hl x hx)
  · obtain ⟨x, hx, rfl⟩ := List.mem_map.1 hs
    rw [token?_adopt] at ht
    exact h.goals x (hl x hx) t n ht hn
  · rcases List.mem_cons.1 hframe with rfl | hframe
    · exact hstop
    · exact h.frames frame hframe

/-- A pass leaves room. -/
theorem Fits.rewritten (h : b.Fits c) (hi : RewriteAt b i r) : (b.rewritten r).Fits c := by
  refine ⟨fun s hs => ?_, fun s hs t n ht hn => ?_, h.frames⟩
  · obtain ⟨x, hx, heq⟩ := List.mem_map.1 (hi.sublist_rewritten.subset (List.mem_map_of_mem hs))
    rw [← heq]
    exact h.starts x hx
  · rcases List.mem_append.1 hs with hs | hs
    · rcases List.mem_append.1 hs with hs | hs
      · exact h.goals s (List.mem_of_mem_take hs) t n ht hn
      · rw [hi.token?_made hs] at ht
        cases ht
    · exact h.goals s (List.mem_of_mem_drop hs) t n ht hn

/-- A pass over a moved block, if structuring of shorter blocks moves along. -/
theorem Fits.rewritten_relocate (h : b.Fits c) (hi : RewriteAt b i r)
    (inner : ∀ d : Block, d.length < b.length → d.Fits c →
      (d.relocate c).recovered = d.recovered.relocate c ∧ d.recovered.Fits c) :
    (b.relocate c).rewritten (r.relocate c) = (b.rewritten r).relocate c := by
  have finished : ∀ s ∈ adoptAll b.scope r.made, (s.relocate c).finished = s.finished.relocate c := by
    intro s hs
    cases s with
    | plain | escape => rfl
    | composite start scope head stop frames children =>
      have hstart := (h.start_made hi hs).of_le (Nat.le_succ _)
      have hstop := h.stop_made hi hs
      obtain ⟨fits, hlen⟩ := h.children hi hs
      obtain ⟨moved, fits⟩ := inner ⟨frames, children⟩ hlen fits
      have tidied := fits.tidy_relocate hstart hstop head
      rw [← moved] at tidied
      rw [Statement.relocate, Statement.finished, Statement.finished, Statement.relocate]
      exact congrArg (fun d : Block => Statement.composite _ _ _ _ _ d.statements) tidied
  have made : (adoptAll (b.relocate c).scope (r.relocate c).made).map Statement.finished =
      relocateAll c ((adoptAll b.scope r.made).map Statement.finished) := by
    rw [relocate, Rewrite.relocate, adoptAll_relocateAll, relocateAll_eq_map, relocateAll_eq_map,
      List.map_map, List.map_map]
    exact List.map_congr_left finished
  rw [Block.rewritten, Block.rewritten, made, take_relocate, drop_relocate, ← relocateAll_append,
    ← relocateAll_append]
  rfl

/-- Structuring moves along with a block, and leaves room. -/
theorem recovered_relocate (c : Nat) (b : Block) : b.Fits c →
    (b.relocate c).recovered = b.recovered.relocate c ∧ b.recovered.Fits c := by
  -- Room has to be carried along: what passes make of the children is tidied, which compares offsets again.
  refine recovered_induction
    (P := fun b d => b.Fits c → (b.relocate c).recovered = d.relocate c ∧ d.Fits c)
    (fun b settled h => ⟨?_, h⟩) (fun b r hr inner ih h => ?_) b
  · have first := h.firstRewrite?_relocate
    rw [settled] at first
    exact recovered_of_firstRewrite?_eq_none first
  · obtain ⟨i, hi⟩ := rewriteAt_of_firstRewrite? hr
    have first := h.firstRewrite?_relocate
    rw [hr] at first
    rw [recovered_of_firstRewrite? first, h.rewritten_relocate hi inner]
    exact ih (h.rewritten hi)

/-! ### Room for all offsets -/

theorem fits_goal_of_targets {t : Token} (h : ∀ o ∈ t.targets, Offset.Fits c (o.val + 1)) {n : Nat}
    (hn : t.goal? = some n) : Offset.Fits c n := by
  cases t with
  | jumpIfNot | jump =>
    cases hn
    exact (h _ (List.mem_cons_self ..)).of_le (Nat.le_succ _)
  | foreach | foreachWith =>
    cases hn
    exact h _ (List.mem_cons_self ..)
  | _ => cases hn

/-- There is room if there is for one byte more behind every offset in a block. -/
theorem Fits.of_offsets (h : ∀ o ∈ b.offsets, Offset.Fits c (o.val + 1)) : b.Fits c := by
  have within {l : List Statement} {s : Statement} (hs : s ∈ l) : ∀ o ∈ s.offsets, o ∈ offsetsOf l := by
    induction hs with
    | head l => exact fun o => List.mem_append_left _
    | tail x _ ih => exact fun o ho => List.mem_append_right _ (ih o ho)
  have inside {s : Statement} (hs : s ∈ b.statements) {o : Offset} (ho : o ∈ s.offsets) :
      Offset.Fits c (o.val + 1) := h o (List.mem_append_right _ (within hs o ho))
  refine ⟨fun s hs => inside hs ?_, fun s hs t n ht hn => ?_, fun frame hframe => ?_⟩
  · cases s <;> exact List.mem_cons_self ..
  · cases s with
    | plain start stop? scope token =>
      cases ht
      exact fits_goal_of_targets
        (fun o ho => inside hs (List.mem_cons_of_mem _ (List.mem_append_right _ ho))) hn
    | escape | composite => cases ht
  · refine (h frame.stop (List.mem_append_left _ (List.mem_flatMap.2 ⟨frame, hframe, ?_⟩))).of_le
      (Nat.le_succ _)
    exact List.mem_cons_of_mem _ (List.mem_cons_self ..)

/-- **Structuring depends on the distances between offsets only.** -/
theorem structured_relocate (c : Nat) (b : Block)
    (h : ∀ o ∈ b.offsets, o.val + c + 1 ≤ 4294967295) :
    (b.relocate c).structured = b.structured.map (Block.relocate c) := by
  have fits : b.Fits c := .of_offsets fun o ho => by
    have := h o ho
    show o.val + 1 + c < 4294967296
    omega
  rw [structured_eq_done, structured_eq_done, (recovered_relocate c b fits).1]
  rfl

/-- Code inside an iteration that is not in the order of its offsets, with a conditional with two branches, a
selection, an iteration, a jump out of the loop and a composite statement from before. -/
def scattered : Block :=
  ⟨[⟨.foreachLoop, 5, 90⟩], Statement.adoptAll [⟨.foreachLoop, 5, 90⟩]
    [.plain 20 (some 24) [] (.jumpIfNot (.expression "c") 40), .ofToken 10 (.expression "A()"),
      .ofToken 30 (.jump 70), .ofToken 40 (.switch (.expression "d")), .ofToken 44 (.caseLabel "1"),
      .ofToken 46 (.jump 60), .ofToken 50 (.caseLabel "2"),
      .wrap 52 (.whileHead (.expression "e")) [.ofToken 53 (.expression "B()")] 58,
      .ofToken 60 (.jump 90), .ofToken 70 (.foreach (.expression "E") 80),
      .ofToken 75 (.jumpIfNot (.expression "f") 79), .ofToken 78 (.expression "C()"),
      .ofToken 79 .iteratorNext, .ofToken 80 .iteratorPop, .ofToken 81 (.retValue (.jump 7))]⟩

theorem structured_relocate_scattered :
    (∀ o ∈ scattered.offsets, o.val + 1000 + 1 ≤ 4294967295) ∧
      (scattered.relocate 1000).structured = scattered.structured.map (Block.relocate 1000) :=
  have room : (scattered.offsets.all fun o => decide (o.val + 1000 + 1 ≤ 4294967295)) = true := by decide
  have fits o ho := of_decide_eq_true (List.all_eq_true.1 room o ho)
  ⟨fits, structured_relocate 1000 scattered fits⟩

end Block

end FlowRecovery
