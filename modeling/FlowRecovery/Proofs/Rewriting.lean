import FlowRecovery.Structuring.Rewrite

/-!
# The rewrites of a block

`Block.RewriteAt` lists what a rewrite can be, with everything that is known of the block when it is
found; `rewriteAt?_eq_some_iff` says that the list is complete. Later proofs go by cases on it and
do not look into the search for a rewrite.

Whatever a rewrite is, it replaces a run of statements that contains the statement it was found at,
and that statement is a branch: a jump, or the head of an iteration or selection
(`RewriteAt.first_le`, `RewriteAt.bounds`, `RewriteAt.isBranch`). What it makes are composite
statements over fewer statements, and escapes (`RewriteAt.made_cases`).
-/

namespace FlowRecovery

namespace Token

/-- An instruction that a rewrite may be found at. -/
def isBranch : Token → Bool
  | jumpIfNot _ _ | jump _ | foreach _ _ | foreachWith _ _ _ | switch _ => true
  | _ => false

/-- Where control may go instead of to the next instruction: the target of a jump, and the place behind
the end of the iterator for an iteration. That place is behind all offsets if its end is the greatest. -/
def goal? : Token → Option Nat
  | jumpIfNot _ target | jump target => some target.val
  | foreach _ target | foreachWith _ _ target => some (target.val + 1)
  | _ => none

@[simp] theorem isBranch_foreachOver (collection : Token) (iterator? : Option Token)
    (target : Offset) : (foreachOver collection iterator? target).isBranch = true := by
  cases iterator? <;> rfl

theorem goal?_foreachOver (collection : Token) (iterator? : Option Token) (target : Offset) :
    (foreachOver collection iterator? target).goal? = some (target.val + 1) := by
  cases iterator? <;> rfl

theorem target_of_foreachOver_eq {collection collection' : Token} {iterator? iterator?' : Option Token}
    {target target' : Offset}
    (h : foreachOver collection iterator? target = foreachOver collection' iterator?' target') :
    target = target' := by
  cases iterator? <;> cases iterator?' <;> cases h <;> rfl

end Token

theorem Statement.isPlain_iff {p : Token → Bool} {s : Statement} :
    s.isPlain p = true ↔ ∃ t, s.token? = some t ∧ p t = true :=
  Option.any_eq_true _ _

namespace Block

/-- The instruction at place `i`. -/
def tokenAt? (b : Block) (i : Nat) : Option Token := b.statements[i]?.bind Statement.token?

theorem jumpTargetAt?_eq_some_iff {b : Block} {i : Nat} {target : Offset} :
    b.jumpTargetAt? i = some target ↔ b.tokenAt? i = some (.jump target) := by
  cases h : b.statements[i]? with
  | none => simp [jumpTargetAt?, tokenAt?, h]
  | some s =>
    cases ht : s.token? with
    | none => simp [jumpTargetAt?, tokenAt?, h, Statement.jumpTarget?, ht]
    | some t =>
      simp [jumpTargetAt?, tokenAt?, h, Statement.jumpTarget?, ht, Token.jumpTarget?_eq_some_iff]

theorem tokenAt?_eq_some_iff {b : Block} {i : Nat} {t : Token} :
    b.tokenAt? i = some t ↔ ∃ s, b.statements[i]? = some s ∧ s.token? = some t := by
  simp [tokenAt?, Option.bind_eq_some_iff]

theorem startAt_of_getElem? {b : Block} {i : Nat} {s : Statement} (h : b.statements[i]? = some s) :
    b.startAt i = s.start := by
  simp [startAt, h]

theorem lt_length_of_tokenAt? {b : Block} {i : Nat} {t : Token} (h : b.tokenAt? i = some t) :
    i < b.length := by
  obtain ⟨s, hs, -⟩ := tokenAt?_eq_some_iff.1 h
  exact (List.getElem?_eq_some_iff.1 hs).1

/-- A run of statements, with what stands behind it. -/
theorem slice_append_drop (b : Block) {i j : Nat} (h : i ≤ j) :
    b.slice i j ++ b.statements.drop j = b.statements.drop i := by
  rw [slice, show j = i + (j - i) by omega, ← List.drop_drop, Nat.add_sub_cancel_left,
    List.take_append_drop]

/-- A run of statements, with what stands before and behind it. -/
theorem take_slice_drop (b : Block) {i j : Nat} (h : i ≤ j) :
    b.statements.take i ++ (b.slice i j ++ b.statements.drop j) = b.statements := by
  rw [b.slice_append_drop h, List.take_append_drop]

theorem getElem?_slice {b : Block} {i j k : Nat} (h : k < j - i) :
    (b.slice i j)[k]? = b.statements[i + k]? := by
  rw [slice, List.getElem?_take_of_lt h, List.getElem?_drop]

theorem slice_cons {b : Block} {i j : Nat} {s : Statement} (h : b.statements[i]? = some s)
    (hij : i < j) : b.slice i j = s :: b.slice (i + 1) j := by
  obtain ⟨hlt, rfl⟩ := List.getElem?_eq_some_iff.1 h
  rw [slice, slice, List.drop_eq_getElem_cons hlt, show j - i = j - (i + 1) + 1 by omega,
    List.take_succ_cons]

theorem slice_append (b : Block) {i k j : Nat} (hik : i ≤ k) (hkj : k ≤ j) :
    b.slice i j = b.slice i k ++ b.slice k j := by
  simp only [slice]
  rw [show j - i = (k - i) + (j - k) by omega, List.take_add, List.drop_drop,
    show i + (k - i) = k by omega]

@[simp] theorem slice_self (b : Block) (i : Nat) : b.slice i i = [] := by simp [slice]

theorem length_slice_lt {b : Block} {i : Nat} (hi : 0 < i) (hb : 0 < b.length) (j : Nat) :
    (b.slice i j).length < b.length := by
  simp only [slice, List.length_take, List.length_drop, length] at *
  omega

theorem slice_sublist (b : Block) (i j : Nat) : (b.slice i j).Sublist b.statements :=
  (List.take_sublist ..).trans (List.drop_sublist ..)

theorem mem_of_mem_slice {b : Block} {i j : Nat} {s : Statement} (h : s ∈ b.slice i j) :
    s ∈ b.statements :=
  List.mem_of_mem_drop (List.mem_of_mem_take h)

/-- A target leads to the end of the block, or to the first statement that starts there. -/
theorem find?_eq_some_iff {b : Block} {target : Offset} {first k : Nat} :
    b.find? target first = some k ↔
      (b.endsAt target = true ∧ k = b.length) ∨
        (b.endsAt target = false ∧ first ≤ k ∧ b.statements[k]?.map Statement.start = some target ∧
          ∀ j, first ≤ j → j < k → b.statements[j]?.map Statement.start ≠ some target) := by
  unfold find?
  by_cases he : b.endsAt target = true
  · simp [he, eq_comm]
  · rw [if_neg he]
    rw [Bool.not_eq_true] at he
    rw [he]
    constructor
    · intro h
      obtain ⟨m, hm, rfl⟩ := Option.map_eq_some_iff.1 h
      obtain ⟨hlt, heq, hmin⟩ := List.findIdx?_eq_some_iff_getElem.1 hm
      rw [List.length_drop] at hlt
      refine .inr ⟨rfl, by omega, ?_, fun j hj hjk => ?_⟩
      · have hk : b.statements[m + first]? = some (b.statements.drop first)[m] := by
          rw [List.getElem_drop, Nat.add_comm, List.getElem?_eq_getElem (by omega)]
        simpa [hk] using heq
      · obtain ⟨d, rfl⟩ : ∃ d, j = first + d := ⟨j - first, by omega⟩
        have := hmin d (by omega)
        rw [List.getElem_drop] at this
        rw [List.getElem?_eq_getElem (by omega)]
        simpa using this
    · rintro (⟨h, -⟩ | ⟨-, hle, heq, hmin⟩)
      · cases h
      obtain ⟨s, hs, hstart⟩ := Option.map_eq_some_iff.1 heq
      obtain ⟨hlt, hget⟩ := List.getElem?_eq_some_iff.1 hs
      refine Option.map_eq_some_iff.2
        ⟨k - first, List.findIdx?_eq_some_iff_getElem.2 ⟨?_, ?_, fun j hj => ?_⟩, by omega⟩
      · rw [List.length_drop]; omega
      · rw [List.getElem_drop]
        simp only [show first + (k - first) = k by omega, hget, hstart, beq_self_eq_true]
      · rw [List.getElem_drop]
        have := hmin (first + j) (by omega) (by omega)
        rw [List.getElem?_eq_getElem (by omega)] at this
        simpa using this

/-- What a rewrite that is found at place `i` can be. -/
inductive RewriteAt (b : Block) (i : Nat) : Rewrite → Prop where
  /-- A conditional without a second branch. -/
  | conditional {condition : Token} {target : Offset} {split : Nat}
      (token : b.tokenAt? i = some (.jumpIfNot condition target))
      (found : b.find? target 0 = some split) (forward : i < split)
      (single : ∀ x, b.tokenAt? (split - 1) = some (.jump x) →
        x ≠ b.startAt i ∧ b.secondBranchEnd? split x = none) :
      RewriteAt b i
        ⟨i, split, [.wrap (b.startAt i) (.ifHead condition) (b.slice (i + 1) split) target]⟩
  /-- A conditional loop. -/
  | loop {condition : Token} {target : Offset} {split : Nat}
      (token : b.tokenAt? i = some (.jumpIfNot condition target))
      (found : b.find? target 0 = some split) (forward : i < split)
      (back : b.tokenAt? (split - 1) = some (.jump (b.startAt i))) :
      RewriteAt b i
        ⟨i, split, [.wrap (b.startAt i) (.whileHead condition) (b.slice (i + 1) split) target]⟩
  /-- A conditional with a second branch. -/
  | alternative {condition : Token} {target x : Offset} {split after : Nat}
      (token : b.tokenAt? i = some (.jumpIfNot condition target))
      (found : b.find? target 0 = some split) (forward : i < split)
      (across : b.tokenAt? (split - 1) = some (.jump x)) (ne_start : x ≠ b.startAt i)
      (second : b.secondBranchEnd? split x = some after) :
      RewriteAt b i
        ⟨i, after,
          [.wrap (b.startAt i) (.ifHead condition) (b.slice (i + 1) (split - 1))
            (b.startAt (split - 1)),
           .wrap (b.startAt split) .elseHead (b.slice split after) x]⟩
  /-- A jump out of a loop. -/
  | leave {target : Offset} {frame : Frame} (token : b.tokenAt? i = some (.jump target))
      (exit : b.scope.loopExit? target = some frame)
      (stepless : ¬(frame.kind = .foreachLoop ∧ b.followsNext i = true)) :
      RewriteAt b i ⟨i, i + 1, [.escape (b.startAt i) [] .leave (.jump target)]⟩
  /-- A jump out of an iteration that stands behind the step of the iterator. -/
  | advance {target : Offset} {frame : Frame} (token : b.tokenAt? i = some (.jump target))
      (exit : b.scope.loopExit? target = some frame) (kind : frame.kind = .foreachLoop)
      (step : b.followsNext i = true) :
      RewriteAt b i ⟨i - 1, i + 1, [.escape (b.startAt i) [] .advance (.jump target)]⟩
  /-- An iteration. -/
  | iteration {collection : Token} {iterator? : Option Token} {target exit : Offset} {after : Nat}
      (token : b.tokenAt? i = some (.foreachOver collection iterator? target))
      (next : target.next? = some exit) (found : b.find? exit (i + 1) = some after) :
      RewriteAt b i
        ⟨i, after,
          [.wrap (b.startAt i) (.foreachHead collection iterator?) (b.slice (i + 1) after) target]⟩
  /-- A selection. -/
  | selection {s : Statement} {discriminant : Token} {after : Nat} {stop : Offset}
      (here : b.statements[i]? = some s) (token : s.token? = some (.switch discriminant))
      (ends : b.selectionEndFrom? (i + 1) s (i + 1) (b.statements.drop (i + 1)) =
        some (after, stop)) :
      RewriteAt b i
        ⟨i, after, [.wrap s.start (.switchHead discriminant) (b.slice (i + 1) after) stop]⟩

theorem rewriteAt_of_branchRewrite? {b : Block} {i : Nat} {r : Rewrite} {condition : Token}
    {target : Offset} (token : b.tokenAt? i = some (.jumpIfNot condition target))
    (h : b.branchRewrite? i condition target = some r) : RewriteAt b i r := by
  unfold branchRewrite? at h
  split at h
  · cases h
  · next split found =>
    split at h
    · next forward =>
      cases h
      unfold branchRewrite
      dsimp only
      split
      · next hj =>
        refine .conditional token found forward fun x hx => ?_
        rw [jumpTargetAt?_eq_some_iff.2 hx] at hj
        cases hj
      · next x hj =>
        have across := jumpTargetAt?_eq_some_iff.1 hj
        split
        · next hx => exact .loop token found forward (hx ▸ across)
        · next hx =>
          split
          · next second =>
            refine .conditional token found forward fun y hy => ?_
            rw [across, Option.some.injEq, Token.jump.injEq] at hy
            exact hy ▸ ⟨hx, second⟩
          · next after second => exact .alternative token found forward across hx second
    · cases h

theorem rewriteAt_of_escapeRewrite? {b : Block} {i : Nat} {r : Rewrite} {target : Offset}
    (token : b.tokenAt? i = some (.jump target)) (h : b.escapeRewrite? i target = some r) :
    RewriteAt b i r := by
  obtain ⟨frame, exit, rfl⟩ := Option.map_eq_some_iff.1 h
  split
  · next hf => exact .advance token exit hf.1 hf.2
  · next hf => exact .leave token exit hf

theorem rewriteAt_of_iterationRewrite? {b : Block} {i : Nat} {r : Rewrite} {collection : Token}
    {iterator? : Option Token} {target : Offset}
    (token : b.tokenAt? i = some (.foreachOver collection iterator? target))
    (h : b.iterationRewrite? i collection iterator? target = some r) : RewriteAt b i r := by
  unfold iterationRewrite? at h
  split at h
  · cases h
  · next exit next =>
    obtain ⟨after, found, rfl⟩ := Option.map_eq_some_iff.1 h
    exact .iteration token next found

/-- The list of rewrites is complete. -/
theorem rewriteAt_of_rewriteAt? {b : Block} {i : Nat} {r : Rewrite}
    (h : b.rewriteAt? i = some r) : RewriteAt b i r := by
  unfold rewriteAt? at h
  split at h
  · cases h
  · next s hs =>
    have token (t : Token) (ht : s.token? = some t) : b.tokenAt? i = some t :=
      tokenAt?_eq_some_iff.2 ⟨s, hs, ht⟩
    split at h
    · next ht => exact rewriteAt_of_branchRewrite? (token _ ht) h
    · next ht => exact rewriteAt_of_escapeRewrite? (token _ ht) h
    · next collection target ht =>
      exact rewriteAt_of_iterationRewrite? (token (.foreachOver collection none target) ht) h
    · next collection iterator target ht =>
      exact rewriteAt_of_iterationRewrite?
        (token (.foreachOver collection (some iterator) target) ht) h
    · next ht =>
      obtain ⟨⟨after, stop⟩, ends, rfl⟩ := Option.map_eq_some_iff.1 h
      exact .selection hs ht ends
    · cases h

theorem rewriteAt?_of_tokenAt? {b : Block} {i : Nat} {condition : Token} {target : Offset}
    (token : b.tokenAt? i = some (.jumpIfNot condition target)) :
    b.rewriteAt? i = b.branchRewrite? i condition target := by
  obtain ⟨s, hs, ht⟩ := tokenAt?_eq_some_iff.1 token
  simp [rewriteAt?, hs, ht]

theorem branchRewrite?_eq {b : Block} {i split : Nat} {condition : Token} {target : Offset}
    (found : b.find? target 0 = some split) (forward : i < split) :
    b.branchRewrite? i condition target = some (b.branchRewrite i condition target split) := by
  simp [branchRewrite?, found, forward]

/-- A rewrite of the list is found. -/
theorem RewriteAt.rewriteAt?_eq {b : Block} {i : Nat} {r : Rewrite} (h : RewriteAt b i r) :
    b.rewriteAt? i = some r := by
  cases h with
  | @conditional condition target split token found forward single =>
    rw [rewriteAt?_of_tokenAt? token, branchRewrite?_eq found forward, branchRewrite]
    cases hj : b.jumpTargetAt? (split - 1) with
    | none => rfl
    | some x =>
      obtain ⟨hx, second⟩ := single x (jumpTargetAt?_eq_some_iff.1 hj)
      simp [hx, second]
  | loop token found forward back =>
    rw [rewriteAt?_of_tokenAt? token, branchRewrite?_eq found forward, branchRewrite,
      jumpTargetAt?_eq_some_iff.2 back]
    simp
  | alternative token found forward across ne_start second =>
    rw [rewriteAt?_of_tokenAt? token, branchRewrite?_eq found forward, branchRewrite,
      jumpTargetAt?_eq_some_iff.2 across]
    simp [ne_start, second]
  | leave token exit stepless =>
    obtain ⟨s, hs, ht⟩ := tokenAt?_eq_some_iff.1 token
    simp only [rewriteAt?, hs, ht, escapeRewrite?, exit, Option.map_some, if_neg stepless]
  | advance token exit kind step =>
    obtain ⟨s, hs, ht⟩ := tokenAt?_eq_some_iff.1 token
    simp only [rewriteAt?, hs, ht, escapeRewrite?, exit, Option.map_some, if_pos (And.intro kind step)]
  | @iteration collection iterator? target exit after token next found =>
    obtain ⟨s, hs, ht⟩ := tokenAt?_eq_some_iff.1 token
    cases iterator? <;> simp [rewriteAt?, hs, ht, Token.foreachOver, iterationRewrite?, next, found]
  | selection here token ends =>
    simp [rewriteAt?, here, token, selectionRewrite?, ends]

theorem rewriteAt?_eq_some_iff {b : Block} {i : Nat} {r : Rewrite} :
    b.rewriteAt? i = some r ↔ RewriteAt b i r :=
  ⟨rewriteAt_of_rewriteAt?, RewriteAt.rewriteAt?_eq⟩

/-! ### What every rewrite has in common -/

theorem le_of_find? {b : Block} {target : Offset} {first k : Nat}
    (h : b.find? target first = some k) (hf : first ≤ b.length) : first ≤ k := by
  rcases find?_eq_some_iff.1 h with ⟨-, rfl⟩ | ⟨-, hle, -⟩
  · exact hf
  · exact hle

theorem RewriteAt.isBranch {b : Block} {i : Nat} {r : Rewrite} (h : RewriteAt b i r) :
    ∃ t, b.tokenAt? i = some t ∧ t.isBranch = true := by
  cases h with
  | conditional token | loop token | alternative token | leave token | advance token =>
    exact ⟨_, token, rfl⟩
  | iteration token => exact ⟨_, token, Token.isBranch_foreachOver _ _ _⟩
  | selection here token => exact ⟨_, tokenAt?_eq_some_iff.2 ⟨_, here, token⟩, rfl⟩

theorem RewriteAt.lt_length {b : Block} {i : Nat} {r : Rewrite} (h : RewriteAt b i r) :
    i < b.length := by
  obtain ⟨t, ht, -⟩ := h.isBranch
  exact lt_length_of_tokenAt? ht

theorem RewriteAt.first_le {b : Block} {i : Nat} {r : Rewrite} (h : RewriteAt b i r) :
    r.first ≤ i := by
  cases h <;> simp

/-- The end of a second branch lies behind its start. -/
theorem lt_of_secondBranchEnd? {b : Block} {split after : Nat} {target : Offset}
    (h : b.secondBranchEnd? split target = some after) :
    split < after ∧ after ≤ b.length ∧ b.scope.loopExit? target = none ∧
      b.find? target (split + 1) = some after := by
  unfold secondBranchEnd? at h
  split at h
  · cases h
  · next hexit =>
    obtain ⟨hfind, hlt⟩ := Option.filter_eq_some_iff.1 h
    exact ⟨by simpa using hlt, find?_le_length hfind, by simpa using hexit, hfind⟩

theorem openSelectionEnd_bounds {b : Block} {first after : Nat} {stop : Offset}
    (hf : first ≤ b.length) (h : b.openSelectionEnd first = (after, stop)) :
    first ≤ after ∧ after ≤ b.length := by
  unfold openSelectionEnd at h
  split at h
  · split at h
    · next hs =>
      cases h
      simp only [Bool.and_eq_true, decide_eq_true_eq] at hs
      omega
    · cases h; omega
  · cases h; omega

/-- The end of a selection lies behind its head. -/
theorem selectionEndFrom?_bounds {b : Block} {first after : Nat} {stop : Offset}
    (hf : first ≤ b.length) :
    ∀ {rest : List Statement} {previous : Statement} {j : Nat}, first ≤ j →
      j + rest.length = b.length →
      b.selectionEndFrom? first previous j rest = some (after, stop) →
      first ≤ after ∧ after ≤ b.length := by
  intro rest
  induction rest with
  | nil =>
    intro previous j _ _ h
    exact openSelectionEnd_bounds hf (Option.some.inj h)
  | cons s rest ih =>
    intro previous j hj hlen h
    rw [List.length_cons] at hlen
    unfold selectionEndFrom? at h
    split at h
    · cases h
    · split at h
      · obtain ⟨k, hk, hpair⟩ := Option.map_eq_some_iff.1 h
        cases hpair
        have := le_of_find? hk (by omega)
        exact ⟨by omega, find?_le_length hk⟩
      · exact ih (by omega) (by omega) h

theorem RewriteAt.bounds {b : Block} {i : Nat} {r : Rewrite} (h : RewriteAt b i r) :
    i < r.after ∧ r.after ≤ b.length := by
  have hi := h.lt_length
  cases h with
  | conditional _ found forward | loop _ found forward =>
    exact ⟨forward, find?_le_length found⟩
  | alternative _ found forward _ _ second =>
    obtain ⟨hlt, hle, -⟩ := lt_of_secondBranchEnd? second
    exact ⟨Nat.lt_trans forward hlt, hle⟩
  | leave | advance => exact ⟨Nat.lt_succ_self i, hi⟩
  | iteration _ _ found =>
    exact ⟨le_of_find? found hi, find?_le_length found⟩
  | selection _ _ ends =>
    refine selectionEndFrom?_bounds hi (Nat.le_refl _) ?_ ends
    simp only [List.length_drop, length] at hi ⊢
    omega

/-- What a rewrite makes: escapes, and composite statements over fewer statements than there are in
the block. -/
theorem RewriteAt.made_cases {b : Block} {i : Nat} {r : Rewrite} (h : RewriteAt b i r)
    {s : Statement} (hs : s ∈ r.made) :
    (∃ start how target, s = .escape start [] how (.jump target)) ∨
      ∃ start head children stop, s = .wrap start head children stop ∧
        children.length < b.length := by
  have hb := Nat.zero_lt_of_lt h.lt_length
  cases h with
  | conditional | loop | iteration | selection =>
    rw [List.mem_singleton.1 hs]
    exact .inr ⟨_, _, _, _, rfl, length_slice_lt (Nat.succ_pos i) hb _⟩
  | alternative _ _ forward =>
    simp only [List.mem_cons, List.not_mem_nil, or_false] at hs
    rcases hs with rfl | rfl
    · exact .inr ⟨_, _, _, _, rfl, length_slice_lt (Nat.succ_pos i) hb _⟩
    · exact .inr ⟨_, _, _, _, rfl, length_slice_lt (Nat.zero_lt_of_lt forward) hb _⟩
  | leave | advance =>
    rw [List.mem_singleton.1 hs]
    exact .inl ⟨_, _, _, rfl⟩

theorem RewriteAt.length_made_le {b : Block} {i : Nat} {r : Rewrite} (h : RewriteAt b i r) :
    r.made.length ≤ r.after - r.first := by
  have := h.bounds.1
  cases h with
  | alternative _ _ forward _ _ second =>
    have := (lt_of_secondBranchEnd? second).1
    simp only [List.length_cons, List.length_nil]
    omega
  | _ => simp only [List.length_cons, List.length_nil] at *; omega

/-- The first rewrite of a block is found somewhere, and nothing is found before. -/
theorem firstRewriteAt_of_firstRewrite? {b : Block} {r : Rewrite} (h : b.firstRewrite? = some r) :
    ∃ i, RewriteAt b i r ∧ ∀ j < i, b.rewriteAt? j = none := by
  obtain ⟨before, i, after, hrange, hi, nothing⟩ := List.findSome?_eq_some_iff.1 h
  have hlen : b.length = before.length + (after.length + 1) := by
    simpa using congrArg List.length hrange
  have place (j : Nat) (hj : j < b.length) : (before ++ i :: after)[j]? = some j := by
    rw [← hrange, List.getElem?_range hj]
  obtain rfl : i = before.length := by simpa using place before.length (by omega)
  refine ⟨_, rewriteAt_of_rewriteAt? hi, fun j hj => nothing j ?_⟩
  have := place j (by omega)
  rw [List.getElem?_append_left hj] at this
  exact List.mem_of_getElem? this

theorem rewriteAt_of_firstRewrite? {b : Block} {r : Rewrite} (h : b.firstRewrite? = some r) :
    ∃ i, RewriteAt b i r :=
  (firstRewriteAt_of_firstRewrite? h).imp fun _ hi => hi.1

/-- Where no rewrite is found at all, none is found at any place. -/
theorem rewriteAt?_eq_none {b : Block} (h : b.firstRewrite? = none) (i : Nat) :
    b.rewriteAt? i = none := by
  by_cases hi : i < b.length
  · exact List.findSome?_eq_none_iff.1 h i (List.mem_range.2 hi)
  · simp [rewriteAt?, List.getElem?_eq_none (Nat.le_of_not_lt hi)]

end Block

end FlowRecovery
