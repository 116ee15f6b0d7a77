import FlowRecovery.Proofs.Rewriting
import FlowRecovery.Structuring.FixedPoint

/-!
# Convergence

Every pass that rewrites uses up a branch of the block and puts none in its place
(`RewriteAt.branches_lt`), so the passes end before the limit that `Block.structured` gives them, and
the limit of a block within a block does not matter either: structuring a block is never stopped
(`structured_eq_done`). What it leaves is `Block.recovered`, which has the two equations one expects
of a repetition, `recovered_of_firstRewrite?_eq_none` and `recovered_of_firstRewrite?`.

Properties of what is left are proved by `recovered_induction`, or, if they relate a block to what
any number of passes makes of it, by `value_structureWithin_induction`.
-/

namespace FlowRecovery

namespace Block

/-- How many statements directly in the block a rewrite may be found at. -/
def branches (b : Block) : Nat := b.statements.countP (Statement.isPlain Token.isBranch)

theorem branches_le_length (b : Block) : b.branches ≤ b.length := List.countP_le_length

/-- What structuring leaves of a block. -/
def recovered (b : Block) : Block := b.structured.value

end Block

/-- A new composite statement with its children structured and tidied. -/
def Statement.finished : Statement → Statement
  | .composite start scope head stop frames children =>
      .composite start scope head stop frames
        ((Block.recovered ⟨frames, children⟩).tidy head start stop).statements
  | s => s

namespace Block

/-- The block after one rewrite, with the new composite statements finished. -/
def rewritten (b : Block) (r : Rewrite) : Block :=
  { b with
    statements :=
      b.statements.take r.first ++ (Statement.adoptAll b.scope r.made).map Statement.finished ++
        b.statements.drop r.after }

/-! ### A pass uses up a branch -/

theorem isPlain_finished_adopt (p : Token → Bool) {scope : Scope} {s : Statement}
    (h : s.token? = none) : (s.adopt scope).finished.isPlain p = false := by
  cases s with
  | plain => cases h
  | escape | composite => simp [Statement.adopt, Statement.finished, Statement.isPlain, Statement.token?]

theorem RewriteAt.token?_of_mem {b : Block} {i : Nat} {r : Rewrite} (h : RewriteAt b i r)
    {s : Statement} (hs : s ∈ r.made) : s.token? = none := by
  rcases h.made_cases hs with ⟨_, _, _, rfl⟩ | ⟨_, _, _, _, rfl, -⟩ <;> rfl

/-- What a rewrite makes is no instruction, so no rewrite is found at it. -/
theorem RewriteAt.isPlain_made {b : Block} {i : Nat} {r : Rewrite} (h : RewriteAt b i r)
    (p : Token → Bool) {s : Statement}
    (hs : s ∈ (Statement.adoptAll b.scope r.made).map Statement.finished) : s.isPlain p = false := by
  simp only [Statement.adoptAll_eq_map, List.map_map, List.mem_map, Function.comp] at hs
  obtain ⟨m, hm, rfl⟩ := hs
  exact isPlain_finished_adopt p (h.token?_of_mem hm)

theorem RewriteAt.token?_made {b : Block} {i : Nat} {r : Rewrite} (h : RewriteAt b i r) {s : Statement}
    (hs : s ∈ (Statement.adoptAll b.scope r.made).map Statement.finished) : s.token? = none := by
  have := h.isPlain_made (fun _ => true) hs
  cases s with
  | plain => cases this
  | escape | composite => rfl

theorem RewriteAt.branches_lt {b : Block} {i : Nat} {r : Rewrite} (h : RewriteAt b i r) :
    (b.rewritten r).branches < b.branches := by
  obtain ⟨hia, hle⟩ := h.bounds
  have hfi := h.first_le
  have made : ((Statement.adoptAll b.scope r.made).map Statement.finished).countP
      (Statement.isPlain Token.isBranch) = 0 :=
    List.countP_eq_zero.2 fun s hs => by simp [h.isPlain_made _ hs]
  have replaced : 0 < (b.slice r.first r.after).countP (Statement.isPlain Token.isBranch) := by
    obtain ⟨t, ht, hb⟩ := h.isBranch
    obtain ⟨s, hs, hst⟩ := tokenAt?_eq_some_iff.1 ht
    refine List.countP_pos_iff.2 ⟨s, ?_, by simp [Statement.isPlain, hst, hb]⟩
    refine List.mem_of_getElem? (i := i - r.first) ?_
    rwa [getElem?_slice (by omega), show r.first + (i - r.first) = i by omega]
  have whole := congrArg (List.countP (Statement.isPlain Token.isBranch))
    (b.take_slice_drop (i := r.first) (j := r.after) (by omega))
  simp only [List.countP_append] at whole
  simp only [branches, rewritten, List.countP_append, made]
  omega

theorem RewriteAt.length_le {b : Block} {i : Nat} {r : Rewrite} (h : RewriteAt b i r) :
    (b.rewritten r).length ≤ b.length := by
  have hmade := h.length_made_le
  have hbounds := h.bounds
  have hfi := h.first_le
  simp only [rewritten, length, List.length_append, List.length_take, List.length_map,
    Statement.length_adoptAll, List.length_drop] at *
  omega

/-! ### Blocks within a block -/

theorem finishAll_eq {inner : Block → Outcome Block} :
    ∀ {l : List Statement},
      (∀ start scope head stop frames children,
        .composite start scope head stop frames children ∈ l →
          inner ⟨frames, children⟩ = .done (recovered ⟨frames, children⟩)) →
      Statement.finishAll inner l = .done (l.map Statement.finished)
  | [], _ => rfl
  | s :: rest, h => by
    have finish : s.finish inner = .done s.finished := by
      cases s with
      | composite start scope head stop frames children =>
        rw [Statement.finish, h _ _ _ _ _ _ (List.mem_cons_self ..)]
        rfl
      | _ => rfl
    have rest_eq := finishAll_eq (l := rest) fun _ _ _ _ _ _ hm =>
      h _ _ _ _ _ _ (List.mem_cons_of_mem _ hm)
    rw [Statement.finishAll, finish]
    simp [Outcome.done, Outcome.map, rest_eq]

/-- A pass, if structuring goes through on every block within the block. -/
theorem pass?_eq {inner : Block → Outcome Block} {b : Block}
    (h : ∀ c : Block, c.length < b.length → inner c = .done c.recovered) :
    b.pass? inner = b.firstRewrite?.map fun r => .done (b.rewritten r) := by
  unfold pass?
  cases hr : b.firstRewrite? with
  | none => rfl
  | some r =>
    obtain ⟨i, hi⟩ := rewriteAt_of_firstRewrite? hr
    have finishes : Statement.finishAll inner (Statement.adoptAll b.scope r.made) = _ :=
      finishAll_eq fun start scope head stop frames children hm => by
        rw [Statement.adoptAll_eq_map, List.mem_map] at hm
        obtain ⟨m, hm, heq⟩ := hm
        rcases hi.made_cases hm with ⟨_, _, _, rfl⟩ | ⟨_, _, _, _, rfl, hlt⟩
        · cases heq
        · rw [Statement.adopt_wrap] at heq
          cases heq
          exact h _ (by simpa [length] using hlt)
    simp [apply, finishes, rewritten]

/-- What an outcome of passes is, given that blocks within the block go through. -/
theorem runPasses_congr {inner : Block → Outcome Block} {n limit : Nat}
    (h : ∀ c : Block, c.length < n → inner c = .done c.recovered) :
    ∀ (remaining : Nat) {b : Block}, b.length ≤ n →
      runPasses inner limit remaining b =
        runPasses (fun c => .done c.recovered) limit remaining b := by
  have pass_eq {b : Block} (hb : b.length ≤ n) :
      b.pass? inner = b.pass? fun c => .done c.recovered := by
    rw [pass?_eq fun c hc => h c (Nat.lt_of_lt_of_le hc hb), pass?_eq fun _ _ => rfl]
  intro remaining
  induction remaining with
  | zero =>
    intro b hb
    simp only [runPasses, pass_eq hb]
  | succ remaining ih =>
    intro b hb
    rw [runPasses, runPasses, pass_eq hb, pass?_eq fun _ _ => rfl]
    cases hr : b.firstRewrite? with
    | none => rfl
    | some r =>
      obtain ⟨i, hi⟩ := rewriteAt_of_firstRewrite? hr
      exact ih (Nat.le_trans hi.length_le hb)

/-- Enough passes for the branches of a block reach its end, whatever more there are. -/
theorem runPasses_of_branches_le (limit limit' : Nat) :
    ∀ {remaining remaining' : Nat} {b : Block}, b.branches ≤ remaining → b.branches ≤ remaining' →
      runPasses (fun c => .done c.recovered) limit remaining b =
          runPasses (fun c => .done c.recovered) limit' remaining' b ∧
        (runPasses (fun c => .done c.recovered) limit remaining b).stopped? = none
  | remaining, remaining', b, h, h' => by
    cases hr : b.firstRewrite? with
    | none =>
      have hp : b.pass? (fun c => .done c.recovered) = none := by
        rw [pass?_eq fun _ _ => rfl, hr]; rfl
      simp [runPasses_of_pass?_eq_none hp]
    | some r =>
      obtain ⟨i, hi⟩ := rewriteAt_of_firstRewrite? hr
      have hlt := hi.branches_lt
      obtain ⟨m, rfl⟩ : ∃ m, remaining = m + 1 := ⟨remaining - 1, by omega⟩
      obtain ⟨m', rfl⟩ : ∃ m', remaining' = m' + 1 := ⟨remaining' - 1, by omega⟩
      rw [runPasses, runPasses, pass?_eq fun _ _ => rfl, hr]
      exact runPasses_of_branches_le _ _ (b := b.rewritten r) (by omega) (by omega)

theorem structureTo_eq_done :
    ∀ {n : Nat} {b : Block}, b.length = n → ∀ {depth : Nat}, n ≤ depth →
      structureTo depth b = .done b.recovered := by
  intro n
  induction n using Nat.strongRecOn with
  | ind n ih =>
    intro b hb
    have shorter {depth : Nat} (hd : n ≤ depth + 1) :
        runPasses (structureTo depth) (b.length + 1) (b.length + 1) b =
          runPasses (fun c => .done c.recovered) (b.length + 1) (b.length + 1) b :=
      runPasses_congr (n := n) (fun c hc => ih c.length hc rfl (by omega)) _ (Nat.le_of_eq hb)
    have through := (runPasses_of_branches_le (b.length + 1) (b.length + 1)
      (b := b) (Nat.le_succ_of_le b.branches_le_length) (Nat.le_succ_of_le b.branches_le_length)).2
    have structured_eq : b.structured =
        runPasses (fun c => .done c.recovered) (b.length + 1) (b.length + 1) b :=
      shorter (by omega)
    have done_recovered : b.structured = .done b.recovered :=
      Outcome.eq_done_of_stopped? (structured_eq ▸ through)
    intro depth hd
    cases depth with
    | zero =>
      have hempty : b.firstRewrite? = none := by
        have : b.length = 0 := by omega
        simp [firstRewrite?, this]
      rw [← done_recovered, structured_eq, runPasses_of_pass?_eq_none]
      · rfl
      · rw [pass?_eq fun _ _ => rfl, hempty]; rfl
    | succ depth =>
      rw [← done_recovered, structured_eq]
      exact shorter hd

/-- **Structuring a block is never stopped.** -/
theorem structured_eq_done (b : Block) : b.structured = .done b.recovered :=
  Outcome.eq_done_of_stopped? (by
    have h := (runPasses_of_branches_le (b.length + 1) (b.length + 1)
      (b := b) (Nat.le_succ_of_le b.branches_le_length) (Nat.le_succ_of_le b.branches_le_length)).2
    rwa [← runPasses_congr (n := b.length) (fun c hc => structureTo_eq_done rfl (Nat.le_of_lt hc))
      _ (Nat.le_refl _)] at h)

/-- The passes over a block under any limit. -/
theorem structureWithin_eq (limit : Nat) (b : Block) :
    b.structureWithin limit = runPasses (fun c => .done c.recovered) limit limit b :=
  runPasses_congr (fun _ hc => structureTo_eq_done rfl (Nat.le_of_lt hc)) _ (Nat.le_refl _)

/-! ### The equations of what is left -/

theorem recovered_of_firstRewrite?_eq_none {b : Block} (h : b.firstRewrite? = none) :
    b.recovered = b := by
  have hp : b.pass? (fun c => .done c.recovered) = none := by
    rw [pass?_eq fun _ _ => rfl, h]; rfl
  rw [recovered, structured, structureWithin_eq, runPasses_of_pass?_eq_none hp]
  rfl

theorem recovered_of_firstRewrite? {b : Block} {r : Rewrite} (h : b.firstRewrite? = some r) :
    b.recovered = (b.rewritten r).recovered := by
  obtain ⟨i, hi⟩ := rewriteAt_of_firstRewrite? h
  have hlt := hi.branches_lt
  have hle := b.branches_le_length
  have hle' := (b.rewritten r).branches_le_length
  rw [recovered, structured, structureWithin_eq, runPasses, pass?_eq fun _ _ => rfl, h]
  rw [recovered, structured, structureWithin_eq]
  exact congrArg Outcome.value
    (runPasses_of_branches_le _ _ (b := b.rewritten r) (by omega) (by omega)).1

/-- To relate every block to what is left of it: a block without a rewrite to itself, and a block
with one to what is left after it, given the relation for what is left after it and for all shorter
blocks. -/
theorem recovered_induction {P : Block → Block → Prop}
    (settled : ∀ b : Block, b.firstRewrite? = none → P b b)
    (pass : ∀ (b : Block) (r : Rewrite), b.firstRewrite? = some r →
      (∀ c : Block, c.length < b.length → P c c.recovered) →
      P (b.rewritten r) (b.rewritten r).recovered → P b (b.rewritten r).recovered) :
    ∀ b : Block, P b b.recovered := by
  suffices h : ∀ n m (b : Block), b.length = n → b.branches = m → P b b.recovered from
    fun b => h _ _ b rfl rfl
  intro n
  induction n using Nat.strongRecOn with
  | ind n shorter =>
    intro m
    induction m using Nat.strongRecOn with
    | ind m fewer =>
      intro b hn hm
      have inner (c : Block) (hc : c.length < b.length) : P c c.recovered :=
        shorter c.length (hn ▸ hc) _ c rfl rfl
      cases hr : b.firstRewrite? with
      | none => exact (recovered_of_firstRewrite?_eq_none hr).symm ▸ settled b hr
      | some r =>
        obtain ⟨i, hi⟩ := rewriteAt_of_firstRewrite? hr
        rw [recovered_of_firstRewrite? hr]
        refine pass b r hr inner ?_
        rcases Nat.lt_or_eq_of_le hi.length_le with hlt | heq
        · exact inner _ hlt
        · exact fewer _ (hm ▸ hi.branches_lt) _ (heq.trans hn) rfl

@[simp] theorem scope_recovered (b : Block) : b.recovered.scope = b.scope :=
  recovered_induction (P := fun b c => c.scope = b.scope) (fun _ _ => rfl) (fun _ _ _ _ h => h) b

/-- What is left of a block has no rewrite. -/
theorem firstRewrite?_recovered (b : Block) : b.recovered.firstRewrite? = none :=
  recovered_induction (P := fun _ c => c.firstRewrite? = none) (fun _ h => h) (fun _ _ _ _ h => h) b

/-- To relate every block to what any number of passes leaves of it, it is enough to look at one
pass, given the relation for all shorter blocks. -/
theorem value_structureWithin_induction {R : Block → Block → Prop} (refl : ∀ b, R b b)
    (trans : ∀ {b c d}, R b c → R c d → R b d)
    (pass : ∀ (b : Block) (r : Rewrite), b.firstRewrite? = some r →
      (∀ c : Block, c.length < b.length → R c c.recovered) → R b (b.rewritten r))
    (limit : Nat) (b : Block) : R b (b.structureWithin limit).value := by
  have recovers : ∀ b : Block, R b b.recovered :=
    recovered_induction (fun b _ => refl b) fun b r hr inner h => trans (pass b r hr inner) h
  have step {b : Block} {r : Rewrite} (hr : b.firstRewrite? = some r) : R b (b.rewritten r) :=
    pass b r hr fun c _ => recovers c
  rw [structureWithin_eq]
  suffices h : ∀ remaining (b : Block),
      R b (runPasses (fun c => .done c.recovered) limit remaining b).value from h limit b
  intro remaining
  induction remaining with
  | zero =>
    intro b
    rw [runPasses, pass?_eq fun _ _ => rfl]
    cases hr : b.firstRewrite? with
    | none => exact refl b
    | some r => exact step hr
  | succ remaining ih =>
    intro b
    rw [runPasses, pass?_eq fun _ _ => rfl]
    cases hr : b.firstRewrite? with
    | none => exact refl b
    | some r => exact trans (step hr) (ih _)

/-- Passes that are not stopped by their limit end in a block without a rewrite. -/
theorem firstRewrite?_structureWithin {limit : Nat} {b : Block}
    (h : (b.structureWithin limit).stopped? = none) :
    (b.structureWithin limit).value.firstRewrite? = none := by
  rw [structureWithin_eq] at h ⊢
  suffices loop : ∀ remaining (b : Block),
      (runPasses (fun c => .done c.recovered) limit remaining b).stopped? = none →
        (runPasses (fun c => .done c.recovered) limit remaining b).value.firstRewrite? = none from
    loop limit b h
  intro remaining
  induction remaining with
  | zero =>
    intro b h
    rw [runPasses, pass?_eq fun _ _ => rfl] at h ⊢
    cases hr : b.firstRewrite? with
    | none => exact hr
    | some r => simp [hr] at h
  | succ remaining ih =>
    intro b h
    rw [runPasses, pass?_eq fun _ _ => rfl] at h ⊢
    cases hr : b.firstRewrite? with
    | none => exact hr
    | some r =>
      simp only [hr, Option.map_some, Outcome.done_andThen] at h ⊢
      exact ih _ h

end Block

end FlowRecovery
