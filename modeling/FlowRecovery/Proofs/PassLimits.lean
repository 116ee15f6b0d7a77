import FlowRecovery.Proofs.Escapes
import FlowRecovery.Proofs.Locality

/-!
# Passes under a limit

All limits look at one sequence of passes (`Passes`). It goes on as long as there is something to rewrite,
and each of its passes uses up a branch of the block. A limit that is not below the number of passes does
not matter; any other stops the sequence behind the first pass that goes beyond it, with that pass applied
(`structureWithin_passes`).

The children of a composite statement are structured with a limit of their own, which never stops them. So
the passes of the sequence are the same under every limit: each puts in escapes and composite statements
whose children are what structuring leaves of statements of the block (`Made`).
-/

namespace FlowRecovery

namespace Block

open Statement

/-- Passes that all rewrite, with the children of new composite statements structured by the limit that
suits them. -/
inductive Passes : Nat → Block → Block → Prop where
  /-- No pass. -/
  | nil (b : Block) : Passes 0 b b
  /-- A pass that goes through, and others behind it. -/
  | cons {n : Nat} {b c d : Block} (pass : b.pass? structured = some (.done c)) (rest : Passes n c d) :
      Passes (n + 1) b d

/-- What a pass over the block `b` may put into it. -/
inductive Made (b : Block) : Statement → Prop where
  /-- An escape. -/
  | escape (start : Offset) (how : Escape) (token : Token) : Made b (.escape start b.scope how token)
  /-- A composite statement over a run of statements of the block: structuring goes through on them, and
  the framing is taken out of what it leaves. -/
  | composite {start stop : Offset} {head : Head} {inner : Scope} {j k : Nat} {c : Block}
      (scope : inner = ⟨head.kind, start, stop⟩ :: b.scope)
      (through : structured ⟨inner, adoptAll inner (b.slice j k)⟩ = .done c) :
      Made b (.composite start b.scope head stop inner (c.tidy head start stop).statements)

variable {b c d : Block} {n limit remaining : Nat}

/-! ### One pass -/

/-- A pass applies the first rewrite and goes through. -/
theorem pass?_structured (b : Block) :
    b.pass? structured = b.firstRewrite?.map fun r => .done (b.rewritten r) :=
  pass?_eq fun c _ => c.structured_eq_done

theorem pass?_structured_eq_some {r : Outcome Block} (h : b.pass? structured = some r) :
    ∃ i w, RewriteAt b i w ∧ r = .done (b.rewritten w) := by
  rw [pass?_structured] at h
  obtain ⟨w, hw, rfl⟩ := Option.map_eq_some_iff.1 h
  obtain ⟨i, hi⟩ := rewriteAt_of_firstRewrite? hw
  exact ⟨i, w, hi, rfl⟩

theorem RewriteAt.made {i : Nat} {w : Rewrite} (h : RewriteAt b i w) {s : Statement}
    (hs : s ∈ (adoptAll b.scope w.made).map finished) : Made b s := by
  obtain ⟨m, hm, rfl⟩ := List.mem_map.1 hs
  have scope : m.scope = b.scope := by
    rw [adoptAll_eq_map] at hm
    obtain ⟨x, -, rfl⟩ := List.mem_map.1 hm
    exact scope_adopt ..
  cases m with
  | plain =>
    have := h.isPlain_made (fun _ => true) hs
    cases this
  | escape start _ how token =>
    cases scope
    exact .escape start how token
  | composite start _ head stop inner children =>
    cases scope
    obtain ⟨hinner, j, k, -, rfl⟩ := h.slice_of_wrap hm
    exact .composite hinner (structured_eq_done _)

/-- A pass puts nothing in but what is `Made`. -/
theorem RewriteAt.mem_rewritten {i : Nat} {w : Rewrite} (h : RewriteAt b i w) {s : Statement}
    (hs : s ∈ (b.rewritten w).statements) : s ∈ b.statements ∨ Made b s := by
  simp only [rewritten, List.mem_append] at hs
  rcases hs with (hs | hs) | hs
  · exact .inl (List.mem_of_mem_take hs)
  · exact .inr (h.made hs)
  · exact .inl (List.mem_of_mem_drop hs)

/-! ### Where a block starts -/

/-- The first statement that a rewrite makes starts where the first one that gives way did, outside of
iterations. Inside of one, the step of the iterator may give way together with the jump behind it. -/
theorem RewriteAt.head?_made {i : Nat} {w : Rewrite} (h : RewriteAt b i w)
    (outside : ∀ frame ∈ b.scope, frame.kind ≠ .foreachLoop) :
    w.made.head?.map Statement.start = some (b.startAt w.first) := by
  cases h with
  | conditional | loop | alternative | leave | iteration => rfl
  | selection here => rw [startAt_of_getElem? here]; rfl
  | advance _ exit kind => exact absurd kind (outside _ (of_loopExit? exit).1)

theorem RewriteAt.head?_rewritten {i : Nat} {w : Rewrite} (h : RewriteAt b i w)
    (outside : ∀ frame ∈ b.scope, frame.kind ≠ .foreachLoop) :
    (b.rewritten w).statements.head?.map Statement.start = b.statements.head?.map Statement.start := by
  have hlt := h.lt_length
  have hfirst := h.first_le
  have hmade := h.head?_made outside
  obtain ⟨s, rest, hb⟩ := List.exists_cons_of_length_pos (l := b.statements) (Nat.zero_lt_of_lt hlt)
  cases hf : w.first with
  | zero =>
    obtain ⟨m, more, hm⟩ : ∃ m more, w.made = m :: more := List.exists_cons_of_ne_nil h.made_ne_nil
    have same := map_start_finished_adopt b.scope w.made
    rw [hf, hm, List.head?_cons, Option.map_some, startAt, hb, List.getElem?_cons_zero] at hmade
    simp only [hm, adoptAll, List.map_cons, List.cons.injEq] at same
    simp only [rewritten, hf, hm, adoptAll, List.take_zero, List.nil_append, List.map_cons,
      List.cons_append, List.head?_cons, Option.map_some, same.1, hb]
    exact hmade
  | succ k => simp [rewritten, hf, hb]

theorem rewritten_ne_nil {i : Nat} {w : Rewrite} (h : RewriteAt b i w) :
    (b.rewritten w).statements ≠ [] := by
  have := h.made_ne_nil
  simp [rewritten, adoptAll_eq_map, this]

/-! ### The sequence of passes -/

namespace Passes

theorem ne_nil (h : Passes (n + 1) b c) : c.statements ≠ [] := by
  generalize hk : n + 1 = k at h
  induction h generalizing n with
  | nil => cases hk
  | @cons k b c d pass rest ih =>
    obtain ⟨i, w, hw, hc⟩ := pass?_structured_eq_some pass
    cases hc
    cases rest with
    | nil => exact rewritten_ne_nil hw
    | cons pass' rest => exact ih rfl

/-- A block that stands in no iteration keeps its start. -/
theorem head? (h : Passes n b c) (outside : ∀ frame ∈ b.scope, frame.kind ≠ .foreachLoop) :
    c.statements.head?.map Statement.start = b.statements.head?.map Statement.start := by
  induction h with
  | nil => rfl
  | cons pass _ ih =>
    obtain ⟨i, w, hw, hc⟩ := pass?_structured_eq_some pass
    cases hc
    rw [ih outside, hw.head?_rewritten outside]

/-- There are passes up to a block without a rewrite, no more than there are branches. -/
theorem exists_settled :
    ∀ b : Block, ∃ n d, n ≤ b.branches ∧ Passes n b d ∧ d.pass? structured = none := by
  suffices h : ∀ m (b : Block), b.branches = m →
      ∃ n d, n ≤ m ∧ Passes n b d ∧ d.pass? structured = none from fun b => h _ b rfl
  intro m
  induction m using Nat.strongRecOn with
  | ind m fewer =>
    intro b hm
    cases hr : b.firstRewrite? with
    | none => exact ⟨0, b, Nat.zero_le _, .nil b, by rw [pass?_structured, hr]; rfl⟩
    | some w =>
      obtain ⟨i, hi⟩ := rewriteAt_of_firstRewrite? hr
      have hlt := hm ▸ hi.branches_lt
      obtain ⟨n, d, hn, passes, settled⟩ := fewer _ hlt (b.rewritten w) rfl
      have pass : b.pass? structured = some (.done (b.rewritten w)) := by
        rw [pass?_structured, hr]
        rfl
      exact ⟨n + 1, d, Nat.lt_of_le_of_lt hn hlt, .cons pass passes, settled⟩

/-- As many passes as are allowed, or fewer, go through to the end. -/
theorem runPasses_eq_done (h : Passes n b d) (settled : d.pass? structured = none)
    (enough : n ≤ remaining) : runPasses structured limit remaining b = .done d := by
  induction h generalizing remaining with
  | nil => exact runPasses_of_pass?_eq_none settled limit remaining
  | cons pass _ ih =>
    obtain ⟨m, rfl⟩ : ∃ m, remaining = m + 1 := ⟨remaining - 1, by omega⟩
    rw [runPasses, pass]
    exact ih settled (Nat.le_of_succ_le_succ enough)

/-- If there are more, the first that is not allowed is the last, and is applied. -/
theorem runPasses_eq_stopped (h : Passes n b d) (few : remaining < n) :
    ∃ c, Passes (remaining + 1) b c ∧
      runPasses structured limit remaining b = ⟨c, some ⟨limit + 1, c.start⟩⟩ := by
  induction h generalizing remaining with
  | nil => cases few
  | @cons n b c d pass rest ih =>
    cases remaining with
    | zero =>
      refine ⟨c, .cons pass (.nil c), ?_⟩
      rw [runPasses, pass]
      rfl
    | succ remaining =>
      obtain ⟨e, passes, run⟩ := ih (Nat.lt_of_succ_lt_succ few)
      refine ⟨e, .cons pass passes, ?_⟩
      rw [runPasses, pass]
      exact run

end Passes

/-- A limit concerns the passes of the sequence only. -/
theorem structureWithin_eq_runPasses (limit : Nat) (b : Block) :
    b.structureWithin limit = runPasses structured limit limit b := by
  rw [structureWithin_eq, funext structured_eq_done]

/-- **Passes under a limit.** There is a number of passes up to a block without a rewrite, at most that of
the branches. A limit that allows as many changes nothing; with any other, one pass more than allowed is
applied and reported. Whatever a pass of the sequence puts in is structured as if there were no limit. -/
theorem structureWithin_passes (b : Block) :
    ∃ n settled, Passes n b settled ∧ settled.pass? structured = none ∧ n ≤ b.branches ∧
      (∀ limit,
        ((b.structureWithin limit).stopped? = none ↔ n ≤ limit) ∧
        (n ≤ limit → b.structureWithin limit = .done settled ∧ b.structured = .done settled) ∧
        (limit < n → ∃ c first, Passes (limit + 1) b c ∧ c.statements.head? = some first ∧
          b.structureWithin limit = ⟨c, some ⟨limit + 1, first.start⟩⟩ ∧
          ((∀ frame ∈ b.scope, frame.kind ≠ .foreachLoop) →
            b.statements.head?.map Statement.start = some first.start))) ∧
      ∀ m c r, Passes m b c → c.pass? structured = some r →
        r.stopped? = none ∧ ∀ s ∈ r.value.statements, s ∈ c.statements ∨ Made c s := by
  obtain ⟨n, settled, hn, passes, last⟩ := Passes.exists_settled b
  have enough {limit : Nat} (h : n ≤ limit) : b.structureWithin limit = .done settled := by
    rw [structureWithin_eq_runPasses]
    exact passes.runPasses_eq_done last h
  have stopped {limit : Nat} (h : limit < n) : ∃ c first, Passes (limit + 1) b c ∧
      c.statements.head? = some first ∧
        b.structureWithin limit = ⟨c, some ⟨limit + 1, first.start⟩⟩ := by
    obtain ⟨c, some_passes, run⟩ := passes.runPasses_eq_stopped h
    obtain ⟨first, rest, hc⟩ := List.exists_cons_of_ne_nil some_passes.ne_nil
    have hstart : c.start = first.start := by simp [Block.start, startAt, hc]
    refine ⟨c, first, some_passes, by rw [hc]; rfl, ?_⟩
    rw [structureWithin_eq_runPasses, run, hstart]
  have hlen := b.branches_le_length
  refine ⟨n, settled, passes, last, hn, fun limit => ⟨⟨fun h => ?_, fun h => ?_⟩, fun h => ?_,
    fun h => ?_⟩, fun m c r _ pass => ?_⟩
  · refine Nat.le_of_not_lt fun few => ?_
    obtain ⟨c, first, -, -, run⟩ := stopped few
    rw [run] at h
    cases h
  · rw [enough h]
    rfl
  · exact ⟨enough h, enough (by omega)⟩
  · obtain ⟨c, first, some_passes, hfirst, run⟩ := stopped h
    refine ⟨c, first, some_passes, hfirst, run, fun outside => ?_⟩
    rw [← some_passes.head? outside, hfirst]
    rfl
  · obtain ⟨i, w, hw, rfl⟩ := pass?_structured_eq_some pass
    exact ⟨rfl, fun s hs => hw.mem_rewritten hs⟩

end Block

end FlowRecovery
