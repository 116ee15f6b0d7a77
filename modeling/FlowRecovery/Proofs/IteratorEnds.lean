import FlowRecovery.Proofs.Leftovers
import FlowRecovery.Proofs.Surgery

/-!
# Iterator ends before returns

Removing the ends of iterators that stand directly before a return is given here by places: from a list,
the statements at the places of such ends are taken out, and the others stay in their order
(`Statement.remaining`); a composite statement that stays has the same done to its children and is
unchanged otherwise (`Statement.onChildren`). This law determines what is removed from a tree, at every
depth (`Statement.eq_removePops`).

Each removal takes the last end of the run before a return, so the run is one shorter. How long these
runs are is counted for the returns of a tree in the order of the code (`Statement.endRuns`), and
repeated removal shortens each of them by the number of repetitions (`Statement.endRuns_iterate`).

`Statement.removePops_exact` says both, and that the loop which walks over a list by index and deletes
statements as it goes does the same.
-/

namespace FlowRecovery

namespace Statement

/-- At place `i` of a list the end of an iterator stands, and directly behind it a return. -/
def endsBeforeReturn (l : List Statement) (i : Nat) : Bool :=
  l[i]?.any (isPlain Token.isIteratorPop) && l[i + 1]?.any (isPlain Token.isReturn)

/-- The statements of a list at all other places. -/
def remaining (l : List Statement) : List Statement :=
  (List.range l.length).filterMap fun i => if endsBeforeReturn l i then none else l[i]?

/-- Changes the children of a composite statement, and nothing else. -/
def onChildren (f : List Statement → List Statement) : Statement → Statement
  | composite start scope head stop inner children =>
      composite start scope head stop inner (f children)
  | s => s

mutual

/-- How many ends of iterators stand directly before each return inside a statement, in the order of the
code. -/
def endRunsWithin : Statement → List Nat
  | composite _ _ _ _ _ children => endRuns 0 children
  | _ => []

/-- How many ends of iterators stand directly before each return in a list, and inside the statements of
the list, in the order of the code. The list stands directly behind `before` ends. -/
def endRuns (before : Nat) : List Statement → List Nat
  | [] => []
  | s :: rest =>
      if s.isPlain Token.isIteratorPop then endRuns (before + 1) rest
      else if s.isPlain Token.isReturn then before :: endRuns 0 rest
      else endRunsWithin s ++ endRuns 0 rest

end

/-! ### What remains of a list -/

theorem remaining_cons (s : Statement) (rest : List Statement) :
    remaining (s :: rest) =
      if s.isPlain Token.isIteratorPop && rest.head?.any (isPlain Token.isReturn) then remaining rest
      else s :: remaining rest := by
  have first : endsBeforeReturn (s :: rest) 0 =
      (s.isPlain Token.isIteratorPop && rest.head?.any (isPlain Token.isReturn)) := by
    rw [endsBeforeReturn, List.head?_eq_getElem?]
    rfl
  have further (i : Nat) : endsBeforeReturn (s :: rest) (i + 1) = endsBeforeReturn rest i := rfl
  rw [remaining, List.length_cons, List.range_succ_eq_map, List.filterMap_cons, List.filterMap_map,
    first]
  split <;> simp_all [remaining]

theorem subset_remaining (l : List Statement) : ∀ s ∈ remaining l, s ∈ l := by
  intro s hs
  obtain ⟨i, -, hi⟩ := List.mem_filterMap.1 hs
  split at hi
  · cases hi
  · exact List.mem_of_getElem? hi

theorem withoutPops_eq (s : Statement) : s.withoutPops = s.onChildren removePops := by
  cases s <;> rfl

theorem removePops_eq_map (l : List Statement) :
    removePops l = (remaining l).map (onChildren removePops) := by
  induction l with
  | nil => rfl
  | cons s rest ih =>
    rw [removePops, remaining_cons, ih, withoutPops_eq]
    split
    · rfl
    · rw [List.map_cons]

mutual

theorem onChildren_eq {f : List Statement → List Statement}
    (law : ∀ l, f l = (remaining l).map (onChildren f)) :
    (s : Statement) → s.onChildren f = s.onChildren removePops
  | plain .. => rfl
  | escape .. => rfl
  | composite start scope head stop inner children => by
    have inside := onChildren_eq_of_mem law children
    have same : f children = removePops children := by
      rw [law, removePops_eq_map, List.map_congr_left fun s hs => inside s (subset_remaining children s hs)]
    rw [onChildren, same, onChildren]

theorem onChildren_eq_of_mem {f : List Statement → List Statement}
    (law : ∀ l, f l = (remaining l).map (onChildren f)) :
    (l : List Statement) → ∀ s ∈ l, s.onChildren f = s.onChildren removePops
  | [] => nofun
  | s :: rest => by
    have first := onChildren_eq law s
    have further := onChildren_eq_of_mem law rest
    exact List.forall_mem_cons.2 ⟨first, further⟩

end

/-- What remains of every list determines what remains of a tree. -/
theorem eq_removePops {f : List Statement → List Statement}
    (law : ∀ l, f l = (remaining l).map (onChildren f)) : f = removePops := by
  funext l
  rw [law, removePops_eq_map]
  exact List.map_congr_left fun s _ => onChildren_eq law s

/-! ### Runs before returns -/

theorem not_isReturn_of_isIteratorPop {s : Statement} (h : s.isPlain Token.isIteratorPop = true) :
    s.isPlain Token.isReturn = false := by
  obtain ⟨token, htoken, hpop⟩ := isPlain_iff.1 h
  rw [isPlain, htoken]
  cases token <;> first | rfl | cases hpop

theorem isPlain_withoutPops (p : Token → Bool) (s : Statement) : s.withoutPops.isPlain p = s.isPlain p := by
  rw [isPlain, token?_withoutPops, isPlain]

/-- How many of `before` ends directly before a list are left: the last one is removed if the list begins
with a return. -/
def endsLeft (before : Nat) (l : List Statement) : Nat :=
  if l.head?.any (isPlain Token.isReturn) then before - 1 else before

@[simp] theorem endsLeft_zero (l : List Statement) : endsLeft 0 l = 0 := ite_self 0

mutual

theorem endRunsWithin_withoutPops : (s : Statement) →
    s.withoutPops.endRunsWithin = s.endRunsWithin.map (· - 1)
  | plain .. => rfl
  | escape .. => rfl
  | composite start scope head stop inner children => by
    have inside := endRuns_removePops 0 children
    rwa [endsLeft_zero] at inside

/-- Every run is one shorter, also one that begins before the list. -/
theorem endRuns_removePops (before : Nat) : (l : List Statement) →
    endRuns (endsLeft before l) (removePops l) = (endRuns before l).map (· - 1)
  | [] => rfl
  | s :: rest => by
    have within := endRunsWithin_withoutPops s
    have longer := endRuns_removePops (before + 1) rest
    have fresh := endRuns_removePops 0 rest
    rw [endsLeft_zero] at fresh
    rw [removePops, endRuns]
    by_cases hpop : s.isPlain Token.isIteratorPop = true
    · have here : endsLeft before (s :: rest) = before := if_neg (by simp [not_isReturn_of_isIteratorPop hpop])
      rw [here, hpop, Bool.true_and, if_pos rfl, ← longer]
      cases hnext : rest.head?.any (isPlain Token.isReturn) with
      | true =>
        -- The end is removed, and the run that goes on in `rest` loses its last end.
        rw [if_pos rfl, endsLeft, if_pos hnext, Nat.add_sub_cancel]
      | false =>
        -- The end stays and lengthens the run.
        rw [if_neg Bool.false_ne_true, endRuns, isPlain_withoutPops, if_pos hpop, endsLeft,
          if_neg (by simp [hnext])]
    · -- The run is over.
      rw [if_neg (by simp [hpop]), if_neg hpop, endRuns, isPlain_withoutPops, isPlain_withoutPops,
        if_neg hpop, fresh]
      split
      · next hreturn => rw [endsLeft, if_pos (by simpa using hreturn), List.map_cons]
      · rw [within, List.map_append]

end

/-- A removal that is repeated shortens the runs as often. -/
theorem endRuns_iterate (k : Nat) (l : List Statement) :
    endRuns 0 (removePops^[k] l) = (endRuns 0 l).map (· - k) := by
  induction k with
  | zero => simp
  | succ k ih =>
    have step := endRuns_removePops 0 (removePops^[k] l)
    rw [endsLeft_zero] at step
    rw [Function.iterate_succ_apply', step, ih, List.map_map]
    exact List.map_congr_left fun n _ => Nat.sub_sub n k 1

/-- **Iterator ends before returns are removed exactly.** What is removed is fixed by the law that every
list of a tree loses the statements at the places of such ends and nothing else. The loop that walks over a
list by index has this result. When the removal is repeated `k` times, each return has `k` ends fewer
directly before it, or none if there were no more than `k`. -/
theorem removePops_exact :
    (∀ f : List Statement → List Statement,
      (∀ l, f l = (remaining l).map (onChildren f)) ↔ f = removePops) ∧
    ∀ l : List Statement,
      popsFrom? l 0 l = some (removePops l) ∧
      ∀ k, endRuns 0 (removePops^[k] l) = (endRuns 0 l).map (· - k) := by
  refine ⟨fun f => ⟨eq_removePops, ?_⟩, fun l => ⟨popsFrom?_eq [] l, fun k => endRuns_iterate k l⟩⟩
  rintro rfl
  exact removePops_eq_map

/-- There are two ends before the return in the iteration, one before the next return and none before the
last. -/
example : endRuns 0 (removePops
    [wrap 0 (.foreachHead (.expression "All") none)
      [.ofToken 1 .iteratorPop, .ofToken 2 .iteratorPop, .ofToken 3 .ret] 9,
    .ofToken 9 .iteratorPop, .ofToken 10 .ret, .ofToken 11 .ret]) = [1, 0, 0] := rfl

end Statement

end FlowRecovery
