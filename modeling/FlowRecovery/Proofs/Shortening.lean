import FlowRecovery.Proofs.Consistency
import FlowRecovery.Proofs.Frontier
import FlowRecovery.Proofs.Leftovers

/-!
# Structured bodies without their end

Dropping the last statements of a body makes another statement the last one, and the last statement
decides which targets lead to the end of the body and where a selection ends that nothing else ends. So a
statement that no rewrite was found at could get one by the elision of returns.

It does not (`Listing.structured_elided`). Passes that have come to an end have dealt with every
statement (`Listing.passed_recovered`), and what is dormant stays so whatever is dropped behind it. The
head of a selection waits for a jump behind it or for another selection; an undecoded return is
neither (`Block.selectionEndFrom?_of_append`), and where more is dropped than that, no selection was
left.
-/

namespace FlowRecovery

namespace Block

open Statement

/-! ### Passes that have come to an end -/

/-- No rewrite is found in a block if none is found at each of its statements. -/
theorem firstRewrite?_eq_none {b : Block}
    (h : ∀ front s behind, b.statements = front ++ s :: behind → b.rewriteAt? front.length = none) :
    b.firstRewrite? = none := by
  refine List.findSome?_eq_none_iff.2 fun i hi => ?_
  have hlt : i < b.statements.length := List.mem_range.1 hi
  have split : b.statements = b.statements.take i ++ b.statements[i] :: b.statements.drop (i + 1) := by
    rw [← List.drop_eq_getElem_cons hlt, List.take_append_drop]
  have := h _ _ _ split
  rwa [List.length_take, Nat.min_eq_left (Nat.le_of_lt hlt)] at this

end Block

namespace Listing

variable {l : Listing}

/-- Passes over a body end with a frontier. -/
theorem exists_frontier (sorted : fault? l = none) (addr : l.Addressed) :
    ∃ done rest, Block.Frontier l l.block.recovered done rest := by
  refine Block.recovered_induction
    (P := fun b c => (∃ done rest, Block.Frontier l b done rest) → ∃ done rest, Block.Frontier l c done rest)
    (fun _ _ => id) (fun b r hr _ ih => ?_) l.block ⟨[], l, .start sorted⟩
  rintro ⟨done, rest, h⟩
  exact ih ⟨_, _, h.rewritten sorted addr hr⟩

/-- Passes that have come to an end have dealt with every statement of a body. -/
theorem passed_recovered (sorted : fault? l = none) (addr : l.Addressed) :
    Block.Ascending l.block.recovered.statements ∧
      EachBehind (Block.Passed [] []) l.block.recovered.statements := by
  obtain ⟨done, rest, h⟩ := exists_frontier sorted addr
  have whole := h.passed_append sorted addr (List.append_nil rest).symm fun j _ =>
    Block.rewriteAt?_eq_none (Block.firstRewrite?_recovered _) j
  refine ⟨h.ascending, ?_⟩
  rw [h.statements]
  simpa [block] using whole

end Listing

namespace Block

open Statement

/-! ### What stays without a rewrite -/

variable {previous s : Statement} {l front cut : List Statement}

/-- A dormant statement stays so when statements behind it are dropped. -/
theorem Dormant.of_append {scope : Scope} (h : Dormant scope (l ++ cut) s) : Dormant scope l s :=
  h.mono fun _ hx => List.mem_map_of_mem (List.mem_append_left cut hx)

theorem Unreached.of_append {scope : Scope} {target : Offset} (h : Unreached scope target s (l ++ cut)) :
    Unreached scope target s l :=
  ⟨fun x hx => h.inside x (List.mem_append_left cut hx), h.behind, h.whole⟩

/-- Statements that are neither labels nor selections do not tell where a selection ends. -/
theorem selectionEndFrom?_of_blank {b : Block} {first : Nat}
    (blank : ∀ s ∈ cut, s.isPlain Token.isSwitch = false ∧ s.isPlain Token.isCaseLabel = false) :
    ∀ {previous : Statement} {j : Nat},
      b.selectionEndFrom? first previous j cut = some (b.openSelectionEnd first) := by
  induction cut with
  | nil => intro previous j; rfl
  | cons s cut ih =>
    intro previous j
    obtain ⟨head, label⟩ := blank s (List.mem_cons_self ..)
    rw [selectionEndFrom?_of_skip head fun h => by rw [label] at h; cases h]
    exact ih fun x hx => blank x (List.mem_cons_of_mem _ hx)

/-- A selection goes on waiting when statements are dropped that do not tell where it ends. -/
theorem selectionEndFrom?_of_append {first first' : Nat}
    (held : Held [] [] previous (l ++ cut)) (asc : Ascending (front ++ previous :: (l ++ cut)))
    (blank : ∀ s ∈ cut, s.isPlain Token.isSwitch = false ∧ s.isPlain Token.isCaseLabel = false)
    (waits : selectionEndFrom? ⟨[], front ++ previous :: (l ++ cut)⟩ first previous (front.length + 1)
      (l ++ cut) = none) :
    selectionEndFrom? ⟨[], front ++ previous :: l⟩ first' previous (front.length + 1) l = none := by
  induction l generalizing front previous with
  | nil =>
    -- Only what is dropped was left to look at, so the selection would have ended with the body.
    rw [List.nil_append, selectionEndFrom?_of_blank blank] at waits
    cases waits
  | cons s l ih =>
    cases head : s.isPlain Token.isSwitch with
    | true => exact selectionEndFrom?_of_switch head
    | false =>
      cases held with
      | nested switch =>
        rw [head] at switch
        cases switch
      | @nowhere _ _ _ target label jump unreached =>
        -- The jump before the label leads back, and no end of the body makes up for that.
        rw [List.append_nil] at unreached
        have nowhere : find? ⟨[], front ++ previous :: s :: l⟩ target (front.length + 1) = none := by
          have hb : (Block.mk [] (front ++ previous :: s :: l)).statements =
              (front ++ [previous]) ++ s :: l := List.append_cons ..
          have whole : Ascending ((front ++ previous :: s :: l) ++ cut) := by simpa using asc
          have asc' : Ascending (front ++ previous :: s :: l) := whole.left
          simpa using unreached.of_append.find?_eq_none hb asc'
        rw [selectionEndFrom?_of_label head label jump, nowhere]
        rfl
      | pass skip held =>
        rw [List.cons_append, selectionEndFrom?_of_skip head skip] at waits
        rw [selectionEndFrom?_of_skip head skip]
        have shifted := @ih s (front ++ [previous]) held
        simp only [List.append_assoc, List.singleton_append, List.length_append, List.length_singleton]
          at shifted
        exact shifted asc waits

/-- A body without a rewrite has none either when statements are dropped behind what passes have dealt with,
if these do not tell where selections end or if there is no selection. -/
theorem firstRewrite?_of_append (asc : Ascending (l ++ cut)) (passed : EachBehind (Passed [] []) (l ++ cut))
    (done : firstRewrite? ⟨[], l ++ cut⟩ = none)
    (blank : Switchless l ∨
      ∀ s ∈ cut, s.isPlain Token.isSwitch = false ∧ s.isPlain Token.isCaseLabel = false) :
    firstRewrite? ⟨[], l⟩ = none := by
  refine firstRewrite?_eq_none fun front s behind hl => ?_
  have hl : l = front ++ s :: behind := hl
  subst hl
  rw [List.append_assoc, List.cons_append] at asc passed done
  rcases passed s (behind ++ cut) ⟨front, rfl⟩ with dormant | ⟨head, held⟩
  · rw [List.append_nil] at dormant
    have whole : Ascending ((front ++ s :: behind) ++ cut) := by simpa using asc
    have asc' : Ascending (front ++ s :: behind) := whole.left
    exact rewriteAt?_of_dormant (b := ⟨[], _⟩) rfl asc' dormant.of_append
  · rcases blank with switchless | blank
    · rw [switchless s (by simp)] at head
      cases head
    · have waits := selectionEndFrom?_eq_none rfl head (rewriteAt?_eq_none done front.length)
      have hb : (Block.mk [] (front ++ s :: behind)).statements = front ++ s :: behind := rfl
      obtain ⟨discriminant, heq⟩ := rewriteAt?_of_switch hb head
      rw [heq, selectionEndFrom?_of_append held asc blank waits]
      rfl

/-! ### What elision drops -/

/-- If a jump was left somewhere, elision drops an undecoded return at the end, if anything. -/
theorem withoutRedundantReturns_cases (b : Block) :
    b.hasRawJumps = false ∨
      ∃ cut, b.statements = b.withoutRedundantReturns.statements ++ cut ∧
        ∀ s ∈ cut, s.isPlain Token.isErrorReturn = true := by
  cases hjumps : b.hasRawJumps with
  | false => exact .inl rfl
  | true =>
    have kept : b.withoutRedundantReturns = b.trimLast Token.isErrorReturn :=
      if_pos (b.hasRawJumps_withoutTrailingErrorReturn.trans hjumps)
    rw [kept]
    rcases b.trimLast_cases Token.isErrorReturn with heq | ⟨s, hs, heq⟩
    · exact .inr ⟨[], by simp [heq], nofun⟩
    · exact .inr ⟨[s], heq, fun x hx => List.mem_singleton.1 hx ▸ hs⟩

/-- An undecoded return is neither a label nor a selection. -/
theorem blank_of_isErrorReturn (h : s.isPlain Token.isErrorReturn = true) :
    s.isPlain Token.isSwitch = false ∧ s.isPlain Token.isCaseLabel = false := by
  obtain ⟨t, ht, herror⟩ := isPlain_iff.1 h
  cases t <;> first | cases herror | simp [isPlain, ht, Token.isSwitch, Token.isCaseLabel]

/-- Where nothing is left to rewrite and no jump either, no selection is left. -/
theorem switchless_of_hasRawJumps {b : Block} (done : b.firstRewrite? = none)
    (hjumps : b.hasRawJumps = false) : Switchless b.statements := by
  intro s hs
  have astray := Settled.astray ((eachBehind_deferred done).mono fun _ _ _ h => h.excused.1) hjumps
  obtain ⟨front, behind, heq⟩ := List.append_of_mem hs
  exact (astray s behind ⟨front, heq.symm⟩).1

/-- Elision of returns brings no rewrite about. -/
theorem firstRewrite?_withoutRedundantReturns {b : Block} (body : b.scope = [])
    (asc : Ascending b.statements) (passed : EachBehind (Passed [] []) b.statements)
    (done : b.firstRewrite? = none) : b.withoutRedundantReturns.firstRewrite? = none := by
  have shortened (cut : List Statement) (hcut : b.statements = b.withoutRedundantReturns.statements ++ cut)
      (blank : Switchless b.withoutRedundantReturns.statements ∨
        ∀ s ∈ cut, s.isPlain Token.isSwitch = false ∧ s.isPlain Token.isCaseLabel = false) :
      b.withoutRedundantReturns.firstRewrite? = none := by
    have hb : b = ⟨[], b.withoutRedundantReturns.statements ++ cut⟩ := by rw [← body, ← hcut]
    have helided : b.withoutRedundantReturns = ⟨[], b.withoutRedundantReturns.statements⟩ := by
      rw [← body, ← scope_withoutRedundantReturns b]
    rw [hcut] at asc passed
    rw [hb] at done
    rw [helided]
    exact firstRewrite?_of_append asc passed done blank
  rcases b.withoutRedundantReturns_cases with hjumps | ⟨cut, hcut, herror⟩
  · obtain ⟨cut, hcut⟩ := b.withoutRedundantReturns_isPrefix
    refine shortened cut hcut.symm (.inl fun s hs => ?_)
    exact switchless_of_hasRawJumps done hjumps s (hcut ▸ List.mem_append_left cut hs)
  · exact shortened cut hcut (.inr fun s hs => blank_of_isErrorReturn (herror s hs))

end Block

namespace Listing

/-- **Structuring leaves a body as it is once it was structured and its returns were elided.** -/
theorem structured_elided (l : Listing) (sorted : fault? l = none) (addr : l.Addressed) :
    l.block.structured.value.withoutRedundantReturns.structured =
      .done l.block.structured.value.withoutRedundantReturns := by
  obtain ⟨asc, passed⟩ := passed_recovered sorted addr
  have settled : l.block.recovered.withoutRedundantReturns.firstRewrite? = none :=
    Block.firstRewrite?_withoutRedundantReturns (Block.scope_recovered _) asc passed
      (Block.firstRewrite?_recovered _)
  have done := Block.structured_eq_done l.block.recovered.withoutRedundantReturns
  rwa [Block.recovered_of_firstRewrite?_eq_none settled] at done

/-- A selection that waits for a jump back before a label, a conditional jump back and an iteration
without an exit, in front of an undecoded return. -/
def retained : Listing :=
  [⟨0, none, .expression "A()"⟩, ⟨5, none, .switch (.expression "d")⟩, ⟨10, none, .caseLabel "1"⟩,
    ⟨15, none, .jump 0⟩, ⟨20, none, .caseLabel "2"⟩, ⟨25, none, .jumpIfNot (.expression "c") 5⟩,
    ⟨30, none, .foreach (.expression "E") 9⟩, ⟨35, none, .jumpIfNot (.expression "d") 45⟩,
    ⟨40, none, .expression "B()"⟩, ⟨45, none, .errorReturn "end"⟩]

theorem structured_elided_retained :
    fault? retained = none ∧ retained.Addressed ∧
      retained.block.structured.value.withoutRedundantReturns.structured =
        .done retained.block.structured.value.withoutRedundantReturns :=
  ⟨by decide, by decide, structured_elided retained (by decide) (by decide)⟩

end Listing

end FlowRecovery
