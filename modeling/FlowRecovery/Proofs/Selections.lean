import FlowRecovery.Proofs.RoundTrip

/-!
# Selections and their code

A selection is a list of clauses, each with a label, statements, conditionals and perhaps a `break` at its
end. Its code is flat, and every `break` is a jump to the place behind the clauses:

```text
switch d
label:  statements...  jumpIfNot c AFTER  statements...  jump END  AFTER:  statements...  jump END
label:  statements...
END:
```

What structuring leaves of the clauses is `Part.left` (`recovered_clauses`). A conditional that ends with
a `break` is taken for one with two branches, since a jump stands before the place that its condition
leads to: all that follows in the selection becomes the second branch.
-/

namespace FlowRecovery

/-- A statement without control flow. -/
inductive Step where
  /-- An ordinary statement. -/
  | expression (text : String)
  /-- A return. -/
  | ret (value? : Option Token)

/-- What a clause begins with. -/
inductive Label where
  /-- A label for some values. -/
  | case (text : String)
  /-- The label for all other values. -/
  | default

/-- What a clause consists of. -/
inductive Clause.Item where
  /-- A statement. -/
  | step (s : Step)
  /-- A conditional, which may end with a `break`. -/
  | branch (condition : Token) (body : List Step) (leaves : Bool)

/-- A clause of a selection, which may end with a `break`. -/
structure Clause where
  /-- The label. -/
  label : Label
  /-- The statements and conditionals behind it. -/
  items : List Clause.Item
  /-- There is a `break` at the end. -/
  leaves : Bool

/-- A selection and the ordinary statements behind it, of which there is at least one. -/
structure Selection where
  /-- The value that is looked for. -/
  discriminant : Token
  /-- The clauses. -/
  clauses : List Clause
  /-- The statement behind the selection. -/
  next : String
  /-- The statements behind that one. -/
  more : List String

/-- What the code of the clauses of a selection consists of. -/
inductive Part where
  /-- The label of a clause. -/
  | label (l : Label)
  /-- A statement. -/
  | step (s : Step)
  /-- A conditional, which may end with a `break`. -/
  | branch (condition : Token) (body : List Step) (leaves : Bool)
  /-- The `break` at the end of a clause. -/
  | leave

/-! ### Code -/

/-- The instruction of a statement. -/
def Step.token : Step → Token
  | expression text => .expression text
  | ret value? => .retOf value?

/-- The instruction of a label. -/
def Label.token : Label → Token
  | case text => .caseLabel text
  | default => .defaultLabel

/-- The instructions of a branch, which leaves the selection by a jump to instruction `exit`. -/
def Step.branchTokens (lay : Placement) (exit : Nat) (body : List Step) (leaves : Bool) : List Token :=
  body.map Step.token ++ if leaves then [.jump (lay.start exit)] else []

/-- The part that an item of a clause is. -/
def Clause.Item.part : Clause.Item → Part
  | step s => .step s
  | branch condition body leaves => .branch condition body leaves

/-- A clause in parts. -/
def Clause.parts (c : Clause) : List Part :=
  .label c.label :: (c.items.map Clause.Item.part ++ if c.leaves then [.leave] else [])

namespace Placement

/-- Instructions one after the other, from instruction `k` on. -/
def run (lay : Placement) (k : Nat) : List Token → Listing
  | [] => []
  | t :: rest => lay.entry k t :: lay.run (k + 1) rest

end Placement

namespace Part

/-- How many instructions a part has. -/
def size : Part → Nat
  | branch _ body leaves => 1 + (body.length + if leaves then 1 else 0)
  | _ => 1

/-- How many instructions parts have. -/
def total : List Part → Nat
  | [] => 0
  | p :: rest => p.size + total rest

/-- The instructions of a part, the first one being instruction `k`, in a selection that ends at
instruction `exit`. -/
def tokens (lay : Placement) (exit k : Nat) : Part → List Token
  | label l => [l.token]
  | step s => [s.token]
  | branch condition body leaves =>
      .jumpIfNot condition (lay.start (k + (branch condition body leaves).size)) ::
        Step.branchTokens lay exit body leaves
  | leave => [.jump (lay.start exit)]

/-- The code of parts, from instruction `k` on, in a selection that ends at instruction `exit`. -/
def code (lay : Placement) (exit k : Nat) : List Part → Listing
  | [] => []
  | p :: rest => lay.run k (p.tokens lay exit k) ++ code lay exit (k + p.size) rest

/-- A conditional at instruction `k` that goes on at `stop`, with a jump at its end if it leaves the
selection. -/
def conditional (lay : Placement) (exit k : Nat) (scope : Scope) (condition : Token)
    (body : List Step) (stop : Offset) (leaves : Bool) : Statement :=
  let inner := ⟨.ifBlock, lay.start k, stop⟩ :: scope
  .composite (lay.start k) scope (.ifHead condition) stop inner
    ((lay.run (k + 1) (Step.branchTokens lay exit body leaves)).placed inner)

/-- What structuring leaves of the code of parts within `scope`. -/
def left (lay : Placement) (exit k : Nat) (scope : Scope) : List Part → List Statement
  | [] => []
  | branch condition body leaves :: rest =>
      let last := k + 1 + body.length
      let after := k + (branch condition body leaves).size
      if leaves && !rest.isEmpty then
        let inner := ⟨.elseBlock, lay.start after, lay.start exit⟩ :: scope
        [conditional lay exit k scope condition body (lay.start last) false,
          .composite (lay.start after) scope .elseHead (lay.start exit) inner
            (left lay exit after inner rest)]
      else
        conditional lay exit k scope condition body (lay.start after) leaves ::
          left lay exit after scope rest
  | p :: rest =>
      (lay.run k (p.tokens lay exit k)).placed scope ++ left lay exit (k + p.size) scope rest

end Part

namespace Selection

/-- The clauses in parts. -/
def parts (s : Selection) : List Part := s.clauses.flatMap Clause.parts

/-- The instruction behind the clauses. -/
def exit (s : Selection) : Nat := 1 + Part.total s.parts

/-- The instructions behind the clauses. -/
def behind (lay : Placement) (s : Selection) : Listing :=
  lay.run s.exit ((s.next :: s.more).map .expression)

/-- The code of a selection and of what is behind it. -/
def listing (lay : Placement) (s : Selection) : Listing :=
  lay.entry 0 (.switch s.discriminant) :: (Part.code lay s.exit 1 s.parts ++ s.behind lay)

end Selection

/-! ### Offsets -/

namespace Placement

variable {lay : Placement}

theorem run_append (k : Nat) (l m : List Token) :
    lay.run k (l ++ m) = lay.run k l ++ lay.run (k + l.length) m := by
  induction l generalizing k with
  | nil => rfl
  | cons t rest ih => simp [run, ih, Nat.add_assoc, Nat.add_comm 1]

theorem map_offset_run (lay : Placement) (k : Nat) (l : List Token) :
    (lay.run k l).map Entry.offset = (List.range' k l.length).map lay.start := by
  induction l generalizing k with
  | nil => rfl
  | cons t rest ih => simp [run, ih, List.range'_succ]

theorem map_token_run (k : Nat) (l : List Token) : (lay.run k l).map Entry.token = l := by
  induction l generalizing k with
  | nil => rfl
  | cons t rest ih => simp [run, ih, entry]

theorem token_of_mem_run {k : Nat} {l : List Token} {x : Entry} (hx : x ∈ lay.run k l) :
    x.token ∈ l := by
  have h := List.mem_map_of_mem (f := Entry.token) hx
  rwa [map_token_run] at h

/-- Instructions one after the other are in the order of the code. -/
theorem Rises.orderly {n k count : Nat} {l : Listing} (h : lay.Rises n)
    (offsets : l.map Entry.offset = (List.range' k count).map lay.start) (hn : k + count ≤ n + 1)
    (switchless : ∀ x ∈ l, x.token.isSwitch = false) : l.Orderly := by
  refine ⟨?_, switchless⟩
  rw [offsets, List.pairwise_map]
  refine List.Pairwise.imp_of_mem (fun _ hj hij => h _ _ hij ?_) (List.pairwise_lt_range' ..)
  have := (List.mem_range'_1.1 hj).2
  omega

/-- All of them start before a later instruction. -/
theorem Rises.lt_of_mem {n k count j : Nat} {l : Listing} (h : lay.Rises n)
    (offsets : l.map Entry.offset = (List.range' k count).map lay.start) (hkj : k + count ≤ j)
    (hj : j ≤ n) {x : Entry} (hx : x ∈ l) : x.offset < lay.start j := by
  have hmem := List.mem_map_of_mem (f := Entry.offset) hx
  rw [offsets] at hmem
  obtain ⟨i, hi, heq⟩ := List.mem_map.1 hmem
  exact heq ▸ h i j (Nat.lt_of_lt_of_le (List.mem_range'_1.1 hi).2 hkj) hj

end Placement

theorem Step.length_branchTokens (lay : Placement) (exit : Nat) (body : List Step) (leaves : Bool) :
    (Step.branchTokens lay exit body leaves).length = body.length + if leaves then 1 else 0 := by
  cases leaves <;> simp [Step.branchTokens]

namespace Part

variable {lay : Placement} {exit : Nat}

theorem length_tokens (k : Nat) (p : Part) : (p.tokens lay exit k).length = p.size := by
  cases p with
  | branch condition body leaves =>
    rw [tokens, List.length_cons, Step.length_branchTokens, size, Nat.add_comm]
  | _ => rfl

theorem size_pos (p : Part) : 0 < p.size := by
  cases p <;> simp only [size] <;> omega

/-- The instruction behind a conditional that ends with a `break`. -/
theorem add_size_branch (k : Nat) (condition : Token) (body : List Step) :
    k + (branch condition body true).size = k + 1 + body.length + 1 := by
  simp only [size, if_true]
  omega

theorem total_pos {parts : List Part} (h : parts ≠ []) : 0 < total parts := by
  cases parts with
  | nil => exact absurd rfl h
  | cons p rest => exact Nat.add_pos_left p.size_pos _

/-- The code of parts takes one instruction after the other. -/
theorem map_offset_code (lay : Placement) (exit : Nat) (parts : List Part) (k : Nat) :
    (code lay exit k parts).map Entry.offset = (List.range' k (total parts)).map lay.start := by
  induction parts generalizing k with
  | nil => rfl
  | cons p rest ih =>
    rw [code, total, List.map_append, Placement.map_offset_run, length_tokens, ih,
      ← List.range'_append_1, List.map_append]

theorem length_code (lay : Placement) (exit : Nat) (parts : List Part) (k : Nat) :
    (code lay exit k parts).length = total parts := by
  simpa using congrArg List.length (map_offset_code lay exit parts k)

theorem code_ne_nil (lay : Placement) (exit k : Nat) {parts : List Part} (h : parts ≠ []) :
    code lay exit k parts ≠ [] := by
  rw [← List.length_pos_iff, length_code]
  exact total_pos h

theorem offset_of_mem_head? {parts : List Part} {k : Nat} {x : Entry}
    (hx : x ∈ (code lay exit k parts).head?) : x.offset = lay.start k := by
  have heads := congrArg List.head? (map_offset_code lay exit parts k)
  rw [List.head?_map, Option.mem_def.1 hx, List.head?_map, List.head?_range'] at heads
  split at heads
  · cases heads
  · simpa using heads

end Part

/-! ### What stays in a clause -/

/-- An instruction at which nothing is rewritten within `scope`: no branch, or a jump that leads out of no
loop. -/
def Token.Stays (scope : Scope) (t : Token) : Prop :=
  (t.isBranch = false ∨ ∃ target, t = .jump target ∧ scope.loopExit? target = none) ∧
    t.isIteratorNext = false ∧ t.isSwitch = false

theorem Listing.recovered_append_of_stays {scope : Scope} {front l : Listing}
    (orderly : Orderly (front ++ l)) (stays : ∀ e ∈ front, e.token.Stays scope) :
    recovered scope (front ++ l) = front.placed scope ++ recovered scope l := by
  induction front with
  | nil => rfl
  | cons e front ih =>
    obtain ⟨branch, next, -⟩ := stays e (List.mem_cons_self ..)
    rw [List.cons_append] at orderly ⊢
    have dormant : Block.Dormant scope (placed scope (front ++ l)) (e.placed scope) := by
      rcases branch with still | ⟨target, token, exit⟩
      · exact .still still
      · rw [Entry.placed, token]
        exact .jump exit
    rw [recovered_cons orderly dormant (fun h => absurd h (Bool.eq_false_iff.1 next)),
      ih orderly.tail fun x hx => stays x (List.mem_cons_of_mem _ hx)]
    rfl

theorem Listing.recovered_of_stays {scope : Scope} {l : Listing} (orderly : Orderly l)
    (stays : ∀ e ∈ l, e.token.Stays scope) : recovered scope l = l.placed scope := by
  rw [← List.append_nil l] at orderly
  simpa using recovered_append_of_stays orderly stays

theorem Step.stays (scope : Scope) (s : Step) : s.token.Stays scope := by
  cases s with
  | expression => exact ⟨.inl rfl, rfl, rfl⟩
  | ret value? => cases value? <;> exact ⟨.inl rfl, rfl, rfl⟩

theorem Label.stays (scope : Scope) (l : Label) : l.token.Stays scope := by
  cases l <;> exact ⟨.inl rfl, rfl, rfl⟩

section

variable {lay : Placement} {exit : Nat} {scope : Scope}

theorem Token.stays_jump (outside : scope.loopExit? (lay.start exit) = none) :
    (Token.jump (lay.start exit)).Stays scope := ⟨.inr ⟨_, rfl, outside⟩, rfl, rfl⟩

theorem Step.stays_branchTokens (outside : scope.loopExit? (lay.start exit) = none)
    (body : List Step) (leaves : Bool) :
    ∀ t ∈ Step.branchTokens lay exit body leaves, t.Stays scope := by
  intro t ht
  rcases List.mem_append.1 ht with ht | ht
  · obtain ⟨s, -, rfl⟩ := List.mem_map.1 ht
    exact s.stays scope
  · cases leaves with
    | false => cases ht
    | true => exact List.mem_singleton.1 ht ▸ Token.stays_jump outside

/-- The only jumps in a branch are those out of the selection. -/
theorem Step.of_jump_mem_branchTokens {body : List Step} {leaves : Bool} {x : Offset}
    (h : Token.jump x ∈ Step.branchTokens lay exit body leaves) :
    leaves = true ∧ x = lay.start exit := by
  rcases List.mem_append.1 h with h | h
  · obtain ⟨s, -, hs⟩ := List.mem_map.1 h
    cases s with
    | expression => cases hs
    | ret value? => cases value? <;> cases hs
  · cases leaves with
    | false => cases h
    | true => exact ⟨rfl, Token.jump.inj (List.mem_singleton.1 h)⟩

theorem Part.isSwitch_of_mem_code {parts : List Part} {k : Nat} {x : Entry}
    (hx : x ∈ Part.code lay exit k parts) : x.token.isSwitch = false := by
  induction parts generalizing k with
  | nil => cases hx
  | cons p rest ih =>
    rcases List.mem_append.1 hx with hx | hx
    · have ht := Placement.token_of_mem_run hx
      cases p with
      | label l => exact List.mem_singleton.1 ht ▸ (l.stays []).2.2
      | step s => exact List.mem_singleton.1 ht ▸ (s.stays []).2.2
      | leave => exact List.mem_singleton.1 ht ▸ rfl
      | branch condition body leaves =>
        rcases List.mem_cons.1 ht with ht | ht
        · exact ht ▸ rfl
        · exact (Step.stays_branchTokens (show Scope.loopExit? [] _ = none from rfl) body leaves _
            ht).2.2
    · exact ih hx

end

/-! ### What is left of the clauses -/

namespace Part

open Listing

/-- The place of the code of parts in a selection: it takes the instructions from `k` on, up to the end
of the selection, which is where control goes on behind `scope`, and stands in no loop. -/
structure Ahead (lay : Placement) (exit k : Nat) (scope : Scope) (parts : List Part) : Prop where
  /-- Offsets increase up to the end of the selection. -/
  rises : lay.Rises exit
  /-- The code goes up to the end. -/
  ends : k + total parts = exit
  /-- Control goes on there behind all of it. -/
  stop : ∀ frame ∈ scope.head?, frame.stop = lay.start exit
  /-- No loop exits there. -/
  outside : scope.loopExit? (lay.start exit) = none

variable {lay : Placement} {exit k : Nat} {scope : Scope} {p : Part} {parts rest : List Part}

namespace Ahead

theorem orderly (h : Ahead lay exit k scope parts) : (code lay exit k parts).Orderly :=
  h.rises.orderly (map_offset_code lay exit parts k) (Nat.le_succ_of_le (Nat.le_of_eq h.ends))
    fun _ => isSwitch_of_mem_code

theorem tail (h : Ahead lay exit k scope (p :: rest)) : Ahead lay exit (k + p.size) scope rest :=
  ⟨h.rises, by rw [Nat.add_assoc]; exact h.ends, h.stop, h.outside⟩

/-- Within a second branch that goes up to the end. -/
theorem under (h : Ahead lay exit k scope parts) (start : Offset) :
    Ahead lay exit k (⟨.elseBlock, start, lay.start exit⟩ :: scope) parts := by
  refine ⟨h.rises, h.ends, fun frame hf => ?_, ?_⟩
  · cases hf
    rfl
  · rw [Scope.loopExit?_branch rfl]
    exact h.outside

theorem le (h : Ahead lay exit k scope parts) : k ≤ exit := h.ends ▸ Nat.le_add_right ..

theorem lt (h : Ahead lay exit k scope parts) (hparts : parts ≠ []) : k < exit :=
  h.ends ▸ Nat.lt_add_of_pos_right (total_pos hparts)

theorem lt_exit (h : Ahead lay exit k scope parts) {x : Entry} (hx : x ∈ code lay exit k parts) :
    x.offset < lay.start exit :=
  h.rises.lt_of_mem (map_offset_code lay exit parts k) (Nat.le_of_eq h.ends) (Nat.le_refl _) hx

/-- A jump to the first of the parts leads there from anything in front of them. -/
theorem leads (h : Ahead lay exit k scope parts) {front : Listing}
    (before : ∀ x ∈ front, x.offset < lay.start k) :
    Leads scope (lay.start k) front (code lay exit k parts) := by
  refine ⟨before, fun x => offset_of_mem_head?, fun hne frame hf => ?_, fun hnil frame hf => ?_⟩
  · rw [h.stop frame hf]
    refine h.rises k exit (h.lt ?_) (Nat.le_refl _)
    rintro rfl
    exact hne rfl
  · rw [h.stop frame hf]
    have hends := h.ends
    rw [← length_code lay exit parts k, hnil] at hends
    rw [← hends]
    rfl

end Ahead

/-- What is left of a first branch that stays as it is. -/
theorem under_ifHead_branchTokens (outside : scope.loopExit? (lay.start exit) = none)
    {body : List Step} {leaves : Bool} {condition : Token} {stop : Offset}
    (orderly : (lay.run (k + 1) (Step.branchTokens lay exit body leaves)).Orderly) :
    (lay.run (k + 1) (Step.branchTokens lay exit body leaves)).under (lay.start k) scope
        (.ifHead condition) stop =
      conditional lay exit k scope condition body stop leaves := by
  refine under_ifHead ?_
  have outside' : Scope.loopExit? (⟨.ifBlock, lay.start k, stop⟩ :: scope) (lay.start exit) = none := by
    rw [Scope.loopExit?_branch rfl]
    exact outside
  exact recovered_of_stays orderly fun e he =>
    Step.stays_branchTokens outside' body leaves _ (Placement.token_of_mem_run he)

theorem left_of_single {condition : Token} {body : List Step} {leaves : Bool}
    (single : leaves = true → rest = []) :
    let after := k + (branch condition body leaves).size
    left lay exit k scope (branch condition body leaves :: rest) =
      conditional lay exit k scope condition body (lay.start after) leaves ::
        left lay exit after scope rest := by
  refine if_neg fun h => ?_
  rw [Bool.and_eq_true] at h
  rw [single h.1] at h
  cases h.2

theorem left_of_covering (condition : Token) (body : List Step) (hrest : rest ≠ []) :
    let last := k + 1 + body.length
    let inner := ⟨.elseBlock, lay.start (last + 1), lay.start exit⟩ :: scope
    left lay exit k scope (branch condition body true :: rest) =
      [conditional lay exit k scope condition body (lay.start last) false,
        .composite (lay.start (last + 1)) scope .elseHead (lay.start exit) inner
          (left lay exit (last + 1) inner rest)] := by
  intro last inner
  rw [left, add_size_branch]
  exact if_pos (by simpa using hrest)

/-- A conditional without a second branch: it does not end with a `break`, or nothing is behind it. -/
theorem recovered_single {condition : Token} {body : List Step} {leaves : Bool}
    (ahead : Ahead lay exit k scope (branch condition body leaves :: rest))
    (single : leaves = true → rest = []) :
    let after := k + (branch condition body leaves).size
    recovered scope (code lay exit k (branch condition body leaves :: rest)) =
      conditional lay exit k scope condition body (lay.start after) leaves ::
        recovered scope (code lay exit after rest) := by
  intro after
  have orderly := ahead.orderly
  have offsets := Placement.map_offset_run lay k
    ((branch condition body leaves).tokens lay exit k)
  rw [length_tokens] at offsets
  have leads := ahead.tail.leads fun x =>
    ahead.rises.lt_of_mem offsets (Nat.le_refl _) ahead.tail.le
  rw [code, tokens, Placement.run] at orderly ⊢
  rw [tokens, Placement.run] at leads
  rw [recovered_conditional orderly rfl leads fun x hx => ?_, Placement.offset_entry,
    under_ifHead_branchTokens ahead.outside orderly.left.tail]
  -- The last instruction is a jump only if it is one to the end, where the conditional ends, too.
  obtain ⟨y, hy, hyx⟩ := Option.map_eq_some_iff.1 hx
  have hmem : Token.jump x ∈ Step.branchTokens lay exit body leaves := by
    rcases List.mem_cons.1 (List.mem_of_getLast? hy) with rfl | hmem
    · cases hyx
    · exact hyx ▸ Placement.token_of_mem_run hmem
  obtain ⟨rfl, rfl⟩ := Step.of_jump_mem_branchTokens hmem
  have hafter : after = exit := by
    have ends := ahead.tail.ends
    rwa [single rfl] at ends
  refine ⟨(Fin.ne_of_lt ?_).symm, secondBranchEnd?_of_le orderly leads (Fin.le_of_eq ?_)⟩
  · exact ahead.rises k exit (ahead.lt (List.cons_ne_nil _ _)) (Nat.le_refl _)
  · exact congrArg lay.start hafter.symm

/-- The code of a conditional that ends with a `break`: the condition, the body, the jump, and what is
behind. -/
theorem code_covering (lay : Placement) (exit k : Nat) (condition : Token) (body : List Step)
    (rest : List Part) :
    let last := k + 1 + body.length
    code lay exit k (branch condition body true :: rest) =
      lay.entry k (.jumpIfNot condition (lay.start (last + 1))) ::
          lay.run (k + 1) (Step.branchTokens lay exit body false) ++
        [lay.entry last (.jump (lay.start exit))] ++ code lay exit (last + 1) rest := by
  intro last
  rw [code, tokens, add_size_branch, Placement.run, Step.branchTokens, Step.branchTokens,
    Placement.run_append, List.length_map]
  simp [Placement.run, last]

/-- A conditional that ends with a `break` and has something behind it: its jump leads over all of that,
which becomes the second branch. -/
theorem recovered_covering {condition : Token} {body : List Step}
    (ahead : Ahead lay exit k scope (branch condition body true :: rest)) (hrest : rest ≠ [])
    {u : List Statement} :
    let last := k + 1 + body.length
    let inner := ⟨.elseBlock, lay.start (last + 1), lay.start exit⟩ :: scope
    recovered inner (code lay exit (last + 1) rest) = u →
      recovered scope (code lay exit k (branch condition body true :: rest)) =
        [conditional lay exit k scope condition body (lay.start last) false,
          .composite (lay.start (last + 1)) scope .elseHead (lay.start exit) inner u] := by
  intro last inner hother
  have parts := code_covering lay exit k condition body rest
  have tail := ahead.tail
  have orderly := ahead.orderly
  rw [add_size_branch] at tail
  rw [parts] at orderly
  obtain ⟨o, more, ho⟩ := List.exists_cons_of_ne_nil (code_ne_nil lay exit (last + 1) hrest)
  have hoffset : o.offset = lay.start (last + 1) :=
    offset_of_mem_head? (show o ∈ (code lay exit (last + 1) rest).head? by rw [ho]; rfl)
  have leads := tail.leads fun x hx => hoffset ▸ orderly.lt_of_append hx (ho ▸ List.mem_cons_self ..)
  have leads' := Leads.atEnd (fun x hx => ahead.lt_exit (parts ▸ hx)) ahead.stop
  have ne_start : lay.start exit ≠ lay.start k :=
    (Fin.ne_of_lt (ahead.rises k exit (ahead.lt (List.cons_ne_nil _ _)) (Nat.le_refl _))).symm
  rw [← List.append_nil (code lay exit k _), parts]
  rw [← List.append_nil (_ ++ code lay exit (last + 1) rest)] at orderly
  rw [recovered_alternative orderly rfl (by rwa [List.append_nil]) rfl ne_start ahead.outside
    (by rw [ho]; rfl) leads']
  rw [Placement.offset_entry, Placement.offset_entry,
    under_ifHead_branchTokens ahead.outside orderly.left.left.left.tail, hoffset,
    under_elseHead hother, recovered_nil]

/-- **What is left of the clauses of a selection.** -/
theorem recovered_clauses (ahead : Ahead lay exit k scope parts) :
    recovered scope (code lay exit k parts) = left lay exit k scope parts := by
  induction parts generalizing k scope with
  | nil => exact recovered_nil
  | cons p rest ih =>
    have stays (h : ∀ t ∈ p.tokens lay exit k, t.Stays scope) :
        recovered scope (code lay exit k (p :: rest)) =
          (lay.run k (p.tokens lay exit k)).placed scope ++ left lay exit (k + p.size) scope rest := by
      rw [code, recovered_append_of_stays ahead.orderly fun e he =>
        h _ (Placement.token_of_mem_run he), ih ahead.tail]
    cases p with
    | label l => exact stays fun t ht => List.mem_singleton.1 ht ▸ l.stays scope
    | step s => exact stays fun t ht => List.mem_singleton.1 ht ▸ s.stays scope
    | leave => exact stays fun t ht => List.mem_singleton.1 ht ▸ Token.stays_jump ahead.outside
    | branch condition body leaves =>
      by_cases covering : leaves = true ∧ rest ≠ []
      · obtain ⟨rfl, hrest⟩ := covering
        have tail := ahead.tail
        rw [add_size_branch] at tail
        rw [recovered_covering ahead hrest (ih (tail.under _)), left_of_covering condition body hrest]
      · have single (h : leaves = true) : rest = [] := by
          by_cases hrest : rest = []
          · exact hrest
          · exact absurd ⟨h, hrest⟩ covering
        rw [recovered_single ahead single, ih ahead.tail, left_of_single single]

end Part

/-! ### Instructions among statements -/

namespace Statement

theorem anyOf_placed (p : Token → Bool) (scope : Scope) (l : Listing) :
    anyOf (isPlain p) (l.placed scope) = l.any fun e => p e.token := by
  induction l with
  | nil => rfl
  | cons e rest ih =>
    rw [Listing.placed_cons, anyOf, ih]
    rfl

theorem breaksTo_cons {stop : Offset} {scope : Scope} {afterReturn : Bool} {m : Statement}
    {l : List Statement} (h : m.jumpTarget? = none) :
    breaksTo stop scope afterReturn (m :: l) =
      m :: breaksTo stop scope (m.isPlain Token.isReturn) l := by
  rw [breaksTo, h]
  rfl

end Statement

/-! ### Where a selection ends -/

/-- A jump that leads to a place leads there from behind an instruction in front, too. -/
theorem Listing.find?_cons_of_leads {scope : Scope} {target : Offset} {front behind : Listing}
    {first : Nat} (e : Entry) (orderly : Orderly (front ++ behind))
    (leads : Leads scope target front behind) (hfront : front ≠ [])
    (hfirst : first ≤ front.length) :
    Block.find? ⟨scope, placed scope (e :: (front ++ behind))⟩ target (first + 1) =
      some (front.length + 1) := by
  have nonempty : placed scope (front ++ behind) ≠ [] := by simp [placed, hfront]
  rw [placed_cons, Block.find?_succ nonempty, find?_of_leads orderly.ascending_placed leads hfront hfirst]
  rfl

namespace Block

/-- A selection ends where its breaks lead, if there is one directly before a label. -/
theorem selectionEndFrom?_of_break {b : Block} {first after : Nat} {stop : Offset}
    (found : ∀ j, 0 < j → j ≤ after → b.find? stop j = some after) {front behind : List Statement}
    {jump label : Statement} (hjump : jump.jumpTarget? = some stop)
    (hlabel : label.isPlain Token.isCaseLabel = true) {previous : Statement}
    {rest : List Statement} {j : Nat} (parts : previous :: rest = front ++ jump :: label :: behind)
    (jumps : ∀ s ∈ previous :: rest, ∀ x, s.jumpTarget? = some x → x = stop)
    (switchless : Switchless rest) (hpos : 0 < j) (hj : j + front.length ≤ after) :
    b.selectionEndFrom? first previous j rest = some (after, stop) := by
  induction front generalizing previous rest j with
  | nil =>
    obtain ⟨rfl, rfl⟩ := List.cons.inj parts
    have hswitch := switchless label (List.mem_cons_self ..)
    have hfound := found j hpos hj
    simp [selectionEndFrom?, hswitch, hlabel, hjump, hfound]
  | cons f front ih =>
    obtain ⟨rfl, rfl⟩ : previous = f ∧ rest = front ++ jump :: label :: behind := List.cons.inj parts
    obtain ⟨s, rest, hrest⟩ : ∃ s rest, front ++ jump :: label :: behind = s :: rest :=
      List.exists_cons_of_ne_nil (by simp)
    rw [List.length_cons] at hj
    rw [hrest] at jumps switchless ⊢
    have step := ih (j := j + 1) hrest.symm (fun m hm => jumps m (List.mem_cons_of_mem _ hm))
      switchless.tail (Nat.succ_pos j) (by omega)
    rw [selectionEndFrom?, if_neg (by simp [switchless s (List.mem_cons_self ..)])]
    split
    · next target hlabel' hjump' =>
      obtain rfl := jumps previous (List.mem_cons_self ..) target hjump'
      rw [found j hpos (by omega)]
      rfl
    · exact step

end Block

namespace Listing

variable {scope : Scope} {e j label : Entry} {discriminant : Token} {stop : Offset}
  {body front more post : Listing}

/-- A selection with a jump directly before a label ends where that jump leads, if no jump leads
elsewhere. -/
theorem selectionEndFrom?_placed (orderly : Orderly (body ++ post)) (leads : Leads scope stop body post)
    (jumps : ∀ x ∈ e :: body ++ post, ∀ target, x.token = .jump target → target = stop)
    (split : body = front ++ j :: label :: more) (across : j.token = .jump stop)
    (isLabel : label.token.isCaseLabel = true) :
    Block.selectionEndFrom? ⟨scope, placed scope (e :: body ++ post)⟩ (0 + 1) (e.placed scope) (0 + 1)
        (placed scope (body ++ post)) = some ((e :: body).length, stop) := by
  have hbody : body ≠ [] := by rw [split]; simp
  have found (i : Nat) (hpos : 0 < i) (hi : i ≤ (e :: body).length) :
      Block.find? ⟨scope, placed scope (e :: body ++ post)⟩ stop i = some (e :: body).length := by
    obtain ⟨i, rfl⟩ := Nat.exists_eq_succ_of_ne_zero (Nat.pos_iff_ne_zero.1 hpos)
    exact find?_cons_of_leads e orderly leads hbody (Nat.le_of_succ_le_succ hi)
  have targets : ∀ s ∈ placed scope (e :: body ++ post), ∀ x, s.jumpTarget? = some x → x = stop := by
    intro s hs x hx
    obtain ⟨y, hy, rfl⟩ := mem_placed.1 hs
    exact jumps y hy x (Token.jumpTarget?_eq_some_iff.1 hx)
  have parts : placed scope (e :: body ++ post) =
      placed scope (e :: front) ++
        j.placed scope :: label.placed scope :: placed scope (more ++ post) := by
    rw [split]
    simp
  have hjump : (j.placed scope).jumpTarget? = some stop := by
    rw [Statement.jumpTarget?, Entry.placed, Statement.token?, across]
    rfl
  have hlabel : (label.placed scope).isPlain Token.isCaseLabel = true := isLabel
  exact Block.selectionEndFrom?_of_break found hjump hlabel parts targets orderly.switchless_placed
    Nat.one_pos (by rw [split]; simp; omega)

/-- What is left of a selection, once its end is known. -/
theorem recovered_selection_of_ends (ascending : Block.Ascending (placed scope (e :: body ++ post)))
    (token : e.token = .switch discriminant)
    (ends : Block.selectionEndFrom? ⟨scope, placed scope (e :: body ++ post)⟩ (0 + 1) (e.placed scope)
      (0 + 1) (placed scope (body ++ post)) = some ((e :: body).length, stop)) :
    recovered scope (e :: body ++ post) =
      body.under e.offset scope (.switchHead discriminant) stop :: recovered scope post := by
  have rewrite : Block.RewriteAt ⟨scope, placed scope (e :: body ++ post)⟩ 0 _ :=
    .selection rfl (congrArg some token) ends
  rw [recovered_of_rewrite ascending (Block.firstRewrite?_of_front rewrite.rewriteAt?_eq)
    rfl rfl, slice_body]
  simp only [Statement.adoptAll, List.map_cons, List.map_nil, finished_wrap_placed]
  rfl

/-- What is left of a selection with a jump directly before a label, if no jump leads elsewhere. -/
theorem recovered_selection (orderly : Orderly (body ++ post))
    (before : ∀ x ∈ body ++ post, e.offset < x.offset) (token : e.token = .switch discriminant)
    (leads : Leads scope stop body post)
    (jumps : ∀ x ∈ body ++ post, ∀ target, x.token = .jump target → target = stop)
    (split : body = front ++ j :: label :: more) (across : j.token = .jump stop)
    (isLabel : label.token.isCaseLabel = true) :
    recovered scope (e :: body ++ post) =
      body.under e.offset scope (.switchHead discriminant) stop :: recovered scope post := by
  have jumps' : ∀ x ∈ e :: body ++ post, ∀ target, x.token = .jump target → target = stop := by
    intro x hx target hjump
    rcases List.mem_cons.1 hx with rfl | hx
    · rw [token] at hjump
      cases hjump
    · exact jumps x hx target hjump
  have ascending : Block.Ascending (placed scope (e :: body ++ post)) := by
    refine List.pairwise_cons.2 ⟨fun o ho => ?_, orderly.ascending_placed⟩
    obtain ⟨_, hs, rfl⟩ := List.mem_map.1 ho
    obtain ⟨x, hx, rfl⟩ := mem_placed.1 hs
    exact before x hx
  exact recovered_selection_of_ends ascending token
    (selectionEndFrom?_placed orderly leads jumps' split across isLabel)

end Listing

namespace Part

variable {lay : Placement} {exit k : Nat}

theorem code_append (l m : List Part) :
    code lay exit k (l ++ m) = code lay exit k l ++ code lay exit (k + total l) m := by
  induction l generalizing k with
  | nil => rfl
  | cons p rest ih => simp [code, ih, total, Nat.add_assoc]

theorem of_jump_mem_code {parts : List Part} {x : Entry} {target : Offset}
    (hx : x ∈ code lay exit k parts) (h : x.token = .jump target) : target = lay.start exit := by
  induction parts generalizing k with
  | nil => cases hx
  | cons p rest ih =>
    rcases List.mem_append.1 hx with hx | hx
    · have ht := Placement.token_of_mem_run hx
      rw [h] at ht
      cases p with
      | label l =>
        have heq := List.mem_singleton.1 ht
        cases l <;> cases heq
      | step s =>
        have heq := List.mem_singleton.1 ht
        cases s with
        | expression => cases heq
        | ret value? => cases value? <;> cases heq
      | leave => exact Token.jump.inj (List.mem_singleton.1 ht)
      | branch condition body leaves =>
        rcases List.mem_cons.1 ht with ht | ht
        · cases ht
        · exact (Step.of_jump_mem_branchTokens ht).2
    · exact ih hx

end Part

/-- What is in a list other than at its end stands directly before something. -/
theorem exists_of_mem_dropLast {α : Type} {a : α} {l : List α} (h : a ∈ l.dropLast) :
    ∃ front b more, l = front ++ a :: b :: more := by
  obtain ⟨front, between, hdrop⟩ := List.append_of_mem h
  have hne : l ≠ [] := by
    rintro rfl
    cases h
  obtain ⟨b, more, hrest⟩ : ∃ b more, between ++ [l.getLast hne] = b :: more :=
    List.exists_cons_of_ne_nil (by simp)
  refine ⟨front, b, more, ?_⟩
  rw [← hrest, ← List.cons_append, ← List.append_assoc, ← hdrop, List.dropLast_concat_getLast]

namespace Selection

variable {lay : Placement} {s : Selection}

/-- Some clause other than the last ends with a `break`. -/
def Breaks (s : Selection) : Prop := ∃ c ∈ s.clauses.dropLast, c.leaves = true

/-- A `break` stands directly before a label. -/
theorem Breaks.exists_parts (h : s.Breaks) :
    ∃ front l behind, s.parts = front ++ .leave :: .label l :: behind := by
  obtain ⟨c, hc, hleaves⟩ := h
  obtain ⟨before, next, more, hclauses⟩ := exists_of_mem_dropLast hc
  refine ⟨before.flatMap Clause.parts ++ .label c.label :: c.items.map Clause.Item.part, next.label,
    next.items.map Clause.Item.part ++ (if next.leaves then [.leave] else []) ++
      more.flatMap Clause.parts, ?_⟩
  rw [parts, hclauses]
  simp [Clause.parts, hleaves]

/-- The scope of the clauses. -/
def scope (lay : Placement) (s : Selection) : Scope := [⟨.switchBlock, lay.start 0, lay.start s.exit⟩]

/-- What is left of the clauses, with the jumps out of the selection turned into breaks and a default
label at the end taken away. -/
def children (lay : Placement) (s : Selection) : List Statement :=
  (Block.mk (s.scope lay) (Part.left lay s.exit 1 (s.scope lay) s.parts)).tidy
    (.switchHead s.discriminant) (lay.start 0) (lay.start s.exit) |>.statements

theorem token_of_mem_behind {x : Entry} (hx : x ∈ s.behind lay) :
    ∃ text, x.token = .expression text := by
  obtain ⟨text, -, heq⟩ := List.mem_map.1 (Placement.token_of_mem_run hx)
  exact ⟨text, heq.symm⟩

/-- The only jumps are those out of the selection. -/
theorem of_jump_mem {x : Entry} (hx : x ∈ Part.code lay s.exit 1 s.parts ++ s.behind lay)
    (target : Offset) (token : x.token = .jump target) : target = lay.start s.exit := by
  rcases List.mem_append.1 hx with hx | hx
  · exact Part.of_jump_mem_code hx token
  · obtain ⟨text, htext⟩ := token_of_mem_behind hx
    rw [htext] at token
    cases token

/-- A jump out of the selection stands directly before a label. -/
theorem Breaks.exists_code (lay : Placement) (h : s.Breaks) :
    ∃ front j label more, Part.code lay s.exit 1 s.parts = front ++ j :: label :: more ∧
      j.token = .jump (lay.start s.exit) ∧ label.token.isCaseLabel = true := by
  obtain ⟨front, l, more, parts⟩ := h.exists_parts
  refine ⟨Part.code lay s.exit 1 front, lay.entry (1 + Part.total front) (.jump (lay.start s.exit)),
    lay.entry (1 + Part.total front + 1) l.token,
    Part.code lay s.exit (1 + Part.total front + 1 + 1) more, ?_, rfl, ?_⟩
  · rw [parts, Part.code_append]
    rfl
  · cases l <;> rfl

section

variable (accepted : (s.listing lay).fault? = none)

include accepted

/-- The offsets of an accepted listing increase up to the one behind the clauses. -/
theorem rises : lay.Rises s.exit := by
  have offsets : (s.listing lay).map Entry.offset =
      (List.range' 0 (s.exit + (1 + s.more.length))).map lay.start := by
    rw [listing, List.map_cons, List.map_append, Part.map_offset_code, behind,
      Placement.map_offset_run, exit, ← List.range'_append_1, ← List.range'_append_1]
    simp [List.range'_succ, Nat.add_comm]
  rw [Listing.fault?_eq_none_iff, offsets, ← List.range_eq_range', List.pairwise_map,
    List.pairwise_iff_getElem] at accepted
  intro i j hij hj
  have hlt := accepted i j (by rw [List.length_range]; omega) (by rw [List.length_range]; omega) hij
  rwa [List.getElem_range, List.getElem_range] at hlt

theorem lt_offset {x : Entry} (hx : x ∈ Part.code lay s.exit 1 s.parts ++ s.behind lay) :
    lay.start 0 < x.offset :=
  (List.pairwise_cons.1 ((Listing.fault?_eq_none_iff _).1 accepted)).1 _ (List.mem_map_of_mem hx)

/-- The head is the only one of a selection. -/
theorem orderly : (Part.code lay s.exit 1 s.parts ++ s.behind lay).Orderly := by
  refine ⟨((Listing.fault?_eq_none_iff _).1 accepted).of_cons, fun e he => ?_⟩
  rcases List.mem_append.1 he with he | he
  · exact Part.isSwitch_of_mem_code he
  · obtain ⟨text, htext⟩ := token_of_mem_behind he
    rw [htext]
    rfl

/-- The breaks lead behind the clauses. -/
theorem leads_behind :
    Listing.Leads [] (lay.start s.exit) (Part.code lay s.exit 1 s.parts) (s.behind lay) := by
  refine ⟨fun x => (rises accepted).lt_of_mem (Part.map_offset_code lay s.exit s.parts 1) (Nat.le_refl _)
    (Nat.le_refl _), ?_, fun _ _ => nofun, fun _ _ => nofun⟩
  rintro x ⟨⟩
  rfl

theorem recovered_clauses :
    (Part.code lay s.exit 1 s.parts).recovered (s.scope lay) =
      Part.left lay s.exit 1 (s.scope lay) s.parts := by
  refine Part.recovered_clauses ⟨rises accepted, rfl, fun frame hf => ?_, rfl⟩
  cases hf
  rfl

theorem recovered_behind : (s.behind lay).recovered [] = (s.behind lay).placed [] := by
  refine Listing.recovered_of_stays (orderly accepted).right fun e he => ?_
  obtain ⟨text, htext⟩ := token_of_mem_behind he
  rw [htext]
  exact ⟨.inl rfl, rfl, rfl⟩

/-- **What is left of a selection**: one composite statement, with the statements behind it as they
were. -/
theorem recovered_listing (breaks : s.Breaks) :
    (s.listing lay).block.recovered =
      ⟨[], .composite (lay.start 0) [] (.switchHead s.discriminant) (lay.start s.exit) (s.scope lay)
        (s.children lay) :: (s.behind lay).placed []⟩ := by
  obtain ⟨front, j, label, more, split, across, isLabel⟩ := breaks.exists_code lay
  have whole : Listing.recovered [] (s.listing lay) = _ :=
    Listing.recovered_selection (orderly accepted) (fun _ => lt_offset accepted) rfl
      (leads_behind accepted) (fun _ => of_jump_mem) split across isLabel
  have kept : (Part.code lay s.exit 1 s.parts).under (lay.start 0) [] (.switchHead s.discriminant)
      (lay.start s.exit) = .composite (lay.start 0) [] (.switchHead s.discriminant)
        (lay.start s.exit) (s.scope lay) (s.children lay) := by
    rw [children, ← recovered_clauses accepted]
    rfl
  rw [recovered_behind accepted] at whole
  exact (Listing.statements_recovered [] (s.listing lay)).trans
    (congrArg (Block.mk []) (whole.trans (congrArg (· :: _) kept)))

end

end Selection

end FlowRecovery
