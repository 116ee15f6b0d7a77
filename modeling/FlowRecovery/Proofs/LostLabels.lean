import FlowRecovery.Proofs.Selections

/-!
# Labels that are lost in a branch

A conditional in a clause that ends with a `break` covers what follows it in the selection, labels and
all (`Part.covered`). The jumps that are left show that something is wrong only if there is a
`break` of a clause behind the conditional, or a conditional with a `break` at the very end, since
these become part of the second branch as they are (`hasRawJumps_recovered`). If there is neither and a
label is covered, the label is lost without a sign, and that is the only way to lose one
(`keepsLabels_iff`).
-/

namespace FlowRecovery

namespace Statement

/-- The statement is a selection. -/
def isSelection : Statement → Bool
  | composite _ _ head _ _ _ => head.kind = .switchBlock
  | _ => false

/-- The statement is no instruction and has a label somewhere in it. -/
def buriesLabel (s : Statement) : Bool := s.token?.isNone && s.any (isPlain Token.isCaseLabel)

/-- The labels directly in a list, with their offsets. -/
def labels (l : List Statement) : List (Offset × Token) :=
  l.filterMap fun s => (s.token?.filter Token.isCaseLabel).map (s.start, ·)

end Statement

/-- The labels of a listing, with their offsets. -/
def Listing.labels (l : Listing) : List (Offset × Token) :=
  (l.filter fun e => e.token.isCaseLabel).map fun e => (e.offset, e.token)

namespace Part

/-- The label of a clause. -/
def isLabel : Part → Bool
  | label _ => true
  | _ => false

/-- The `break` of a clause. -/
def isLeave : Part → Bool
  | leave => true
  | _ => false

/-- A conditional that ends with a `break`. -/
def isExit : Part → Bool
  | branch _ _ leaves => leaves
  | _ => false

/-- There is a conditional with a `break` at the end. -/
def endsInExit (parts : List Part) : Bool := parts.getLast?.any isExit

/-- What is behind the first conditional that ends with a `break`. -/
def covered : List Part → List Part
  | [] => []
  | p :: rest => if p.isExit then rest else covered rest

end Part

namespace Selection

/-- The last clause is a default label with nothing behind it. -/
def EndsInDefault (s : Selection) : Prop := ∃ clauses, s.clauses = clauses ++ [⟨.default, [], false⟩]

/-- A block has one selection, whose children have all labels of the listing directly among them, in
their order, and nowhere deeper. A default label at the end with nothing behind it may be missing. -/
def KeepsLabels (lay : Placement) (s : Selection) (b : Block) : Prop :=
  ∃ start scope head stop inner children,
    b.statements.filter Statement.isSelection = [.composite start scope head stop inner children] ∧
      (Statement.labels children = (s.listing lay).labels ∨
        s.EndsInDefault ∧ Statement.labels children = (s.listing lay).labels.dropLast) ∧
      ∀ m ∈ children, m.buriesLabel = false

/-- Behind the first conditional that ends with a `break` there is a label, but no `break` of a clause,
and there is no conditional with a `break` at the end. -/
def LosesLabel (s : Selection) : Prop :=
  (Part.covered s.parts).any Part.isLabel = true ∧
    (Part.covered s.parts).any Part.isLeave = false ∧
      Part.endsInExit (Part.covered s.parts) = false

end Selection

/-! ### Jumps and labels in what is left of the clauses -/

theorem Placement.any_run (p : Token → Bool) (lay : Placement) (k : Nat) (l : List Token) :
    (lay.run k l).any (fun e => p e.token) = l.any p := by
  conv => rhs; rw [← lay.map_token_run k l, List.any_map]
  rfl

theorem Statement.anyOf_run (p : Token → Bool) (scope : Scope) (lay : Placement) (k : Nat)
    (l : List Token) : anyOf (isPlain p) ((lay.run k l).placed scope) = l.any p := by
  rw [anyOf_placed, lay.any_run]

theorem Step.isJump_token (s : Step) : s.token.isJump = false := by
  cases s with
  | expression => rfl
  | ret value? => cases value? <;> rfl

theorem Step.isCaseLabel_token (s : Step) : s.token.isCaseLabel = false := by
  cases s with
  | expression => rfl
  | ret value? => cases value? <;> rfl

theorem Label.isJump_token (l : Label) : l.token.isJump = false := by
  cases l <;> rfl

theorem Label.isCaseLabel_token (l : Label) : l.token.isCaseLabel = true := by
  cases l <;> rfl

theorem Step.any_isJump_branchTokens (lay : Placement) (exit : Nat) (body : List Step) (leaves : Bool) :
    (Step.branchTokens lay exit body leaves).any Token.isJump = leaves := by
  have steps : (body.map Step.token).any Token.isJump = false :=
    List.any_eq_false.2 fun t ht => by
      obtain ⟨s, -, rfl⟩ := List.mem_map.1 ht
      exact Bool.eq_false_iff.1 s.isJump_token
  rw [Step.branchTokens, List.any_append, steps]
  cases leaves <;> rfl

theorem Step.any_isCaseLabel_branchTokens (lay : Placement) (exit : Nat) (body : List Step)
    (leaves : Bool) : (Step.branchTokens lay exit body leaves).any Token.isCaseLabel = false := by
  have steps : (body.map Step.token).any Token.isCaseLabel = false :=
    List.any_eq_false.2 fun t ht => by
      obtain ⟨s, -, rfl⟩ := List.mem_map.1 ht
      exact Bool.eq_false_iff.1 s.isCaseLabel_token
  rw [Step.branchTokens, List.any_append, steps]
  cases leaves <;> rfl

namespace Part

open Statement

variable {lay : Placement} {exit k : Nat} {scope : Scope} {p : Part} {rest : List Part}

theorem left_label (l : Label) :
    left lay exit k scope (label l :: rest) =
      (lay.entry k l.token).placed scope :: left lay exit (k + 1) scope rest := rfl

theorem left_step (s : Step) :
    left lay exit k scope (step s :: rest) =
      (lay.entry k s.token).placed scope :: left lay exit (k + 1) scope rest := rfl

theorem left_leave :
    left lay exit k scope (leave :: rest) =
      (lay.entry k (.jump (lay.start exit))).placed scope :: left lay exit (k + 1) scope rest := rfl

theorem any_entry (q : Token → Bool) (t : Token) :
    ((lay.entry k t).placed scope).any (isPlain q) = q t := rfl

theorem any_conditional (q : Token → Bool) (condition : Token) (body : List Step) (stop : Offset)
    (leaves : Bool) :
    (conditional lay exit k scope condition body stop leaves).any (isPlain q) =
      (Step.branchTokens lay exit body leaves).any q := by
  rw [conditional, Statement.any, anyOf_run]
  rfl

theorem any_otherwise (q : Token → Bool) (start stop : Offset) (outer inner : Scope)
    (l : List Statement) :
    (Statement.composite start outer .elseHead stop inner l).any (isPlain q) = anyOf (isPlain q) l := by
  rw [Statement.any]
  rfl

theorem endsInExit_of_not (h : p.isExit = false) : endsInExit (p :: rest) = endsInExit rest := by
  cases rest with
  | nil => simpa [endsInExit] using h
  | cons q rest => rw [endsInExit, endsInExit, List.getLast?_cons_cons]

theorem endsInExit_of_ne_nil (h : rest ≠ []) : endsInExit (p :: rest) = endsInExit rest := by
  cases rest with
  | nil => exact absurd rfl h
  | cons q rest => rw [endsInExit, endsInExit, List.getLast?_cons_cons]

/-- A conditional either ends with a `break` and has something behind it, or not. -/
theorem covering_or_single (leaves : Bool) (rest : List Part) :
    (leaves = true ∧ rest ≠ []) ∨ (leaves = true → rest = []) := by
  by_cases hrest : rest = []
  · exact .inr fun _ => hrest
  · cases leaves with
    | false => exact .inr fun h => absurd h Bool.false_ne_true
    | true => exact .inl ⟨rfl, hrest⟩

/-- A jump is left in the clauses if there is a `break` of a clause, or a conditional with a `break` at
the end. -/
theorem anyOf_isRawJump_left (parts : List Part) :
    anyOf isRawJump (left lay exit k scope parts) = (parts.any isLeave || endsInExit parts) := by
  change anyOf (isPlain Token.isJump) _ = _
  induction parts generalizing k scope with
  | nil => rfl
  | cons p rest ih =>
    cases p with
    | label l =>
      rw [left_label, anyOf, any_entry, l.isJump_token, ih, endsInExit_of_not rfl]
      rfl
    | step s =>
      rw [left_step, anyOf, any_entry, s.isJump_token, ih, endsInExit_of_not rfl]
      rfl
    | leave => rfl
    | branch condition body leaves =>
      rcases covering_or_single leaves rest with ⟨rfl, hrest⟩ | single
      · rw [left_of_covering condition body hrest, anyOf, any_conditional,
          Step.any_isJump_branchTokens, anyOf, any_otherwise, ih, endsInExit_of_ne_nil hrest]
        simp [anyOf, isLeave]
      · rw [left_of_single single, anyOf, any_conditional, Step.any_isJump_branchTokens, ih]
        cases leaves with
        | false =>
          rw [endsInExit_of_not rfl]
          rfl
        | true =>
          rw [single rfl]
          rfl

/-- A label is left in the clauses for every label of a clause. -/
theorem anyOf_isCaseLabel_left (parts : List Part) :
    anyOf (isPlain Token.isCaseLabel) (left lay exit k scope parts) = parts.any isLabel := by
  induction parts generalizing k scope with
  | nil => rfl
  | cons p rest ih =>
    cases p with
    | label l =>
      rw [left_label, anyOf, any_entry, l.isCaseLabel_token]
      rfl
    | step s =>
      rw [left_step, anyOf, any_entry, s.isCaseLabel_token, ih]
      rfl
    | leave =>
      rw [left_leave, anyOf, ih]
      rfl
    | branch condition body leaves =>
      rcases covering_or_single leaves rest with ⟨rfl, hrest⟩ | single
      · rw [left_of_covering condition body hrest, anyOf, any_conditional,
          Step.any_isCaseLabel_branchTokens, anyOf, any_otherwise, ih]
        simp [anyOf, isLabel]
      · rw [left_of_single single, anyOf, any_conditional, Step.any_isCaseLabel_branchTokens, ih]
        rfl

/-! ### The children of the selection -/

/-- Among the children of the selection, the `break` of a clause is one, unless it is covered. -/
theorem anyOf_isRawJump_breaksTo (outer : Scope) (parts : List Part) (afterReturn : Bool) :
    anyOf isRawJump (breaksTo (lay.start exit) outer afterReturn (left lay exit k scope parts)) =
      ((covered parts).any isLeave || endsInExit parts) := by
  have inner (scope : Scope) (k : Nat) (parts : List Part) :
      anyOf (isPlain Token.isJump) (left lay exit k scope parts) =
        (parts.any isLeave || endsInExit parts) := anyOf_isRawJump_left parts
  change anyOf (isPlain Token.isJump) _ = _
  induction parts generalizing k afterReturn with
  | nil => rfl
  | cons p rest ih =>
    cases p with
    | label l =>
      rw [left_label, breaksTo_cons (by cases l <;> rfl), anyOf, any_entry, l.isJump_token, ih,
        endsInExit_of_not rfl]
      rfl
    | step s =>
      have hjump : ((lay.entry k s.token).placed scope).jumpTarget? = none := by
        cases s with
        | expression => rfl
        | ret value? => cases value? <;> rfl
      rw [left_step, breaksTo_cons hjump, anyOf, any_entry, s.isJump_token, ih, endsInExit_of_not rfl]
      rfl
    | leave =>
      rw [left_leave, breaksTo, if_pos (by simp [jumpTarget?, Entry.placed, token?, Placement.entry,
        Token.jumpTarget?]), endsInExit_of_not rfl]
      split
      · exact ih true
      · exact ih false
    | branch condition body leaves =>
      rcases covering_or_single leaves rest with ⟨rfl, hrest⟩ | single
      · rw [left_of_covering condition body hrest, breaksTo_cons rfl, breaksTo_cons rfl, breaksTo,
          anyOf, any_conditional, Step.any_isJump_branchTokens, anyOf, any_otherwise, inner,
          endsInExit_of_ne_nil hrest]
        simp [anyOf, covered, isExit]
      · rw [left_of_single single, breaksTo_cons rfl, anyOf, any_conditional,
          Step.any_isJump_branchTokens, ih]
        cases leaves with
        | false =>
          rw [endsInExit_of_not rfl]
          rfl
        | true =>
          rw [single rfl]
          rfl

theorem any_buriesLabel_breaksTo (stop : Offset) (scope : Scope) (l : List Statement) :
    ∀ afterReturn, (breaksTo stop scope afterReturn l).any buriesLabel = l.any buriesLabel := by
  induction l with
  | nil => exact fun _ => rfl
  | cons s rest ih =>
    intro afterReturn
    rw [breaksTo]
    split
    · next hjump =>
      have hs : s.buriesLabel = false := by
        cases s with
        | plain => rfl
        | escape | composite => cases hjump
      rw [List.any_cons, hs, Bool.false_or]
      split
      · exact ih true
      · exact ih false
    · rw [List.any_cons, List.any_cons, ih]

/-- A label is below the children of the selection exactly if it is covered. -/
theorem any_buriesLabel_left (parts : List Part) :
    (left lay exit k scope parts).any buriesLabel = (covered parts).any isLabel := by
  induction parts generalizing k with
  | nil => rfl
  | cons p rest ih =>
    cases p with
    | label l => exact ih
    | step s => exact ih
    | leave => exact ih
    | branch condition body leaves =>
      have hfirst (stop : Offset) (leaves : Bool) :
          (conditional lay exit k scope condition body stop leaves).buriesLabel = false := by
        rw [buriesLabel, any_conditional, Step.any_isCaseLabel_branchTokens, Bool.and_false]
      rcases covering_or_single leaves rest with ⟨rfl, hrest⟩ | single
      · rw [left_of_covering condition body hrest, List.any_cons, hfirst, List.any_cons, buriesLabel,
          any_otherwise, anyOf_isCaseLabel_left]
        simp [covered, isExit, token?]
      · rw [left_of_single single, List.any_cons, hfirst, Bool.false_or, ih]
        cases leaves with
        | false => rfl
        | true =>
          rw [single rfl]
          rfl

/-! ### Labels directly among the children -/

theorem labels_append (l m : List Statement) :
    Statement.labels (l ++ m) = Statement.labels l ++ Statement.labels m := List.filterMap_append

theorem labels_cons_of_not {m : Statement} (h : m.isPlain Token.isCaseLabel = false)
    (l : List Statement) : Statement.labels (m :: l) = Statement.labels l := by
  refine List.filterMap_cons_none ?_
  cases htoken : m.token? with
  | none => rfl
  | some t =>
    rw [isPlain, htoken, Option.any_some] at h
    simp [h]

theorem any_isCaseLabel_tokens (p : Part) :
    (p.tokens lay exit k).any Token.isCaseLabel = p.isLabel := by
  cases p with
  | label l => cases l <;> rfl
  | step s =>
    rw [tokens, List.any_cons, s.isCaseLabel_token]
    rfl
  | leave => rfl
  | branch condition body leaves =>
    rw [tokens, List.any_cons, Step.any_isCaseLabel_branchTokens]
    rfl

theorem labels_eq_nil {l : Listing} (h : l.any (fun e => e.token.isCaseLabel) = false) :
    l.labels = [] := by
  rw [Listing.labels, List.filter_eq_nil_iff.2 (List.any_eq_false.1 h), List.map_nil]

theorem labels_append_listing (l m : Listing) : (l ++ m).labels = l.labels ++ m.labels := by
  rw [Listing.labels, List.filter_append, List.map_append]
  rfl

theorem labels_code_cons (h : p.isLabel = false) :
    (code lay exit k (p :: rest)).labels = (code lay exit (k + p.size) rest).labels := by
  rw [code, labels_append_listing, labels_eq_nil (by rw [lay.any_run, any_isCaseLabel_tokens, h]),
    List.nil_append]

theorem labels_code_eq_nil {parts : List Part} (h : parts.any isLabel = false) :
    (code lay exit k parts).labels = [] := by
  induction parts generalizing k with
  | nil => rfl
  | cons p rest ih =>
    rw [List.any_cons, Bool.or_eq_false_iff] at h
    rw [labels_code_cons h.1, ih h.2]

/-- If no label is covered, all labels are directly in what is left of the clauses. -/
theorem labels_left {parts : List Part} (h : (covered parts).any isLabel = false) :
    Statement.labels (left lay exit k scope parts) = (code lay exit k parts).labels := by
  induction parts generalizing k with
  | nil => rfl
  | cons p rest ih =>
    cases p with
    | label l =>
      have hcode : (code lay exit k (label l :: rest)).labels =
          (lay.start k, l.token) :: (code lay exit (k + 1) rest).labels := by
        cases l <;> rfl
      rw [left_label, hcode, ← ih h]
      cases l <;> rfl
    | step s =>
      have hs : ((lay.entry k s.token).placed scope).isPlain Token.isCaseLabel = false :=
        s.isCaseLabel_token
      rw [labels_code_cons rfl, left_step, labels_cons_of_not hs]
      exact ih h
    | leave =>
      rw [labels_code_cons rfl, left_leave, labels_cons_of_not rfl]
      exact ih h
    | branch condition body leaves =>
      rw [labels_code_cons rfl]
      rcases covering_or_single leaves rest with ⟨rfl, hrest⟩ | single
      · have hlabels : rest.any isLabel = false := h
        rw [left_of_covering condition body hrest, labels_code_eq_nil hlabels]
        rfl
      · rw [left_of_single single, ← ih ?_]
        · rfl
        · cases leaves with
          | false => exact h
          | true =>
            rw [single rfl]
            rfl

theorem labels_breaksTo (stop : Offset) (scope : Scope) (l : List Statement) :
    ∀ afterReturn, Statement.labels (breaksTo stop scope afterReturn l) = Statement.labels l := by
  induction l with
  | nil => exact fun _ => rfl
  | cons s rest ih =>
    intro afterReturn
    rw [breaksTo]
    split
    · next hjump =>
      have hs : s.isPlain Token.isCaseLabel = false := by
        rw [beq_iff_eq] at hjump
        obtain ⟨t, htoken, ht⟩ := Option.bind_eq_some_iff.1 hjump
        rw [isPlain, htoken, Token.jumpTarget?_eq_some_iff.1 ht]
        rfl
      rw [labels_cons_of_not hs]
      split
      · exact ih true
      · exact ih false
    · rw [← List.singleton_append, labels_append, ih, ← labels_append]
      rfl

theorem breaksTo_eq_nil {stop : Offset} {scope : Scope} {l : List Statement}
    (h : breaksTo stop scope false l = []) : l = [] := by
  cases l with
  | nil => rfl
  | cons s rest =>
    rw [breaksTo] at h
    split at h <;> cases h

theorem getLast?_cons_cases {m s : Statement} {l : List Statement}
    (h : (s :: l).getLast? = some m) : (l = [] ∧ m = s) ∨ l.getLast? = some m := by
  cases l with
  | nil =>
    cases h
    exact .inl ⟨rfl, rfl⟩
  | cons x l =>
    rw [List.getLast?_cons_cons] at h
    exact .inr h

theorem getLast?_cons_of_some {m : Statement} (s : Statement) {l : List Statement}
    (h : l.getLast? = some m) : (s :: l).getLast? = some m := by
  rw [List.getLast?_cons, h]
  rfl

/-- A default label at the end of the children was at the end before. -/
theorem getLast?_breaksTo {stop : Offset} {scope : Scope} {m : Statement}
    (hm : m.isPlain Token.isDefaultLabel = true) (l : List Statement) :
    ∀ afterReturn, (breaksTo stop scope afterReturn l).getLast? = some m → l.getLast? = some m := by
  induction l with
  | nil => exact fun _ => id
  | cons s rest ih =>
    intro afterReturn h
    rw [breaksTo] at h
    split at h
    · split at h
      · exact getLast?_cons_of_some s (ih true h)
      · rcases getLast?_cons_cases h with ⟨-, rfl⟩ | h
        · cases hm
        · exact getLast?_cons_of_some s (ih false h)
    · rcases getLast?_cons_cases h with ⟨hnil, rfl⟩ | h
      · -- Behind a label no jump is taken away, so nothing was behind it.
        have hreturn : m.isPlain Token.isReturn = false := by
          obtain ⟨t, htoken, ht⟩ := isPlain_iff.1 hm
          rw [isPlain, htoken]
          cases t <;> first | rfl | cases ht
        rw [hreturn] at hnil
        rw [breaksTo_eq_nil hnil]
        rfl
      · exact getLast?_cons_of_some s (ih _ h)

theorem left_eq_nil {parts : List Part} (h : left lay exit k scope parts = []) : parts = [] := by
  cases parts with
  | nil => rfl
  | cons p rest =>
    cases p with
    | label | step | leave => cases h
    | branch condition body leaves =>
      rcases covering_or_single leaves rest with ⟨rfl, hrest⟩ | single
      · rw [left_of_covering condition body hrest] at h
        cases h
      · rw [left_of_single single] at h
        cases h

/-- A default label at the end of what is left of the clauses is the last part. -/
theorem getLast?_of_left {parts : List Part} {m : Statement}
    (hm : m.isPlain Token.isDefaultLabel = true)
    (h : (left lay exit k scope parts).getLast? = some m) : parts.getLast? = some (label .default) := by
  induction parts generalizing k with
  | nil => cases h
  | cons p rest ih =>
    have behind (h : rest.getLast? = some (label .default)) :
        (p :: rest).getLast? = some (label .default) := by
      rw [List.getLast?_cons, h]
      rfl
    cases p with
    | label l =>
      rcases getLast?_cons_cases h with ⟨hnil, rfl⟩ | h
      · rw [left_eq_nil hnil]
        cases l with
        | case => cases hm
        | default => rfl
      · exact behind (ih h)
    | step s =>
      rcases getLast?_cons_cases h with ⟨-, rfl⟩ | h
      · cases s with
        | expression => cases hm
        | ret value? => cases value? <;> cases hm
      · exact behind (ih h)
    | leave =>
      rcases getLast?_cons_cases h with ⟨-, rfl⟩ | h
      · cases hm
      · exact behind (ih h)
    | branch condition body leaves =>
      rcases covering_or_single leaves rest with ⟨rfl, hrest⟩ | single
      · rw [left_of_covering condition body hrest] at h
        cases h
        cases hm
      · rw [left_of_single single] at h
        rcases getLast?_cons_cases h with ⟨-, rfl⟩ | h
        · cases hm
        · exact behind (ih h)

end Part

namespace Selection

open Statement

variable {lay : Placement} {s : Selection}

theorem endsInDefault_of_getLast? (h : s.parts.getLast? = some (.label .default)) :
    s.EndsInDefault := by
  rcases List.eq_nil_or_concat s.clauses with hnil | ⟨clauses, c, hclauses⟩
  · rw [parts, hnil] at h
    cases h
  · rw [List.concat_eq_append] at hclauses
    rw [parts, hclauses, List.flatMap_append, List.flatMap_singleton, Clause.parts,
      List.getLast?_append, List.getLast?_cons] at h
    obtain ⟨label, items, leaves⟩ := c
    cases leaves with
    | true => simp at h
    | false =>
      rcases List.eq_nil_or_concat items with rfl | ⟨items, i, rfl⟩
      · cases h
        exact ⟨clauses, hclauses⟩
      · cases i <;> simp [Clause.Item.part] at h

theorem labels_listing : (s.listing lay).labels = (Part.code lay s.exit 1 s.parts).labels := by
  have behind : (s.behind lay).labels = [] := Part.labels_eq_nil <| List.any_eq_false.2 fun x hx => by
    obtain ⟨text, htext⟩ := token_of_mem_behind hx
    rw [htext]
    exact Bool.false_ne_true
  have inner := Part.labels_append_listing (Part.code lay s.exit 1 s.parts) (s.behind lay)
  rw [behind, List.append_nil] at inner
  exact inner

/-- The children before a default label at their end is taken away. -/
def untrimmed (lay : Placement) (s : Selection) : Block :=
  ⟨s.scope lay, breaksTo (lay.start s.exit) (s.scope lay) false
    (Part.left lay s.exit 1 (s.scope lay) s.parts)⟩

theorem children_eq (lay : Placement) (s : Selection) :
    s.children lay = ((s.untrimmed lay).trimLast Token.isDefaultLabel).statements := rfl

/-- A jump is left of a selection exactly if it has a covered `break`, or a conditional with a `break` at
the end. -/
theorem hasRawJumps_recovered (accepted : (s.listing lay).fault? = none) (breaks : s.Breaks) :
    (s.listing lay).block.recovered.hasRawJumps =
      ((Part.covered s.parts).any Part.isLeave || Part.endsInExit s.parts) := by
  have children : anyOf (isPlain Token.isJump) (s.children lay) =
      ((Part.covered s.parts).any Part.isLeave || Part.endsInExit s.parts) := by
    rw [children_eq, Block.anyOf_trimLast fun t ht => by cases t <;> first | rfl | cases ht]
    exact Part.anyOf_isRawJump_breaksTo ..
  have behind : anyOf (isPlain Token.isJump) ((s.behind lay).placed []) = false := by
    rw [anyOf_placed, List.any_eq_false]
    intro x hx
    obtain ⟨text, htext⟩ := token_of_mem_behind hx
    rw [htext]
    exact Bool.false_ne_true
  rw [recovered_listing accepted breaks, Block.hasRawJumps]
  change anyOf (isPlain Token.isJump) _ = _
  rw [anyOf, behind, Bool.or_false, Statement.any, children]
  rfl

theorem any_buriesLabel_children (lay : Placement) (s : Selection) :
    (s.children lay).any buriesLabel = (Part.covered s.parts).any Part.isLabel := by
  have untrimmed : (s.untrimmed lay).statements.any buriesLabel =
      (Part.covered s.parts).any Part.isLabel := by
    rw [Selection.untrimmed, Part.any_buriesLabel_breaksTo, Part.any_buriesLabel_left]
  rw [children_eq, ← untrimmed]
  rcases (s.untrimmed lay).trimLast_cases Token.isDefaultLabel with h | ⟨m, hm, h⟩
  · rw [h]
  · have hburies : m.buriesLabel = false := by
      obtain ⟨t, htoken, -⟩ := isPlain_iff.1 hm
      rw [buriesLabel, htoken]
      rfl
    rw [h, List.any_append, List.any_cons, hburies]
    simp

/-- If no label is covered, all of them are directly among the children, but for a default label at the
end. -/
theorem labels_children (h : (Part.covered s.parts).any Part.isLabel = false) :
    Statement.labels (s.children lay) = (s.listing lay).labels ∨
      s.EndsInDefault ∧ Statement.labels (s.children lay) = (s.listing lay).labels.dropLast := by
  have untrimmed : Statement.labels (s.untrimmed lay).statements = (s.listing lay).labels := by
    rw [Selection.untrimmed, Part.labels_breaksTo, Part.labels_left h, labels_listing]
  rw [children_eq, ← untrimmed]
  rcases (s.untrimmed lay).trimLast_cases Token.isDefaultLabel with htrim | ⟨m, hm, htrim⟩
  · rw [htrim]
    exact .inl rfl
  · have last : (s.untrimmed lay).statements.getLast? = some m := by
      rw [htrim]
      exact List.getLast?_concat
    obtain ⟨t, htoken, ht⟩ := isPlain_iff.1 hm
    have hlabel : Statement.labels [m] = [(m.start, t)] := by
      refine List.filterMap_cons_some ?_
      rw [htoken]
      cases t <;> first | rfl | cases ht
    refine .inr ⟨endsInDefault_of_getLast? (Part.getLast?_of_left hm
      (Part.getLast?_breaksTo hm _ false last)), ?_⟩
    rw [htrim, Part.labels_append, hlabel, List.dropLast_concat]

/-- A selection keeps its labels exactly if none is covered. -/
theorem keepsLabels_recovered (accepted : (s.listing lay).fault? = none) (breaks : s.Breaks) :
    s.KeepsLabels lay (s.listing lay).block.recovered ↔
      (Part.covered s.parts).any Part.isLabel = false := by
  have behind : ((s.behind lay).placed []).filter isSelection = [] := by
    rw [List.filter_eq_nil_iff]
    intro m hm
    obtain ⟨e, -, rfl⟩ := Listing.mem_placed.1 hm
    exact Bool.false_ne_true
  have selections : (s.listing lay).block.recovered.statements.filter isSelection =
      [.composite (lay.start 0) [] (.switchHead s.discriminant) (lay.start s.exit) (s.scope lay)
        (s.children lay)] := by
    rw [recovered_listing accepted breaks, List.filter_cons_of_pos rfl, behind]
  rw [← any_buriesLabel_children lay s, List.any_eq_false]
  constructor
  · rintro ⟨start, scope, head, stop, inner, children, hchildren, -, buries⟩ m hm
    rw [selections] at hchildren
    cases hchildren
    exact Bool.eq_false_iff.1 (buries m hm)
  · intro h
    refine ⟨_, _, _, _, _, _, selections, labels_children ?_, fun m hm => Bool.eq_false_iff.2 (h m hm)⟩
    rwa [← any_buriesLabel_children lay s, List.any_eq_false]

end Selection

namespace Part

theorem endsInExit_covered {parts : List Part} (h : covered parts ≠ []) :
    endsInExit (covered parts) = endsInExit parts := by
  induction parts with
  | nil => exact absurd rfl h
  | cons p rest ih =>
    rw [covered] at h ⊢
    split
    · next hp =>
      rw [if_pos hp] at h
      exact (endsInExit_of_ne_nil h).symm
    · next hp =>
      rw [if_neg hp] at h
      rw [ih h, endsInExit_of_not (Bool.eq_false_iff.2 hp)]

end Part

namespace Selection

/-- **When a selection loses a label.** In the body of a selection, a jump is left or the selection has
all its labels, exactly if it does not lose one behind a conditional with a `break`. -/
theorem keepsLabels_iff (lay : Placement) (s : Selection)
    (accepted : (s.listing lay).fault? = none) (breaks : s.Breaks) :
    ((s.listing lay).block.structured.value.hasRawJumps = true ∨
        s.KeepsLabels lay (s.listing lay).block.structured.value) ↔ ¬ s.LosesLabel := by
  change ((s.listing lay).block.recovered.hasRawJumps = true ∨
    s.KeepsLabels lay (s.listing lay).block.recovered) ↔ _
  rw [hasRawJumps_recovered accepted breaks, keepsLabels_recovered accepted breaks, LosesLabel]
  cases hcovered : (Part.covered s.parts).any Part.isLabel with
  | false => simp
  | true =>
    have hne : Part.covered s.parts ≠ [] := by
      rintro hnil
      rw [hnil] at hcovered
      cases hcovered
    rw [Part.endsInExit_covered hne]
    cases (Part.covered s.parts).any Part.isLeave <;> cases Part.endsInExit s.parts <;> simp

/-- Instructions of one byte each. -/
def packed : Placement := ⟨0, fun _ => 1, fun _ => none⟩

/-- Three clauses; the second one begins with a conditional `break` and runs into the third. -/
def fallsThrough : Selection :=
  ⟨.expression "d",
    [⟨.case "1", [.step (.expression "A()")], true⟩,
      ⟨.case "2", [.branch (.expression "c") [] true, .step (.expression "B()")], false⟩,
      ⟨.case "3", [.step (.expression "C()")], false⟩],
    "D()", []⟩

theorem breaks_fallsThrough : fallsThrough.Breaks :=
  ⟨⟨.case "1", [.step (.expression "A()")], true⟩, List.mem_cons_self .., rfl⟩

theorem keepsLabels_iff_fallsThrough :
    (fallsThrough.listing packed).fault? = none ∧ fallsThrough.Breaks ∧
      (((fallsThrough.listing packed).block.structured.value.hasRawJumps = true ∨
          fallsThrough.KeepsLabels packed (fallsThrough.listing packed).block.structured.value) ↔
        ¬ fallsThrough.LosesLabel) :=
  ⟨rfl, breaks_fallsThrough, keepsLabels_iff packed fallsThrough rfl breaks_fallsThrough⟩

/-- The label of the third clause is lost in the second branch of the conditional. -/
theorem fallsThrough_loses_label :
    fallsThrough.listing packed =
        [⟨0, none, .switch (.expression "d")⟩, ⟨1, none, .caseLabel "1"⟩,
          ⟨2, none, .expression "A()"⟩, ⟨3, none, .jump 10⟩, ⟨4, none, .caseLabel "2"⟩,
          ⟨5, none, .jumpIfNot (.expression "c") 7⟩, ⟨6, none, .jump 10⟩, ⟨7, none, .expression "B()"⟩,
          ⟨8, none, .caseLabel "3"⟩, ⟨9, none, .expression "C()"⟩, ⟨10, none, .expression "D()"⟩] ∧
      (fallsThrough.listing packed).fault? = none ∧ fallsThrough.Breaks ∧
      (fallsThrough.listing packed).block.structured.value.hasRawJumps = false ∧
      ¬ fallsThrough.KeepsLabels packed (fallsThrough.listing packed).block.structured.value := by
  refine ⟨rfl, rfl, breaks_fallsThrough, rfl, fun h => ?_⟩
  cases (keepsLabels_recovered rfl breaks_fallsThrough).1 h

end Selection

end FlowRecovery
