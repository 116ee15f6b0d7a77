import FlowRecovery.Proofs.Equations
import FlowRecovery.Proofs.Lists

/-!
# How far the passes over a block have come

A pass makes the first rewrite it finds, so none is found at the statements in front of it. A block
therefore consists at all times of statements that passes have dealt with, and of a run of instructions
that none of them has changed (`Block.Frontier`).

Most statements that passes have dealt with are dormant for good. The exception are heads of selections,
which wait while another selection is ahead (`Block.Held`). When such a selection is made at last, it
takes in everything that passes have dealt with behind its head, and goes on into the unchanged run; so
no rewrite ends among the statements that passes have dealt with (`Frontier.le_after`). A pass moves the
frontier on (`Frontier.rewritten`), and the children of what it makes have a frontier of their own, behind
what came over from the block (`Frontier.child`).

In a whole body a jump to no instruction of the body could come to lead to its end later on, when the last
instructions are folded. So the targets of a body have to be instructions of it or behind all of them
(`Listing.Addressed`).
-/

namespace FlowRecovery

/-- Every target is that of an instruction or lies behind all of them. -/
def Listing.Addressed (l : Listing) : Prop :=
  ∀ e ∈ l, ∀ n ∈ e.token.goal?, (∃ x ∈ l, x.offset.val = n) ∨ ∀ x ∈ l, x.offset.val < n

instance (l : Listing) : Decidable l.Addressed :=
  inferInstanceAs
    (Decidable (∀ e ∈ l, ∀ n ∈ e.token.goal?, (∃ x ∈ l, x.offset.val = n) ∨ ∀ x ∈ l, x.offset.val < n))

theorem Listing.placed_eq_append_cons {scope : Scope} {l : Listing} {front behind : List Statement}
    {s : Statement} (h : l.placed scope = front ++ s :: behind) :
    ∃ before e after, l = before ++ e :: after ∧ front = placed scope before ∧ s = e.placed scope ∧
      behind = placed scope after := by
  obtain ⟨before, later, rfl, rfl, hlater⟩ := List.map_eq_append_iff.1 h
  obtain ⟨e, after, rfl, rfl, rfl⟩ := List.map_eq_cons_iff.1 hlater
  exact ⟨before, e, after, rfl, rfl, rfl, rfl⟩

theorem Offset.le_nextCapped (o : Offset) : o ≤ o.nextCapped := by
  unfold nextCapped
  cases h : o.next? with
  | none => exact Fin.le_refl o
  | some p =>
    have := val_of_next? h
    exact Fin.le_def.2 (by simp; omega)

namespace Block

open Statement

/-- A jump to `target` leads neither to `s` nor to the statements `later` behind it, nor to the end. -/
structure Unreached (scope : Scope) (target : Offset) (s : Statement) (later : List Statement) :
    Prop where
  /-- It leads to no statement. -/
  inside : ∀ x ∈ s :: later, x.start ≠ target
  /-- It does not lead behind the composite statement around the block. -/
  behind : ∀ frame ∈ scope.head?, frame.stop ≠ target
  /-- In a whole body it leads to before `s`. -/
  whole : scope = [] → target ≤ s.start

/-- The statements that follow `previous` do not tell where a selection ends that is open there: there is
no jump before a clause label, or such a jump leads nowhere, or another selection comes first. The
statements `rest` are behind them. -/
inductive Held (scope : Scope) (rest : List Statement) : Statement → List Statement → Prop where
  /-- There are no more of them. -/
  | nil {previous : Statement} : Held scope rest previous []
  /-- Another selection comes first. -/
  | nested {previous s : Statement} {l : List Statement} (head : s.isPlain Token.isSwitch = true) :
      Held scope rest previous (s :: l)
  /-- The jump before a label leads nowhere. -/
  | nowhere {previous s : Statement} {l : List Statement} {target : Offset}
      (label : s.isPlain Token.isCaseLabel = true) (jump : previous.jumpTarget? = some target)
      (unreached : Unreached scope target s (l ++ rest)) : Held scope rest previous (s :: l)
  /-- There is no jump before a label here. -/
  | pass {previous s : Statement} {l : List Statement}
      (skip : s.isPlain Token.isCaseLabel = true → previous.jumpTarget? = none)
      (held : Held scope rest s l) : Held scope rest previous (s :: l)

/-- A statement that passes have dealt with, with those behind it that they have dealt with too. The
statements `rest` are behind all of these. -/
def Passed (scope : Scope) (rest : List Statement) (s : Statement) (behind : List Statement) : Prop :=
  Dormant scope (behind ++ rest) s ∨
    s.isPlain Token.isSwitch = true ∧ Held scope rest s behind

/-- Passes over a part of `l` have dealt with the statements `done`, and the instructions `rest` are
still as they were. -/
structure Frontier (l : Listing) (b : Block) (done : List Statement) (rest : Listing) : Prop where
  /-- These are the statements of the block. -/
  statements : b.statements = done ++ rest.placed b.scope
  /-- They are in the order of the code. -/
  ascending : Ascending b.statements
  /-- The instructions that are left are a part of the code. -/
  part : rest <:+: l
  /-- In a whole body nothing is behind them. -/
  whole : b.scope = [] → rest <:+ l
  /-- A pass ended with something new. -/
  made : ∀ s ∈ done.getLast?, s.token? = none
  /-- Passes have dealt with the statements. -/
  passed : EachBehind (Passed b.scope (rest.placed b.scope)) done

/-- The end of a selection that begins before a statement, and takes it in: behind the statement, where the
block ends, or behind a whole body. -/
def EndsBehind (b : Block) (later : List Statement) (stop : Offset) : Prop :=
  (∃ x ∈ later, x.start = stop) ∨ b.endsAt stop = true ∨ b.scope = [] ∧ stop = b.stop

/-- Where a rewrite is made in a block that passes have dealt with in part. -/
inductive Step (b : Block) (done : List Statement) (rest : Listing) : Rewrite → Prop where
  /-- In what is left. -/
  | ahead {r : Rewrite} (le : done.length ≤ r.first) : Step b done rest r
  /-- A selection that waited takes in what was dealt with behind its head. -/
  | selection {front kept : List Statement} {s : Statement} {discriminant : Token} {after : Nat}
      {stop : Offset} (hdone : done = front ++ s :: kept) (head : s.isPlain Token.isSwitch = true)
      (switchless : Switchless kept) (le : done.length ≤ after)
      (ends : b.EndsBehind (rest.placed b.scope) stop) :
      Step b done rest
        ⟨front.length, after,
          [.wrap s.start (.switchHead discriminant) (b.slice (front.length + 1) after) stop]⟩

variable {scope : Scope} {s previous : Statement} {l later front : List Statement} {target : Offset}
  {b : Block} {first : Nat}

theorem map_start_adoptAll (scope : Scope) (l : List Statement) :
    (adoptAll scope l).map Statement.start = l.map Statement.start := by
  rw [adoptAll_eq_map, List.map_map]
  exact List.map_congr_left fun s _ => start_adopt scope s

theorem Ascending.adoptAll (h : Ascending l) (scope : Scope) : Ascending (adoptAll scope l) := by
  rwa [Ascending, map_start_adoptAll]

theorem Ascending.slice (h : Ascending b.statements) (i j : Nat) : Ascending (b.slice i j) :=
  h.sublist ((b.slice_sublist i j).map _)

/-! ### Targets that lead nowhere -/

theorem Unreached.find?_eq_none (h : Unreached b.scope target s later)
    (hb : b.statements = front ++ s :: later) (asc : Ascending b.statements) :
    b.find? target front.length = none := by
  have hs : s ∈ b.statements := by simp [hb]
  have ends : b.endsAt target = false :=
    endsAt_eq_false h.behind fun hscope x hx => Nat.le_trans (h.whole hscope) (asc.le_last hs hx)
  have nowhere : (s :: later).findIdx? (fun x => x.start == target) = none :=
    List.findIdx?_eq_none_iff.2 fun x hx => beq_eq_false_iff_ne.2 (h.inside x hx)
  simp [find?, ends, hb, nowhere]

theorem unreached_of_find?_eq_none (hb : b.statements = front ++ s :: later)
    (asc : Ascending b.statements) (h : b.find? target front.length = none)
    (addressed : b.scope = [] → target ≤ s.start ∨ (∃ x ∈ later, x.start = target) ∨
      ∀ x ∈ b.statements, x.start < target) : Unreached b.scope target s later := by
  obtain ⟨scope, statements⟩ := b
  subst hb
  obtain ⟨-, behind, whole⟩ := of_find?_le asc (Nat.le_succ _) (fun k hk => by simp [h] at hk) addressed
  refine ⟨fun x hx => ?_, behind, whole⟩
  unfold find? at h
  split at h
  · cases h
  · rw [List.drop_left, Option.map_eq_none_iff, List.findIdx?_eq_none_iff] at h
    simpa using h x hx

/-- A target that leads nowhere in a block is not the end of a selection. -/
theorem EndsBehind.ne {stop : Offset} (hstop : b.EndsBehind later stop)
    (hb : b.statements = front ++ s :: later) (asc : Ascending b.statements) (hlater : later ≠ [])
    (inside : ∀ x ∈ later, x.start ≠ target) (behind : ∀ frame ∈ b.scope.head?, frame.stop ≠ target)
    (whole : b.scope = [] → target ≤ s.start) : stop ≠ target := by
  obtain ⟨before, last, rfl⟩ : ∃ before last, later = before ++ [last] :=
    ⟨_, _, (List.dropLast_concat_getLast hlater).symm⟩
  have hlast : b.last? = some last := by simp [last?, hb, List.getLast?_cons]
  have hlt : s.start < last.start := by
    rw [hb] at asc
    exact asc.right.lt (by simp)
  rcases hstop with ⟨x, hx, rfl⟩ | hends | ⟨hscope, rfl⟩
  · exact inside x hx
  · cases hscope : b.scope with
    | nil =>
      have hends : last.start < stop := by simpa [endsAt, hscope, hlast] using hends
      exact Fin.ne_of_gt (Fin.lt_of_le_of_lt (whole hscope) (Fin.lt_trans hlt hends))
    | cons frame outer =>
      have hends : frame.stop = stop := by simpa [endsAt, hscope] using hends
      exact hends ▸ behind frame (by rw [hscope]; rfl)
  · have hcapped : last.start ≤ b.stop := by
      simpa [Block.stop, hscope, hlast] using Offset.le_nextCapped last.start
    exact Fin.ne_of_gt (Fin.lt_of_le_of_lt (whole hscope) (Fin.lt_of_lt_of_le hlt hcapped))

/-- A dormant statement stays so inside a selection. -/
theorem Dormant.inSelection {frame : Frame} (h : Dormant b.scope later s)
    (hb : b.statements = front ++ s :: later) (asc : Ascending b.statements)
    (hlater : s.isPlain Token.isBranch = true → later ≠ []) (kind : frame.kind.isLoop = false)
    (hstop : b.EndsBehind later frame.stop) : Dormant (frame :: b.scope) later s := by
  cases h with
  | still still => exact .still still
  | jump exit => exact .jump ((Scope.loopExit?_branch kind _).trans exit)
  | jumpIfNot inside behind whole =>
    have := hstop.ne hb asc (hlater rfl) inside behind whole
    exact .jumpIfNot inside (fun _ hf => Option.some.inj hf ▸ this) nofun
  | @iteration _ _ _ _ iterator? _ inside behind whole =>
    refine .iteration inside (fun exit next _ hf => Option.some.inj hf ▸ ?_) fun _ _ => nofun
    exact hstop.ne hb asc (hlater (by cases iterator? <;> rfl)) (inside exit next) (behind exit next)
      (whole exit next)

theorem Dormant.adopt (h : Dormant scope later s) (inner : Scope) :
    Dormant scope later (s.adopt inner) := by
  cases h with
  | still still => exact .still (by rwa [Statement.isPlain, token?_adopt])
  | jump exit => rw [Statement.adopt]; exact .jump exit
  | jumpIfNot inside behind whole => rw [Statement.adopt]; exact .jumpIfNot inside behind whole
  | iteration inside behind whole => rw [Statement.adopt]; exact .iteration inside behind whole

/-! ### Waiting selections -/

theorem selectionEndFrom?_of_switch {rest : List Statement} {j : Nat}
    (head : s.isPlain Token.isSwitch = true) :
    b.selectionEndFrom? first previous j (s :: rest) = none := by
  simp [selectionEndFrom?, head]

theorem selectionEndFrom?_of_label {rest : List Statement} {j : Nat}
    (head : s.isPlain Token.isSwitch = false) (label : s.isPlain Token.isCaseLabel = true)
    (jump : previous.jumpTarget? = some target) :
    b.selectionEndFrom? first previous j (s :: rest) = (b.find? target j).map fun after => (after, target) := by
  simp [selectionEndFrom?, head, label, jump]

theorem selectionEndFrom?_of_skip {rest : List Statement} {j : Nat}
    (head : s.isPlain Token.isSwitch = false)
    (skip : s.isPlain Token.isCaseLabel = true → previous.jumpTarget? = none) :
    b.selectionEndFrom? first previous j (s :: rest) = b.selectionEndFrom? first s (j + 1) rest := by
  rw [selectionEndFrom?, head]
  cases label : s.isPlain Token.isCaseLabel with
  | false => rfl
  | true => rw [skip label]; rfl

/-- What tells the end of a selection is behind the statements that do not. -/
theorem Held.selectionEndFrom? {l rest : List Statement} {after : Nat} {stop : Offset}
    (held : Held b.scope rest previous l) (hb : b.statements = front ++ previous :: (l ++ rest))
    (asc : Ascending b.statements)
    (h : b.selectionEndFrom? first previous (front.length + 1) (l ++ rest) = some (after, stop)) :
    Switchless l ∧
      ∃ previous', b.selectionEndFrom? first previous' (front ++ previous :: l).length rest =
        some (after, stop) := by
  induction held generalizing front with
  | @nil previous => exact ⟨fun _ hs => (List.not_mem_nil hs).elim, previous, by simpa using h⟩
  | nested head =>
    rw [List.cons_append, selectionEndFrom?_of_switch head] at h
    cases h
  | @nowhere previous s l target label jump unreached =>
    have head : s.isPlain Token.isSwitch = false := by
      obtain ⟨t, ht, hlabel⟩ := isPlain_iff.1 label
      rw [Statement.isPlain, ht]
      cases t <;> first | rfl | cases hlabel
    have nowhere : b.find? target (front.length + 1) = none := by
      simpa using unreached.find?_eq_none (hb.trans (List.append_cons ..)) asc
    rw [List.cons_append, selectionEndFrom?_of_label head label jump, nowhere] at h
    cases h
  | @pass previous s l skip held ih =>
    cases head : s.isPlain Token.isSwitch with
    | true =>
      rw [List.cons_append, selectionEndFrom?_of_switch head] at h
      cases h
    | false =>
      rw [List.cons_append, selectionEndFrom?_of_skip head skip] at h
      obtain ⟨switchless, previous', hend⟩ := ih (hb.trans (List.append_cons ..)) (by simpa using h)
      refine ⟨fun x hx => ?_, previous', by simpa using hend⟩
      rcases List.mem_cons.1 hx with rfl | hx
      · exact head
      · exact switchless x hx

/-- The statements stay as they are, up to some of them, and what is made instead of the others does not
tell where a selection ends. -/
theorem Held.replace {kept cut made rest rest' : List Statement} (h : Held scope rest previous (kept ++ cut))
    (hmade : ∀ s ∈ made, s.token? = none)
    (starts : ∀ x ∈ made ++ rest', x.start ∈ (cut ++ rest).map Statement.start) :
    Held scope rest' previous (kept ++ made) := by
  induction kept generalizing previous with
  | nil =>
    rw [List.nil_append]
    clear h starts
    induction made generalizing previous with
    | nil => exact .nil
    | cons s made ih =>
      refine .pass (fun label => ?_) (ih fun x hx => hmade x (List.mem_cons_of_mem _ hx))
      rw [Statement.isPlain, hmade s (List.mem_cons_self ..)] at label
      cases label
  | cons s kept ih =>
    cases h with
    | nested head => exact .nested head
    | nowhere label jump unreached =>
      refine .nowhere label jump ⟨fun x hx heq => ?_, unreached.behind, unreached.whole⟩
      have old : ∃ y ∈ s :: (kept ++ cut ++ rest), y.start = x.start := by
        have hx : x ∈ s :: kept ∨ x ∈ made ++ rest' := by simpa [or_assoc] using hx
        rcases hx with hx | hx
        · exact ⟨x, List.mem_append_left rest (List.mem_append_left cut hx), rfl⟩
        · obtain ⟨y, hy, hstart⟩ := List.mem_map.1 (starts x hx)
          exact ⟨y, by simpa using .inr (.inr (List.mem_append.1 hy)), hstart⟩
      obtain ⟨y, hy, hstart⟩ := old
      exact unreached.inside y hy (hstart.trans heq)
    | pass skip held => exact .pass skip (ih held)

theorem endsBehind_stop (b : Block) (later : List Statement) : b.EndsBehind later b.stop := by
  cases hscope : b.scope with
  | nil => exact .inr (.inr ⟨hscope, rfl⟩)
  | cons frame outer => exact .inr (.inl (by simp [endsAt, Block.stop, hscope]))

theorem endsBehind_start {p k : Nat} (hpk : p ≤ k) (hk : b.statements[k]? = some s) :
    b.EndsBehind (b.statements.drop p) s.start := by
  refine .inl ⟨s, List.mem_of_getElem? (i := k - p) ?_, rfl⟩
  rwa [List.getElem?_drop, Nat.add_sub_cancel' hpk]

/-- A selection whose end nothing tells ends behind the last statement that a pass has made. -/
theorem reach_of_openSelectionEnd {after p : Nat} {stop : Offset} (hp : p ≤ b.length)
    (made : p = b.length → ∀ s ∈ b.last?, s.token? = none)
    (h : b.openSelectionEnd first = (after, stop)) :
    p ≤ after ∧ b.EndsBehind (b.statements.drop p) stop := by
  unfold openSelectionEnd at h
  split at h
  · next s hlast =>
    split at h
    · next hs =>
      cases h
      obtain ⟨t, ht, -⟩ := isPlain_iff.1 (Bool.and_eq_true_iff.1 hs).1
      have hlt : p < b.length := by
        refine Nat.lt_of_le_of_ne hp fun heq => ?_
        rw [made heq s hlast] at ht
        cases ht
      have here : b.statements[b.length - 1]? = some s := by
        rw [length, ← List.getLast?_eq_getElem?]
        exact hlast
      exact ⟨Nat.le_sub_one_of_lt hlt, endsBehind_start (Nat.le_sub_one_of_lt hlt) here⟩
    · cases h
      exact ⟨hp, endsBehind_stop b _⟩
  · cases h
    exact ⟨hp, endsBehind_stop b _⟩

/-- A selection whose end is told by the statements from place `p` on, ends there or behind them. -/
theorem reach_of_selectionEndFrom? {after p : Nat} {stop : Offset} (hp : p ≤ b.length)
    (made : p = b.length → ∀ s ∈ b.last?, s.token? = none) :
    ∀ {rest : List Statement} {previous : Statement} {j : Nat}, p ≤ j → j + rest.length = b.length →
      b.selectionEndFrom? first previous j rest = some (after, stop) →
      p ≤ after ∧ b.EndsBehind (b.statements.drop p) stop := by
  intro rest
  induction rest with
  | nil =>
    intro previous j _ _ h
    exact reach_of_openSelectionEnd hp made (Option.some.inj h)
  | cons s rest ih =>
    intro previous j hpj hj h
    rw [List.length_cons] at hj
    unfold selectionEndFrom? at h
    split at h
    · cases h
    · split at h
      · obtain ⟨k, hk, hpair⟩ := Option.map_eq_some_iff.1 h
        cases hpair
        have hle := Nat.le_trans hpj (le_of_find? hk (by omega))
        refine ⟨hle, ?_⟩
        rcases find?_eq_some_iff.1 hk with ⟨hends, -⟩ | ⟨-, -, hstart, -⟩
        · exact .inr (.inl hends)
        · obtain ⟨x, hx, rfl⟩ := Option.map_eq_some_iff.1 hstart
          exact endsBehind_start hle hx
      · exact ih (by omega) (by omega) h

/-- The rewrite at the head of a selection. -/
theorem rewriteAt?_of_switch (hb : b.statements = front ++ s :: later)
    (head : s.isPlain Token.isSwitch = true) :
    ∃ discriminant, b.rewriteAt? front.length =
      (b.selectionEndFrom? (front.length + 1) s (front.length + 1) later).map fun (after, stop) =>
        ⟨front.length, after, [.wrap s.start (.switchHead discriminant)
          (b.slice (front.length + 1) after) stop]⟩ := by
  obtain ⟨t, ht, hswitch⟩ := isPlain_iff.1 head
  cases t with
  | switch discriminant =>
    refine ⟨discriminant, ?_⟩
    have here : b.statements[front.length]? = some s := by simp [hb]
    have ahead : b.statements.drop (front.length + 1) = later := by simp [hb]
    simp only [rewriteAt?, here, ht, selectionRewrite?, ahead]
  | _ => cases hswitch

theorem selectionEndFrom?_eq_none (hb : b.statements = front ++ s :: later)
    (head : s.isPlain Token.isSwitch = true) (h : b.rewriteAt? front.length = none) :
    b.selectionEndFrom? (front.length + 1) s (front.length + 1) later = none := by
  obtain ⟨_, heq⟩ := rewriteAt?_of_switch hb head
  rwa [h, eq_comm, Option.map_eq_none_iff] at heq

/-- Statements that were dealt with stay so when new ones are put behind them, in the place of others. -/
theorem passed_replace {kept cut made rest rest' : List Statement}
    (h : EachBehind (Passed scope rest) (kept ++ cut)) (hmade : ∀ s ∈ made, s.token? = none)
    (starts : ∀ x ∈ made ++ rest', x.start ∈ (cut ++ rest).map Statement.start) :
    EachBehind (Passed scope rest') (kept ++ made) := by
  rintro s behind ⟨front, hfront⟩
  rcases of_append_cons_eq hfront with ⟨behind, rfl, rfl⟩ | ⟨between, -, rfl⟩
  · rcases h s (behind ++ cut) ⟨front, by simp⟩ with dormant | ⟨head, held⟩
    · refine .inl (dormant.mono fun x hx => ?_)
      rw [List.append_assoc] at hx ⊢
      rw [List.map_append, List.mem_append]
      rcases List.mem_append.1 hx with hx | hx
      · exact .inl (List.mem_map_of_mem hx)
      · exact .inr (starts x hx)
    · exact .inr ⟨head, held.replace hmade starts⟩
  · refine .inl (.still ?_)
    rw [Statement.isPlain, hmade s (by simp)]
    rfl

/-! ### The frontier -/

namespace Frontier

variable {l rest : Listing} {done : List Statement} {r : Rewrite} {i : Nat}

/-- At first, nothing is dealt with. -/
theorem start (sorted : Listing.fault? l = none) : Frontier l l.block [] l where
  statements := rfl
  ascending := by
    have h := (Listing.fault?_eq_none_iff l).1 sorted
    rw [Ascending, Listing.block, List.map_map]
    exact h
  part := List.infix_refl l
  whole _ := List.suffix_refl l
  made := nofun
  passed := EachBehind.nil

theorem split_statements {kept : List Statement} (h : Frontier l b done rest)
    (hdone : done = front ++ s :: kept) :
    b.statements = front ++ s :: (kept ++ rest.placed b.scope) := by
  rw [h.statements, hdone, List.append_assoc, List.cons_append]

theorem drop_statements (h : Frontier l b done rest) {k : Nat} (hk : done.length ≤ k) :
    b.statements.drop k = Listing.placed b.scope (rest.drop (k - done.length)) := by
  rw [h.statements, List.drop_append, List.drop_of_length_le hk, List.nil_append, Listing.placed,
    Listing.placed, List.map_drop]

theorem take_statements (h : Frontier l b done rest) {k : Nat} (hk : done.length ≤ k) :
    b.statements.take k = done ++ Listing.placed b.scope (rest.take (k - done.length)) := by
  rw [h.statements, List.take_append, List.take_of_length_le hk, Listing.placed, Listing.placed,
    List.map_take]

theorem slice_statements (h : Frontier l b done rest) {i j : Nat} (hi : done.length ≤ i) :
    b.slice i j = Listing.placed b.scope ((rest.drop (i - done.length)).take (j - i)) := by
  rw [slice, h.drop_statements hi, Listing.placed, Listing.placed, List.map_take]

/-- What is behind a statement that was dealt with, up to a place behind the frontier. -/
theorem slice_behind {kept : List Statement} (h : Frontier l b done rest)
    (hdone : done = front ++ s :: kept) {after : Nat} (hafter : done.length ≤ after) :
    b.slice (front.length + 1) after =
      kept ++ Listing.placed b.scope (rest.take (after - done.length)) := by
  have hdrop : b.statements.drop (front.length + 1) = kept ++ rest.placed b.scope := by
    simp [h.split_statements hdone]
  have hlen : after - (front.length + 1) = kept.length + (after - done.length) := by
    simp only [hdone, List.length_append, List.length_cons] at hafter ⊢
    omega
  rw [slice, hdrop, hlen, List.take_length_add_append, Listing.placed, Listing.placed, List.map_take]

/-! ### Where nothing is found -/

section

variable (sorted : Listing.fault? l = none) (addr : l.Addressed)

include sorted addr

/-- Where the jumps of the run that is left lead. -/
theorem addressed (h : Frontier l b done rest) {before after : Listing} {e x : Entry}
    (hrest : rest = before ++ e :: after) (hx : x ∈ rest) {n : Nat} (hn : x.token.goal? = some n)
    (hscope : b.scope = []) :
    n ≤ (e.placed b.scope).start.val ∨ (∃ s ∈ after.placed b.scope, s.start.val = n) ∨
      ∀ s ∈ b.statements, s.start.val < n := by
  obtain ⟨ahead, rfl⟩ := h.whole hscope
  have order := (Listing.fault?_eq_none_iff _).1 sorted
  rcases addr x (List.mem_append_right _ hx) n hn with ⟨y, hy, rfl⟩ | hlt
  · rw [hrest, ← List.append_assoc] at hy order
    rcases List.mem_append.1 hy with hy | hy
    · rw [List.map_append] at order
      exact .inl (Nat.le_of_lt ((List.pairwise_append.1 order).2.2 _ (List.mem_map_of_mem hy) _
        (List.mem_map_of_mem (List.mem_cons_self ..))))
    · rcases List.mem_cons.1 hy with rfl | hy
      · exact .inl (Nat.le_refl _)
      · exact .inr (.inl ⟨y.placed b.scope, Listing.mem_placed.2 ⟨y, hy, rfl⟩, rfl⟩)
  · refine .inr (.inr fun s hs => ?_)
    have asc := h.ascending
    rw [h.statements] at hs asc
    have hentry : ∀ s ∈ rest.placed b.scope, s.start.val < n := by
      intro s hs
      obtain ⟨y, hy, rfl⟩ := Listing.mem_placed.1 hs
      exact hlt y (List.mem_append_right _ hy)
    rcases List.mem_append.1 hs with hs | hs
    · have he : e.placed b.scope ∈ rest.placed b.scope := Listing.mem_placed.2 ⟨e, by simp [hrest], rfl⟩
      exact Nat.lt_trans (asc.lt_of_append hs he) (hentry _ he)
    · exact hentry s hs

/-- What is left does not tell where a selection ends, as far as it is looked at, if no end is found. -/
theorem held_of_eq_none (h : Frontier l b done rest) {m n : Listing} (hpart : m ++ n <:+ rest)
    (hb : b.statements = front ++ previous :: Listing.placed b.scope (m ++ n))
    (hprevious : ∀ target, previous.jumpTarget? = some target → ∃ x ∈ rest, x.token = .jump target)
    (hnone : b.selectionEndFrom? first previous (front.length + 1) (Listing.placed b.scope (m ++ n)) =
      none) : Held b.scope (n.placed b.scope) previous (m.placed b.scope) := by
  induction m generalizing front previous with
  | nil => exact .nil
  | cons e m ih =>
    rw [List.cons_append, Listing.placed_cons, List.append_cons] at hb
    rw [List.cons_append, Listing.placed_cons] at hnone
    rw [Listing.placed_cons]
    cases head : (e.placed b.scope).isPlain Token.isSwitch with
    | true => exact .nested head
    | false =>
      by_cases skip : (e.placed b.scope).isPlain Token.isCaseLabel = true → previous.jumpTarget? = none
      · rw [selectionEndFrom?_of_skip head skip] at hnone
        refine .pass skip (ih ((List.suffix_cons ..).trans hpart) hb (fun target hjump => ?_)
          (by simpa using hnone))
        have he : e ∈ rest := hpart.subset (List.mem_cons_self ..)
        exact ⟨e, he, Token.jumpTarget?_eq_some_iff.1 hjump⟩
      · obtain ⟨label, jump⟩ := Classical.not_imp.1 skip
        obtain ⟨target, jump⟩ := Option.ne_none_iff_exists'.1 jump
        rw [selectionEndFrom?_of_label head label jump, Option.map_eq_none_iff] at hnone
        obtain ⟨x, hx, htoken⟩ := hprevious target jump
        obtain ⟨before, hrest⟩ := hpart
        have hrest : rest = before ++ e :: (m ++ n) := hrest.symm
        have nowhere : b.find? target (front ++ [previous]).length = none := by simpa using hnone
        refine .nowhere label jump (Listing.placed_append ▸
          unreached_of_find?_eq_none hb h.ascending nowhere fun hscope => ?_)
        have := h.addressed sorted addr hrest hx (n := target.val) (by rw [htoken]; rfl) hscope
        simpa only [Fin.val_inj, Fin.le_def, Fin.lt_def] using this

/-- What was dealt with does not tell where a selection ends, and neither does what is behind it, as far as
it is looked at, if no end is found. -/
theorem held_append (h : Frontier l b done rest) {m n : Listing} (hrest : rest = m ++ n)
    {kept : List Statement} (held : Held b.scope (rest.placed b.scope) previous kept)
    (hb : b.statements = front ++ previous :: (kept ++ rest.placed b.scope))
    (hlast : ∀ x ∈ (previous :: kept).getLast?, x.jumpTarget? = none)
    (hnone : b.selectionEndFrom? first previous (front.length + 1) (kept ++ rest.placed b.scope) =
      none) : Held b.scope (n.placed b.scope) previous (kept ++ m.placed b.scope) := by
  subst hrest
  induction held generalizing front with
  | @nil previous =>
    refine h.held_of_eq_none sorted addr (List.suffix_refl _) hb (fun target jump => ?_) hnone
    rw [hlast previous (by simp)] at jump
    cases jump
  | nested head => exact .nested head
  | nowhere label jump unreached =>
    rw [Listing.placed_append, ← List.append_assoc] at unreached
    exact .nowhere label jump unreached
  | @pass previous s kept skip held ih =>
    rw [List.cons_append] at hb hnone ⊢
    cases head : s.isPlain Token.isSwitch with
    | true => exact .nested head
    | false =>
      rw [selectionEndFrom?_of_skip head skip] at hnone
      rw [List.getLast?_cons_cons] at hlast
      exact .pass skip (ih hlast (hb.trans (List.append_cons ..)) (by simpa using hnone))

/-- A statement that was dealt with, when passes have found nothing at it again. -/
theorem passed_kept (h : Frontier l b done rest) {m n : Listing} (hrest : rest = m ++ n)
    {kept : List Statement} (hdone : done = front ++ s :: kept)
    (hnone : b.rewriteAt? front.length = none) :
    Passed b.scope (n.placed b.scope) s (kept ++ m.placed b.scope) := by
  rcases h.passed s kept ⟨front, hdone.symm⟩ with dormant | ⟨head, held⟩
  · left
    rwa [List.append_assoc, ← Listing.placed_append, ← hrest]
  · have hb := h.split_statements hdone
    refine .inr ⟨head, h.held_append sorted addr hrest held hb (fun x hx => ?_)
      (selectionEndFrom?_eq_none hb head hnone)⟩
    rw [jumpTarget?, h.made x (by simpa [hdone] using hx)]
    rfl

/-- An instruction, when passes have found nothing at it. -/
theorem passed_entry (h : Frontier l b done rest) {before m n : Listing} {e : Entry}
    (hrest : rest = before ++ e :: (m ++ n))
    (hnone : b.rewriteAt? (done ++ before.placed b.scope).length = none) :
    Passed b.scope (n.placed b.scope) (e.placed b.scope) (m.placed b.scope) := by
  have hb : b.statements =
      done ++ before.placed b.scope ++ e.placed b.scope :: Listing.placed b.scope (m ++ n) := by
    simp [h.statements, hrest]
  cases head : (e.placed b.scope).isPlain Token.isSwitch with
  | true =>
    refine .inr ⟨head, h.held_of_eq_none sorted addr ⟨before ++ [e], by simp [hrest]⟩ hb
      (fun target jump => ?_) (selectionEndFrom?_eq_none hb head hnone)⟩
    exact ⟨e, by simp [hrest], Token.jumpTarget?_eq_some_iff.1 jump⟩
  | false =>
    left
    rw [← Listing.placed_append]
    refine dormant_of_rewriteAt?_eq_none hb h.ascending hnone head fun hscope t n ht hn => ?_
    cases ht
    exact h.addressed sorted addr hrest (by simp [hrest]) hn hscope

/-- Where passes have found nothing up to some place, they have dealt with everything before it. -/
theorem passed_append (h : Frontier l b done rest) {m n : Listing} (hrest : rest = m ++ n)
    (nothing : ∀ j < done.length + m.length, b.rewriteAt? j = none) :
    EachBehind (Passed b.scope (n.placed b.scope)) (done ++ m.placed b.scope) := by
  rintro s behind ⟨front, hfront⟩
  have hnone : b.rewriteAt? front.length = none := by
    have := congrArg List.length hfront
    simp only [List.length_append, List.length_cons, Listing.length_placed] at this
    exact nothing _ (by omega)
  rcases of_append_cons_eq hfront with ⟨kept, hdone, rfl⟩ | ⟨between, rfl, hm⟩
  · exact h.passed_kept sorted addr hrest hdone hnone
  · obtain ⟨before, e, after, rfl, rfl, rfl, rfl⟩ := Listing.placed_eq_append_cons hm
    exact h.passed_entry sorted addr (by simp [hrest]) hnone

end

/-! ### Where a rewrite is found -/

/-- The rewrite at a statement that was dealt with. -/
theorem step_of_done (h : Frontier l b done rest) {kept : List Statement}
    (hdone : done = front ++ s :: kept) (hi : RewriteAt b front.length r) : Step b done rest r := by
  have hb := h.split_statements hdone
  have hr := hi.rewriteAt?_eq
  rcases h.passed s kept ⟨front, hdone.symm⟩ with dormant | ⟨head, held⟩
  · rw [rewriteAt?_of_dormant hb h.ascending dormant] at hr
    cases hr
  obtain ⟨discriminant, heq⟩ := rewriteAt?_of_switch hb head
  rw [hr, eq_comm] at heq
  obtain ⟨⟨after, stop⟩, hend, rfl⟩ := Option.map_eq_some_iff.1 heq
  obtain ⟨switchless, previous, hend⟩ := held.selectionEndFrom? hb h.ascending hend
  rw [← hdone] at hend
  have hlen : done.length + (rest.placed b.scope).length = b.length := by
    rw [length, h.statements]
    exact List.length_append.symm
  have made (heq : done.length = b.length) (x : Statement) (hx : x ∈ b.last?) : x.token? = none := by
    have hrest : rest.placed b.scope = [] := List.length_eq_zero_iff.1 (by omega)
    refine h.made x ?_
    rwa [last?, h.statements, hrest, List.append_nil] at hx
  obtain ⟨hle, hstop⟩ := reach_of_selectionEndFrom? (Nat.le.intro hlen) made (Nat.le_refl _) hlen hend
  rw [h.statements, List.drop_left] at hstop
  exact .selection hdone head switchless hle hstop

/-- A rewrite that is found in what is left replaces nothing else. What a pass made last is no step of an
iterator. -/
theorem le_first (h : Frontier l b done rest) (hi : RewriteAt b i r) (hge : done.length ≤ i) :
    done.length ≤ r.first := by
  cases hi with
  | advance _ _ _ step =>
    refine Nat.le_sub_one_of_lt (Nat.lt_of_le_of_ne hge fun heq => ?_)
    subst heq
    rcases List.eq_nil_or_concat done with rfl | ⟨front, x, rfl⟩
    · cases step
    · rw [List.concat_eq_append] at h step
      simp [followsNext, h.statements, Statement.isPlain, h.made x (by simp)] at step
  | _ => exact hge

/-- A rewrite is found in what is left, or it is that of a selection that waited. -/
theorem step (h : Frontier l b done rest) (hi : RewriteAt b i r) : Step b done rest r := by
  by_cases hlt : i < done.length
  · obtain ⟨front, s, kept, hdone, rfl⟩ :
        ∃ front s kept, done = front ++ s :: kept ∧ front.length = i :=
      ⟨done.take i, done[i], done.drop (i + 1), by simp, by simp; omega⟩
    exact h.step_of_done hdone hi
  · exact .ahead (h.le_first hi (Nat.le_of_not_lt hlt))

theorem le_after (h : Frontier l b done rest) (hi : RewriteAt b i r) : done.length ≤ r.after := by
  cases h.step hi with
  | ahead le => exact Nat.le_trans le (Nat.le_trans hi.first_le (Nat.le_of_lt hi.bounds.1))
  | selection _ _ _ le => exact le

/-! ### A pass -/

section

variable (sorted : Listing.fault? l = none) (addr : l.Addressed)

include sorted addr

/-- What is in front of a rewrite was dealt with, together with what was dealt with behind it. -/
theorem passed_front (h : Frontier l b done rest) (hi : RewriteAt b i r)
    (nothing : ∀ j < i, b.rewriteAt? j = none) :
    ∃ cut behind, b.statements.drop r.first = cut ++ behind ∧
      EachBehind (Passed b.scope behind) (b.statements.take r.first ++ cut) := by
  cases h.step hi with
  | ahead le =>
    refine ⟨[], _, h.drop_statements le, ?_⟩
    rw [h.take_statements le, List.append_nil]
    refine h.passed_append sorted addr (List.take_append_drop ..).symm fun j hj => nothing j ?_
    have := List.length_take_le (r.first - done.length) rest
    have := hi.first_le
    omega
  | @selection front kept s discriminant after stop hdone =>
    refine ⟨s :: kept, rest.placed b.scope, ?_, ?_⟩
    · simp [h.statements, hdone]
    · simpa [h.statements, hdone] using h.passed

/-- A pass moves the frontier on. -/
theorem rewritten (h : Frontier l b done rest) (hr : b.firstRewrite? = some r) :
    Frontier l (b.rewritten r)
      (b.statements.take r.first ++ (adoptAll b.scope r.made).map Statement.finished)
      (rest.drop (r.after - done.length)) := by
  obtain ⟨i, hi, nothing⟩ := firstRewriteAt_of_firstRewrite? hr
  constructor
  · rw [Block.rewritten, h.drop_statements (h.le_after hi)]
  · exact h.ascending.sublist hi.sublist_rewritten
  · exact (List.drop_suffix ..).isInfix.trans h.part
  · exact fun hscope => (List.drop_suffix ..).trans (h.whole hscope)
  · intro s hs
    have nonempty : (adoptAll b.scope r.made).map Statement.finished ≠ [] := by
      simpa [adoptAll_eq_map] using hi.made_ne_nil
    rw [List.getLast?_append, List.getLast?_eq_some_getLast nonempty, Option.some_or,
      Option.mem_some] at hs
    exact hi.token?_made (hs ▸ List.getLast_mem nonempty)
  · obtain ⟨cut, behind, hcut, hpassed⟩ := h.passed_front sorted addr hi nothing
    refine passed_replace hpassed (fun _ => hi.token?_made) fun x hx => hcut ▸ hi.start_mem ?_
    rwa [h.drop_statements (h.le_after hi)]

end

/-! ### Children -/

/-- What is folded from what is left is not dealt with. -/
theorem unread (h : Frontier l b done rest) (frame : Frame) (i j : Nat) (hi : done.length ≤ i) :
    ∃ run, Frontier l ⟨frame :: b.scope, adoptAll (frame :: b.scope) (b.slice i j)⟩ [] run := by
  have part : (rest.drop (i - done.length)).take (j - i) <:+: rest :=
    (List.take_prefix ..).isInfix.trans (List.drop_suffix ..).isInfix
  refine ⟨_, ?_, (h.ascending.slice i j).adoptAll _, part.trans h.part, nofun, nofun, EachBehind.nil⟩
  rw [h.slice_statements hi, Listing.adoptAll_placed]
  rfl

section

variable {kept : List Statement} {frame : Frame} {after : Nat}

/-- A statement that a selection takes in and that no rewrite was found at. -/
theorem dormant_inherited (h : Frontier l b done rest) (hdone : done = front ++ s :: kept)
    (dormant : Dormant b.scope (kept ++ rest.placed b.scope) s) (kind : frame.kind.isLoop = false)
    (ends : b.EndsBehind (rest.placed b.scope) frame.stop) {run : Listing} (hrun : run ⊆ rest) :
    Dormant (frame :: b.scope)
      (adoptAll (frame :: b.scope) kept ++ run.placed (frame :: b.scope))
      (s.adopt (frame :: b.scope)) := by
  have hlater : s.isPlain Token.isBranch = true → kept ++ rest.placed b.scope ≠ [] := by
    intro hbranch hnil
    obtain ⟨rfl, -⟩ := List.append_eq_nil_iff.1 hnil
    rw [Statement.isPlain, h.made s (by simp [hdone])] at hbranch
    cases hbranch
  have inside := dormant.inSelection (h.split_statements hdone) h.ascending hlater kind
    (ends.imp_left fun later => later.imp fun x hx => hx.imp_left (List.mem_append_right _))
  refine (inside.mono fun x hx => ?_).adopt _
  have hx := List.mem_map_of_mem (f := Statement.start) hx
  rw [List.map_append, map_start_adoptAll, Listing.map_start_placed, List.mem_append] at hx
  rw [List.map_append, Listing.map_start_placed, List.mem_append]
  exact hx.imp_right fun hx => List.map_subset _ hrun hx

/-- What a selection takes in that waited is dealt with in the selection, as far as it was in the block. -/
theorem inherited (h : Frontier l b done rest) (hdone : done = front ++ s :: kept)
    (switchless : Switchless kept) (kind : frame.kind.isLoop = false) (hafter : done.length ≤ after)
    (ends : b.EndsBehind (rest.placed b.scope) frame.stop) :
    Frontier l ⟨frame :: b.scope, adoptAll (frame :: b.scope) (b.slice (front.length + 1) after)⟩
      (adoptAll (frame :: b.scope) kept) (rest.take (after - done.length)) := by
  constructor
  · rw [h.slice_behind hdone hafter, adoptAll_eq_map, List.map_append, ← adoptAll_eq_map,
      ← adoptAll_eq_map, Listing.adoptAll_placed]
  · exact (h.ascending.slice _ _).adoptAll _
  · exact (List.take_prefix ..).isInfix.trans h.part
  · exact nofun
  · intro x hx
    rw [adoptAll_eq_map, List.getLast?_map] at hx
    obtain ⟨y, hy, rfl⟩ := Option.map_eq_some_iff.1 hx
    rw [token?_adopt]
    refine h.made y ?_
    rw [hdone, List.getLast?_append, List.getLast?_cons, hy]
    rfl
  · rintro x behind ⟨ahead, hahead⟩
    rw [adoptAll_eq_map] at hahead
    obtain ⟨before, later, rfl, rfl, hlater⟩ := List.map_eq_append_iff.1 hahead.symm
    obtain ⟨y, behind, rfl, rfl, rfl⟩ := List.map_eq_cons_iff.1 hlater
    have hdone : done = front ++ s :: before ++ y :: behind := by simp [hdone]
    rcases h.passed y behind ⟨_, hdone.symm⟩ with dormant | ⟨head, -⟩
    · rw [← adoptAll_eq_map]
      exact .inl (h.dormant_inherited hdone dormant kind ends (List.take_subset ..))
    · rw [switchless y (by simp)] at head
      cases head

end

/-- The children of what a pass makes have not been dealt with, or they came over from the block, from
behind the head of a selection. -/
theorem child (h : Frontier l b done rest) (hi : RewriteAt b i r) {start stop : Offset}
    {scope inner : Scope} {head : Head} {m : List Statement}
    (hm : .composite start scope head stop inner m ∈ adoptAll b.scope r.made) :
    ∃ kept run, Frontier l ⟨inner, m⟩ (adoptAll inner kept) run ∧
      (kept = [] ∨ ∃ front s, done = front ++ s :: kept ∧ s.isPlain Token.isSwitch = true ∧
        head.kind = .switchBlock) := by
  cases h.step hi with
  | ahead le =>
    obtain ⟨rfl, j, k, hj, rfl⟩ := hi.slice_of_wrap hm
    obtain ⟨run, hrun⟩ := h.unread ⟨head.kind, start, stop⟩ j k (Nat.le_trans le (Nat.le_of_lt hj))
    exact ⟨[], run, hrun, .inl rfl⟩
  | @selection front kept s discriminant after stop hdone head switchless le ends =>
    simp only [adoptAll, adopt_wrap, List.mem_singleton, composite.injEq] at hm
    obtain ⟨rfl, rfl, rfl, rfl, rfl, rfl⟩ := hm
    exact ⟨kept, _, h.inherited hdone switchless rfl le ends, .inr ⟨front, s, hdone, head, rfl⟩⟩

end Frontier

end Block

end FlowRecovery
