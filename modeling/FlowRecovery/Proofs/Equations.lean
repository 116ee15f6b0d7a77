import FlowRecovery.Listing
import FlowRecovery.Proofs.Locality

/-!
# The equations of recovery

What is left of a run of instructions within a scope (`Listing.recovered`), in terms of what is left
of its parts: one equation for each shape that a rewrite at the front can have, and one for an
instruction that stays (`recovered_cons`). `Leads` says which part of the run a jump leads behind.
-/

namespace FlowRecovery

theorem Block.trimLast_concat {p : Token → Bool} {scope : Scope} {l : List Statement} {s : Statement}
    (h : s.isPlain p = true) : (Block.mk scope (l ++ [s])).trimLast p = ⟨scope, l⟩ := by
  simp [trimLast, endsWith, last?, h]

theorem Scope.loopExit?_branch {scope : Scope} {frame : Frame} (h : frame.kind.isLoop = false)
    (target : Offset) : Scope.loopExit? (frame :: scope) target = scope.loopExit? target :=
  List.find?_cons_of_neg (by simp [h])

theorem Scope.loopExit?_loop {scope : Scope} {frame : Frame} (h : frame.kind.isLoop = true) :
    Scope.loopExit? (frame :: scope) frame.stop = some frame :=
  List.find?_cons_of_pos (by simp [h])

/-- The statement of an entry within a scope. -/
def Entry.placed (scope : Scope) (e : Entry) : Statement := .plain e.offset e.stop? scope e.token

namespace Listing

/-- The statements of a run of instructions within a scope. -/
def placed (scope : Scope) (l : Listing) : List Statement := l.map (Entry.placed scope)

/-- What is left of a run of instructions within a scope. -/
def recovered (scope : Scope) (l : Listing) : List Statement :=
  (Block.recovered ⟨scope, l.placed scope⟩).statements

/-- The finished composite statement over a run of instructions. -/
def under (body : Listing) (start : Offset) (scope : Scope) (head : Head) (stop : Offset) :
    Statement :=
  .composite start scope head stop (⟨head.kind, start, stop⟩ :: scope)
    ((Block.mk (⟨head.kind, start, stop⟩ :: scope)
      (body.recovered (⟨head.kind, start, stop⟩ :: scope))).tidy head start stop).statements

/-- Instructions in the order of the code, without a selection. -/
structure Orderly (l : Listing) : Prop where
  /-- The offsets increase. -/
  ascending : (l.map Entry.offset).Pairwise (· < ·)
  /-- There is no head of a selection. -/
  switchless : ∀ e ∈ l, e.token.isSwitch = false

/-- Within `scope`, a jump to `target` leads to the end of `front` in `front ++ behind`. -/
structure Leads (scope : Scope) (target : Offset) (front behind : Listing) : Prop where
  /-- What is in front starts before. -/
  before : ∀ e ∈ front, e.offset < target
  /-- What is behind starts there. -/
  here : ∀ e ∈ behind.head?, e.offset = target
  /-- Where control goes on behind the whole run is further on. -/
  inside : behind ≠ [] → ∀ frame ∈ scope.head?, target < frame.stop
  /-- If nothing is behind, control goes on there behind the whole run. -/
  past : behind = [] → ∀ frame ∈ scope.head?, frame.stop = target

variable {scope : Scope} {e : Entry} {l m front behind : Listing}

@[simp] theorem length_placed : (l.placed scope).length = l.length := List.length_map _

@[simp] theorem placed_nil : placed scope [] = [] := rfl

@[simp] theorem placed_cons : placed scope (e :: l) = e.placed scope :: placed scope l := rfl

@[simp] theorem placed_append : placed scope (l ++ m) = placed scope l ++ placed scope m :=
  List.map_append

@[simp] theorem adoptAll_placed (inner : Scope) :
    Statement.adoptAll inner (l.placed scope) = l.placed inner := by
  simp [Statement.adoptAll_eq_map, placed, Entry.placed, Function.comp_def, Statement.adopt]

theorem map_start_placed : (l.placed scope).map Statement.start = l.map Entry.offset := by
  simp [placed, Entry.placed, Function.comp_def, Statement.start]

theorem mem_placed {s : Statement} : s ∈ l.placed scope ↔ ∃ e ∈ l, e.placed scope = s :=
  List.mem_map

theorem isPlain_placed (p : Token → Bool) (e : Entry) : (e.placed scope).isPlain p = p e.token := rfl

theorem Orderly.tail (h : Orderly (e :: l)) : Orderly l :=
  ⟨h.ascending.of_cons, fun x hx => h.switchless x (List.mem_cons_of_mem _ hx)⟩

theorem Orderly.right (h : Orderly (l ++ m)) : Orderly m := by
  refine ⟨?_, fun x hx => h.switchless x (List.mem_append_right _ hx)⟩
  have := h.ascending
  rw [List.map_append] at this
  exact (List.pairwise_append.1 this).2.1

theorem Orderly.left (h : Orderly (l ++ m)) : Orderly l := by
  refine ⟨?_, fun x hx => h.switchless x (List.mem_append_left _ hx)⟩
  have := h.ascending
  rw [List.map_append] at this
  exact (List.pairwise_append.1 this).1

theorem Orderly.lt (h : Orderly (e :: l)) {x : Entry} (hx : x ∈ l) : e.offset < x.offset :=
  (List.pairwise_cons.1 h.ascending).1 _ (List.mem_map_of_mem hx)

theorem Orderly.lt_of_append (h : Orderly (l ++ m)) {x y : Entry} (hx : x ∈ l) (hy : y ∈ m) :
    x.offset < y.offset := by
  have := h.ascending
  rw [List.map_append] at this
  exact (List.pairwise_append.1 this).2.2 _ (List.mem_map_of_mem hx) _ (List.mem_map_of_mem hy)

theorem Orderly.ascending_placed (h : Orderly l) : Block.Ascending (l.placed scope) := by
  rw [Block.Ascending, map_start_placed]
  exact h.ascending

theorem Orderly.switchless_placed (h : Orderly l) : Block.Switchless (l.placed scope) := by
  intro s hs
  obtain ⟨e, he, rfl⟩ := mem_placed.1 hs
  exact h.switchless e he

/-! ### Where jumps lead -/

variable {target : Offset}

theorem Leads.atEnd (before : ∀ e ∈ front, e.offset < target)
    (past : ∀ frame ∈ scope.head?, frame.stop = target) : Leads scope target front [] :=
  ⟨before, nofun, fun h => absurd rfl h, fun _ => past⟩

theorem Leads.atFront (before : ∀ x ∈ front, x.offset < e.offset)
    (inside : ∀ frame ∈ scope.head?, e.offset < frame.stop) :
    Leads scope e.offset front (e :: behind) := by
  refine ⟨before, ?_, fun _ => inside, nofun⟩
  rintro _ ⟨⟩
  rfl

/-- What is behind some instruction starts after it, so the last statement does. -/
theorem le_start_last (ascending : Block.Ascending (placed scope (front ++ e :: behind))) :
    ∀ s ∈ Block.last? ⟨scope, placed scope (front ++ e :: behind)⟩, e.offset ≤ s.start := by
  intro s hlast
  rw [Block.last?, placed_append, List.getLast?_append, placed_cons,
    List.getLast?_eq_some_getLast (List.cons_ne_nil _ _), Option.some_or] at hlast
  have asc : Block.Ascending (e.placed scope :: placed scope behind) := by
    rw [placed_append] at ascending
    exact ascending.right
  exact asc.le_of_mem (Option.mem_some.1 hlast ▸ List.getLast_mem _)

theorem find?_of_leads {first : Nat} (ascending : Block.Ascending (placed scope (front ++ behind)))
    (leads : Leads scope target front behind) (hfront : front ≠ [])
    (hfirst : first ≤ front.length) :
    Block.find? ⟨scope, placed scope (front ++ behind)⟩ target first = some front.length := by
  refine Block.find?_eq_some_iff.2 ?_
  cases behind with
  | nil =>
    refine .inl ⟨?_, by simp [Block.length]⟩
    cases scope with
    | nil =>
      have hlast := List.getLast?_eq_some_getLast hfront
      have hbefore := leads.before _ (List.getLast_mem hfront)
      simp only [Block.endsAt, Block.last?, List.append_nil, placed, List.getLast?_map, hlast]
      exact decide_eq_true hbefore
    | cons frame _ => exact beq_iff_eq.2 (leads.past rfl frame rfl)
  | cons e rest =>
    have he := leads.here e rfl
    have hinside (frame : Frame) (hf : frame ∈ scope.head?) : frame.stop ≠ target :=
      (Fin.ne_of_lt (leads.inside (List.cons_ne_nil _ _) frame hf)).symm
    refine .inr ⟨Block.endsAt_eq_false hinside fun hs s hlast => ?_, hfirst, ?_, fun j _ hj => ?_⟩
    · exact he ▸ le_start_last ascending s hlast
    · simp [placed, Entry.placed, Statement.start, he]
    · obtain ⟨x, hx⟩ : ∃ x, front[j]? = some x := ⟨_, List.getElem?_eq_getElem hj⟩
      have hlt := leads.before x (List.mem_of_getElem? hx)
      simp only [placed, List.getElem?_map, List.getElem?_append_left hj, hx, Option.map_some,
        Entry.placed, Statement.start, ne_eq, Option.some.injEq]
      exact Fin.ne_of_lt hlt

/-! ### Instructions that stay -/

theorem statements_recovered (scope : Scope) (l : Listing) :
    Block.recovered ⟨scope, l.placed scope⟩ = ⟨scope, l.recovered scope⟩ :=
  congrArg (Block.mk · _) (Block.scope_recovered ⟨scope, l.placed scope⟩)

@[simp] theorem recovered_nil : recovered scope [] = [] :=
  congrArg Block.statements (Block.recovered_of_firstRewrite?_eq_none rfl)

theorem recovered_cons (orderly : Orderly (e :: l))
    (dormant : Block.Dormant scope (l.placed scope) (e.placed scope))
    (step : e.token.isIteratorNext = true → ∀ x ∈ l.head?, x.token.jumpTarget? = none) :
    recovered scope (e :: l) = e.placed scope :: recovered scope l := by
  refine congrArg Block.statements (Block.recovered_cons orderly.ascending_placed dormant
    fun hnext s hs target hjump => ?_)
  obtain ⟨x, hx, rfl⟩ := Option.map_eq_some_iff.1 (List.head?_map.symm.trans hs)
  have hnone : (x.placed scope).jumpTarget? = none := step hnext x hx
  rw [hnone] at hjump
  cases hjump

/-- An instruction that is no branch and no step of an iterator. -/
theorem recovered_cons_of_still (orderly : Orderly (e :: l)) (branch : e.token.isBranch = false)
    (next : e.token.isIteratorNext = false) :
    recovered scope (e :: l) = e.placed scope :: recovered scope l :=
  recovered_cons orderly (.still branch) fun step => absurd step (Bool.eq_false_iff.1 next)

theorem recovered_append (ascending : Block.Ascending (placed scope (front ++ l)))
    (still : ∀ e ∈ front, e.token.isBranch = false ∧ e.token.isIteratorNext = false) :
    recovered scope (front ++ l) = front.placed scope ++ recovered scope l := by
  rw [placed_append] at ascending
  rw [recovered, placed_append, Block.recovered_append ascending fun s hs => ?_]
  · rfl
  · obtain ⟨e, he, rfl⟩ := mem_placed.1 hs
    exact still e he

/-! ### Finished composite statements -/

section

variable {start stop : Offset} {condition collection : Token} {iterator? : Option Token}
  {body : Listing} {t : List Statement}

theorem under_ifHead (h : body.recovered (⟨.ifBlock, start, stop⟩ :: scope) = t) :
    body.under start scope (.ifHead condition) stop =
      .composite start scope (.ifHead condition) stop (⟨.ifBlock, start, stop⟩ :: scope) t := by
  subst h
  rfl

theorem under_elseHead (h : body.recovered (⟨.elseBlock, start, stop⟩ :: scope) = t) :
    body.under start scope .elseHead stop =
      .composite start scope .elseHead stop (⟨.elseBlock, start, stop⟩ :: scope) t := by
  subst h
  rfl

/-- The jump back is taken away. -/
theorem under_whileHead {back : Statement}
    (h : body.recovered (⟨.whileLoop, start, stop⟩ :: scope) = t ++ [back])
    (token : back.token? = some (.jump start)) :
    body.under start scope (.whileHead condition) stop =
      .composite start scope (.whileHead condition) stop (⟨.whileLoop, start, stop⟩ :: scope) t := by
  have hback : back.isPlain (Token.isJumpTo start) = true := by
    simp [Statement.isPlain, token, Token.isJumpTo, Token.jumpTarget?]
  simp only [under, Head.kind, h, Block.tidy, Block.trimLast_concat hback]

/-- The step and the end of the iterator are taken away, and ends of it before returns. -/
theorem under_foreachHead {step last : Statement}
    (h : body.recovered (⟨.foreachLoop, start, stop⟩ :: scope) = t ++ [step, last])
    (hstep : step.token? = some .iteratorNext) (hlast : last.token? = some .iteratorPop) :
    body.under start scope (.foreachHead collection iterator?) stop =
      .composite start scope (.foreachHead collection iterator?) stop
        (⟨.foreachLoop, start, stop⟩ :: scope) (Statement.removePops t) := by
  have hstep : step.isPlain Token.isIteratorNext = true := by
    simp [Statement.isPlain, hstep, Token.isIteratorNext]
  have hlast : last.isPlain Token.isIteratorPop = true := by
    simp [Statement.isPlain, hlast, Token.isIteratorPop]
  have h : body.recovered (⟨.foreachLoop, start, stop⟩ :: scope) = t ++ [step] ++ [last] := by
    rw [h, List.append_assoc]
    rfl
  simp only [under, Head.kind, h, Block.tidy, Block.trimLast_concat hlast,
    Block.trimLast_concat hstep]

end

/-! ### Rewrites at the front -/

theorem slice_placed (front m behind : Listing) {i j : Nat} (hl : l = front ++ (m ++ behind))
    (hi : i = front.length) (hj : j = front.length + m.length) :
    Block.slice ⟨scope, l.placed scope⟩ i j = m.placed scope := by
  subst hl hi hj
  simp [Block.slice, placed]

theorem finished_wrap_placed (inner : Scope) (start : Offset) (head : Head) (stop : Offset) :
    ((Statement.wrap start head (m.placed inner) stop).adopt scope).finished =
      m.under start scope head stop := by
  rw [Statement.adopt_wrap, adoptAll_placed, Statement.finished, statements_recovered]
  rfl

/-- What is left if the first rewrite replaces the instructions in front. -/
theorem recovered_of_rewrite {r : Rewrite}
    (ascending : Block.Ascending (placed scope (front ++ behind)))
    (h : Block.firstRewrite? ⟨scope, placed scope (front ++ behind)⟩ = some r)
    (first : r.first = 0) (after : r.after = front.length) :
    recovered scope (front ++ behind) =
      (Statement.adoptAll scope r.made).map Statement.finished ++ recovered scope behind := by
  have remaining : (placed scope (front ++ behind)).drop r.after = placed scope behind := by
    simp [after, placed]
  rw [recovered, Block.recovered_of_front ascending h first, remaining]
  rfl

theorem tokenAt?_placed {i : Nat} :
    Block.tokenAt? ⟨scope, l.placed scope⟩ i = l[i]?.map Entry.token := by
  cases h : l[i]? <;> simp [Block.tokenAt?, placed, h, Entry.placed, Statement.token?]

theorem tokenAt?_front : Block.tokenAt? ⟨scope, placed scope (e :: l)⟩ 0 = some e.token := rfl

theorem startAt_placed {i : Nat} {x : Entry} (h : l[i]? = some x) :
    Block.startAt ⟨scope, l.placed scope⟩ i = x.offset := by
  simp [Block.startAt, placed, h, Entry.placed, Statement.start]

/-- The last instruction in front. -/
theorem tokenAt?_last (hfront : front ≠ []) :
    Block.tokenAt? ⟨scope, placed scope (front ++ behind)⟩ (front.length - 1) =
      front.getLast?.map Entry.token := by
  have hpos := List.length_pos_iff.2 hfront
  rw [tokenAt?_placed, List.getElem?_append_left (by omega), List.getLast?_eq_getElem?]

/-- A jump leads over no second branch if it does not lead beyond the first one. -/
theorem secondBranchEnd?_of_le {x : Offset} (orderly : Orderly (front ++ behind))
    (leads : Leads scope target front behind) (hx : x ≤ target) :
    Block.secondBranchEnd? ⟨scope, placed scope (front ++ behind)⟩ front.length x = none := by
  rw [Option.eq_none_iff_forall_ne_some]
  intro after h
  obtain ⟨hlt, hle, -, hfind⟩ := Block.lt_of_secondBranchEnd? h
  cases behind with
  | nil => simp only [Block.length, length_placed, List.append_nil] at hle; omega
  | cons b rest =>
    obtain rfl := leads.here b rfl
    rcases Block.find?_eq_some_iff.1 hfind with ⟨hends, -⟩ | ⟨-, -, hstart, -⟩
    · rw [Block.endsAt_eq_false] at hends
      · cases hends
      · intro frame hf
        have hstop := leads.inside (List.cons_ne_nil _ _) frame hf
        exact (Fin.ne_of_lt (Nat.lt_of_le_of_lt hx hstop)).symm
      · exact fun _ s hlast => Nat.le_trans hx (le_start_last orderly.ascending_placed s hlast)
    · obtain ⟨s, hs, rfl⟩ := Option.map_eq_some_iff.1 hstart
      obtain ⟨d, rfl⟩ : ∃ d, after = front.length + (d + 1) := ⟨after - front.length - 1, by omega⟩
      rw [placed_append, List.getElem?_append_right (by simp), length_placed,
        Nat.add_sub_cancel_left, placed_cons, List.getElem?_cons_succ] at hs
      have asc : Block.Ascending (b.placed scope :: placed scope rest) :=
        orderly.right.ascending_placed
      exact absurd hx (Nat.not_le.2 (asc.lt (List.mem_of_getElem? hs)))

theorem secondBranchEnd?_of_exit {x : Offset} {frame : Frame} {b : Block} (split : Nat)
    (exit : b.scope.loopExit? x = some frame) : b.secondBranchEnd? split x = none := by
  simp [Block.secondBranchEnd?, exit]

variable {condition : Token} {body other post : Listing}

theorem slice_body : Block.slice ⟨scope, placed scope (e :: body ++ post)⟩ (0 + 1) (e :: body).length =
    body.placed scope :=
  slice_placed [e] body post rfl rfl (Nat.add_comm ..)

/-- A conditional without a second branch. -/
theorem recovered_conditional (orderly : Orderly (e :: body ++ post))
    (token : e.token = .jumpIfNot condition target) (leads : Leads scope target (e :: body) post)
    (single : ∀ x, (e :: body).getLast?.map Entry.token = some (.jump x) →
      x ≠ e.offset ∧ Block.secondBranchEnd? ⟨scope, placed scope (e :: body ++ post)⟩
        (e :: body).length x = none) :
    recovered scope (e :: body ++ post) =
      body.under e.offset scope (.ifHead condition) target :: recovered scope post := by
  have found := find?_of_leads orderly.ascending_placed leads (List.cons_ne_nil _ _) (Nat.zero_le _)
  have rewrite : Block.RewriteAt ⟨scope, placed scope (e :: body ++ post)⟩ 0 _ :=
    .conditional (token ▸ tokenAt?_front) found (Nat.succ_pos _)
      fun x hx => single x (tokenAt?_last (List.cons_ne_nil _ _) ▸ hx)
  rw [recovered_of_rewrite orderly.ascending_placed (Block.firstRewrite?_of_front rewrite.rewriteAt?_eq)
    rfl rfl]
  rw [startAt_placed rfl, slice_body]
  simp [Statement.adoptAll, finished_wrap_placed]

/-- A conditional loop, whose last instruction jumps back. -/
theorem recovered_loop (orderly : Orderly (e :: body ++ post))
    (token : e.token = .jumpIfNot condition target) (leads : Leads scope target (e :: body) post)
    (back : body.getLast?.map Entry.token = some (.jump e.offset)) :
    recovered scope (e :: body ++ post) =
      body.under e.offset scope (.whileHead condition) target :: recovered scope post := by
  have found := find?_of_leads orderly.ascending_placed leads (List.cons_ne_nil _ _) (Nat.zero_le _)
  have hbody : body ≠ [] := by rintro rfl; cases back
  have last : Block.tokenAt? ⟨scope, placed scope (e :: body ++ post)⟩ ((e :: body).length - 1) =
      some (.jump e.offset) := by
    rw [tokenAt?_last (List.cons_ne_nil _ _), List.getLast?_cons_of_ne_nil hbody, back]
  have rewrite : Block.RewriteAt ⟨scope, placed scope (e :: body ++ post)⟩ 0 _ :=
    .loop (token ▸ tokenAt?_front) found (Nat.succ_pos _) last
  rw [recovered_of_rewrite orderly.ascending_placed (Block.firstRewrite?_of_front rewrite.rewriteAt?_eq)
    rfl rfl]
  rw [startAt_placed rfl, slice_body]
  simp [Statement.adoptAll, finished_wrap_placed]

/-- A conditional with a second branch, over which the jump `j` leads. -/
theorem recovered_alternative {j o : Entry} {stop : Offset}
    (orderly : Orderly (e :: body ++ [j] ++ other ++ post))
    (token : e.token = .jumpIfNot condition target)
    (leads : Leads scope target (e :: body ++ [j]) (other ++ post))
    (across : j.token = .jump stop) (ne_start : stop ≠ e.offset)
    (exit : scope.loopExit? stop = none) (ho : other.head? = some o)
    (leads' : Leads scope stop (e :: body ++ [j] ++ other) post) :
    recovered scope (e :: body ++ [j] ++ other ++ post) =
      body.under e.offset scope (.ifHead condition) j.offset ::
        other.under o.offset scope .elseHead stop :: recovered scope post := by
  obtain ⟨rest, rfl⟩ := List.head?_eq_some_iff.1 ho
  have ascending : Block.Ascending (placed scope (e :: body ++ [j] ++ (o :: rest ++ post))) := by
    rw [← List.append_assoc]
    exact orderly.ascending_placed
  have found := find?_of_leads ascending leads (by simp) (Nat.zero_le _)
  rw [← List.append_assoc] at found
  have ends : Block.find? ⟨scope, placed scope (e :: body ++ [j] ++ (o :: rest) ++ post)⟩ stop
      ((e :: body ++ [j]).length + 1) = some (e :: body ++ [j] ++ (o :: rest)).length :=
    find?_of_leads orderly.ascending_placed leads' (by simp)
      (by simp only [List.length_append, List.length_cons]; omega)
  have second : Block.secondBranchEnd?
      ⟨scope, placed scope (e :: body ++ [j] ++ (o :: rest) ++ post)⟩
      (e :: body ++ [j]).length stop = some (e :: body ++ [j] ++ (o :: rest)).length := by
    simp only [Block.secondBranchEnd?, exit, ends]
    simp [Option.filter]
  have last : Block.tokenAt? ⟨scope, placed scope (e :: body ++ [j] ++ (o :: rest) ++ post)⟩
      ((e :: body ++ [j]).length - 1) = some (.jump stop) := by
    rw [List.append_assoc, tokenAt?_last (by simp), List.getLast?_concat, ← across]
    rfl
  have rewrite : Block.RewriteAt ⟨scope, placed scope (e :: body ++ [j] ++ (o :: rest) ++ post)⟩ 0 _ :=
    .alternative (token ▸ tokenAt?_front) found (by simp) last ne_start second
  have inFirst : Block.slice ⟨scope, placed scope (e :: body ++ [j] ++ (o :: rest) ++ post)⟩ (0 + 1)
      ((e :: body ++ [j]).length - 1) = body.placed scope :=
    slice_placed [e] body ([j] ++ (o :: rest) ++ post) (by simp) rfl (by simp; omega)
  have inSecond : Block.slice ⟨scope, placed scope (e :: body ++ [j] ++ (o :: rest) ++ post)⟩
      (e :: body ++ [j]).length (e :: body ++ [j] ++ (o :: rest)).length = placed scope (o :: rest) :=
    slice_placed (e :: body ++ [j]) (o :: rest) post (by simp) rfl List.length_append
  rw [recovered_of_rewrite orderly.ascending_placed (Block.firstRewrite?_of_front rewrite.rewriteAt?_eq)
    rfl rfl]
  rw [startAt_placed (x := e) rfl, startAt_placed (x := j) (by simp), startAt_placed (x := o) (by simp),
    inFirst, inSecond]
  simp only [Statement.adoptAll, List.map_cons, List.map_nil, finished_wrap_placed]
  rfl

/-- An iteration, which exits to the end of the iterator. -/
theorem recovered_iteration {collection : Token} {iterator? : Option Token} {exit : Offset}
    (ascending : Block.Ascending (placed scope (e :: body ++ post)))
    (token : e.token = .foreachOver collection iterator? target) (next : target.next? = some exit)
    (leads : Leads scope exit (e :: body) post) :
    recovered scope (e :: body ++ post) =
      body.under e.offset scope (.foreachHead collection iterator?) target ::
        recovered scope post := by
  have found : Block.find? ⟨scope, placed scope (e :: body ++ post)⟩ exit (0 + 1) =
      some (e :: body).length :=
    find?_of_leads ascending leads (List.cons_ne_nil _ _) (by simp)
  have rewrite : Block.RewriteAt ⟨scope, placed scope (e :: body ++ post)⟩ 0 _ :=
    .iteration (token ▸ tokenAt?_front) next found
  rw [recovered_of_rewrite ascending (Block.firstRewrite?_of_front rewrite.rewriteAt?_eq)
    rfl rfl]
  rw [startAt_placed rfl, slice_body]
  simp [Statement.adoptAll, finished_wrap_placed]

/-- A jump out of a loop. -/
theorem recovered_leave {frame : Frame} (orderly : Orderly (e :: post))
    (token : e.token = .jump target) (exit : scope.loopExit? target = some frame) :
    recovered scope (e :: post) =
      .escape e.offset scope .leave (.jump target) :: recovered scope post := by
  have rewrite : Block.RewriteAt ⟨scope, placed scope (e :: post)⟩ 0 _ :=
    .leave (token ▸ tokenAt?_front) exit (by simp [Block.followsNext])
  rw [show e :: post = [e] ++ post from rfl] at *
  rw [recovered_of_rewrite orderly.ascending_placed (Block.firstRewrite?_of_front rewrite.rewriteAt?_eq)
    rfl rfl]
  rfl

/-- A jump out of an iteration behind the step of the iterator. -/
theorem recovered_advance {j : Entry} {frame : Frame} (orderly : Orderly (e :: j :: post))
    (step : e.token = .iteratorNext) (token : j.token = .jump target)
    (exit : scope.loopExit? target = some frame) (kind : frame.kind = .foreachLoop) :
    recovered scope (e :: j :: post) =
      .escape j.offset scope .advance (.jump target) :: recovered scope post := by
  have token' : Block.tokenAt? ⟨scope, placed scope (e :: j :: post)⟩ 1 = some (.jump target) := by
    rw [← token]
    rfl
  have rewrite : Block.RewriteAt ⟨scope, placed scope (e :: j :: post)⟩ 1 _ :=
    .advance token' exit kind (by simp [Block.followsNext, isPlain_placed, step, Token.isIteratorNext])
  have front : Block.rewriteAt? ⟨scope, placed scope (e :: j :: post)⟩ 0 = none :=
    Block.rewriteAt?_zero_of_dormant orderly.ascending_placed
      (.still (by simp [isPlain_placed, step, Token.isBranch]))
  have first := Block.firstRewrite?_of_second front rewrite.rewriteAt?_eq
  rw [show e :: j :: post = [e, j] ++ post from rfl] at *
  rw [recovered_of_rewrite orderly.ascending_placed first rfl rfl]
  rfl

end Listing

end FlowRecovery
