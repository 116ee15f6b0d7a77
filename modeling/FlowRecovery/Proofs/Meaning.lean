import FlowRecovery.Proofs.Gotos
import FlowRecovery.Proofs.Machine

/-!
# Structuring preserves meaning

If no jump is left anywhere in what structuring makes of a body of ordinary instructions, returns and
jumps, then the structured body does what the listing does (`observed_structured`): whatever the
outcomes of the tests, the same tests, instructions and returns are observed in the same order.

`Matches` says what the statements have to do with the instructions that they were made of: where a
test leads that fails, and that a loop goes back to its test. `Recovers.matches` finds this in what
is left of code if no jump is left in it, and `Matches.alike` is the simulation. It goes by induction
on the statements, and for a loop by induction on the number of answers that are still to come.
-/

namespace FlowRecovery

namespace Listing

/-! ### Machines that are observed alike -/

/-- With up to `n` answers to come, the same is observed of the instructions ahead in a listing and
of the tasks in a structured body. -/
def Alike (l : Listing) (n : Nat) (ahead : Listing) (tasks : List Task) : Prop :=
  ∀ answers : List Bool, answers.length ≤ n →
    ∃ o, Runs l.step ahead answers o ∧ Runs Task.step tasks answers o

variable {l ahead ahead' : Listing} {tasks tasks' : List Task} {n : Nat}

namespace Alike

theorem mono (h : Alike l n ahead tasks) {m : Nat} (hmn : m ≤ n) : Alike l m ahead tasks :=
  fun answers hlen => h answers (Nat.le_trans hlen hmn)

theorem stop (hs : l.step ahead = .stop) (ht : Task.step tasks = .stop) : Alike l n ahead tasks :=
  fun _ _ => ⟨_, .stop hs, .stop ht⟩

theorem goLeft (hs : l.step ahead = .go ahead') (h : Alike l n ahead' tasks) :
    Alike l n ahead tasks := by
  intro answers hlen
  obtain ⟨o, hl, hr⟩ := h answers hlen
  exact ⟨o, .go hs hl, hr⟩

theorem goRight (ht : Task.step tasks = .go tasks') (h : Alike l n ahead tasks') :
    Alike l n ahead tasks := by
  intro answers hlen
  obtain ⟨o, hl, hr⟩ := h answers hlen
  exact ⟨o, hl, .go ht hr⟩

theorem emit {event : Event} (hs : l.step ahead = .emit event ahead')
    (ht : Task.step tasks = .emit event tasks') (h : Alike l n ahead' tasks') :
    Alike l n ahead tasks := by
  intro answers hlen
  obtain ⟨o, hl, hr⟩ := h answers hlen
  exact ⟨_, .emit hs hl, .emit ht hr⟩

/-- A test uses up an answer. -/
theorem ask {event : Event} {yes no : Listing} {yes' no' : List Task}
    (hs : l.step ahead = .ask event yes no) (ht : Task.step tasks = .ask event yes' no')
    (hyes : ∀ m < n, Alike l m yes yes') (hno : ∀ m < n, Alike l m no no') :
    Alike l n ahead tasks := by
  intro answers hlen
  cases answers with
  | nil => exact ⟨_, .wait hs, .wait ht⟩
  | cons answer answers =>
    have h : Alike l answers.length (if answer then yes else no) (if answer then yes' else no') := by
      cases answer
      · exact hno _ hlen
      · exact hyes _ hlen
    obtain ⟨o, hl, hr⟩ := h answers (Nat.le_refl _)
    exact ⟨_, .ask hs hl, .ask ht hr⟩

end Alike

/-! ### What statements have to do with instructions -/

/-- Within a scope, the statements were made of a run of instructions with `rest` behind it. -/
inductive Matches (l : Listing) : Scope → Listing → Listing → List Statement → Prop where
  /-- Nothing of nothing. -/
  | nil {scope : Scope} {rest : Listing} : Matches l scope [] rest []
  /-- An instruction that is no jump. -/
  | ordinary {scope : Scope} {e : Entry} {run rest : Listing} {t : List Statement}
      (jumpless : e.token.isJump = false) :
      Matches l scope run rest t → Matches l scope (e :: run) rest (e.placed scope :: t)
  /-- A jump out of a loop. -/
  | leave {scope : Scope} {e : Entry} {run rest : Listing} {t : List Statement} {target : Offset}
      {frame : Frame} (token : e.token = .jump target) (exit : scope.loopExit? target = some frame) :
      Matches l scope run rest t →
      Matches l scope (e :: run) rest (.escape e.offset scope .leave (.jump target) :: t)
  /-- A conditional; if its test fails, control goes on behind its code. -/
  | conditional {scope inner : Scope} {e : Entry} {body post rest : Listing}
      {children t : List Statement} {condition : Token} {target stop : Offset} {frame : Frame}
      (token : e.token = .jumpIfNot condition target) (leads : l.startingAt target = post ++ rest)
      (kind : frame.kind.isLoop = false) :
      Matches l (frame :: scope) body (post ++ rest) children → Matches l scope post rest t →
      Matches l scope (e :: body ++ post) rest
        (.composite e.offset scope (.ifHead condition) stop inner children :: t)
  /-- A conditional with a second branch, to which control goes if the test fails. The jump behind
  the first branch leads over the second one. -/
  | alternative {scope inner inner' : Scope} {e j : Entry} {body other post rest : Listing}
      {children others t : List Statement} {condition : Token} {target across start stop stop' : Offset}
      {frame frame' : Frame} (token : e.token = .jumpIfNot condition target)
      (leads : l.startingAt target = other ++ (post ++ rest)) (jump : j.token = .jump across)
      (leads' : l.startingAt across = post ++ rest) (kind : frame.kind.isLoop = false)
      (kind' : frame'.kind.isLoop = false) :
      Matches l (frame :: scope) body (j :: (other ++ (post ++ rest))) children →
      Matches l (frame' :: scope) other (post ++ rest) others → Matches l scope post rest t →
      Matches l scope (e :: body ++ [j] ++ other ++ post) rest
        (.composite e.offset scope (.ifHead condition) stop inner children ::
          .composite start scope .elseHead stop' inner' others :: t)
  /-- A conditional loop; the jump behind its body goes back to the test. -/
  | loop {scope inner : Scope} {e j : Entry} {body post rest : Listing}
      {children t : List Statement} {condition : Token} {target : Offset} {frame : Frame}
      (token : e.token = .jumpIfNot condition target) (leads : l.startingAt target = post ++ rest)
      (back : j.token = .jump e.offset)
      (again : l.startingAt e.offset = e :: (body ++ j :: (post ++ rest)))
      (kind : frame.kind.isLoop = true) (stop : frame.stop = target) :
      Matches l (frame :: scope) body (j :: (post ++ rest)) children → Matches l scope post rest t →
      Matches l scope (e :: (body ++ [j]) ++ post) rest
        (.composite e.offset scope (.whileHead condition) target inner children :: t)

/-- A second branch follows only the first one. -/
theorem Matches.secondBranch {scope : Scope} {run rest : Listing} {t : List Statement}
    (h : Matches l scope run rest t) : Task.secondBranch t = ([], t) := by
  cases h <;> rfl

/-- What a listing does at an instruction that is no jump. -/
theorem step_of_jumpless {e : Entry} (h : e.token.isJump = false) (rest : Listing) :
    l.step (e :: rest) =
      .emit (.executed e.offset e.token) (if e.token.isReturn then [] else rest) := by
  cases ht : e.token with
  | jumpIfNot | jump => rw [ht] at h; cases h
  | _ => simp only [step, ht]

theorem step_of_jump {e : Entry} {target : Offset} (h : e.token = .jump target) (rest : Listing) :
    l.step (e :: rest) = .go (l.startingAt target) := by
  simp only [step, h]

theorem step_of_jumpIfNot {e : Entry} {condition : Token} {target : Offset}
    (h : e.token = .jumpIfNot condition target) (rest : Listing) :
    l.step (e :: rest) = .ask (.tested e.offset condition) rest (l.startingAt target) := by
  simp only [step, h]

/-- After leaving a loop around `scope`, what is ahead in the listing and in the structured body is
observed alike. -/
def ExitsAlike (l : Listing) (scope : Scope) (n : Nat) (tasks : List Task) : Prop :=
  ∀ target frame, scope.loopExit? target = some frame →
    Alike l n (l.startingAt target) (Task.unwind target tasks)

theorem ExitsAlike.mono {scope : Scope} (h : ExitsAlike l scope n tasks) {m : Nat} (hmn : m ≤ n) :
    ExitsAlike l scope m tasks :=
  fun target frame exit => (h target frame exit).mono hmn

/-- A branch is left with the statements behind it. -/
theorem ExitsAlike.branch {scope : Scope} {frame : Frame} {t : List Statement}
    (h : ExitsAlike l scope n tasks) (kind : frame.kind.isLoop = false) :
    ExitsAlike l (frame :: scope) n (.run t :: tasks) := by
  intro target f exit
  rw [Scope.loopExit?_branch kind] at exit
  exact h target f exit

/-- A loop is left to what is behind it. -/
theorem ExitsAlike.loop {scope : Scope} {frame : Frame} {start : Offset} {condition : Token}
    {body t : List Statement} (h : ExitsAlike l scope n tasks) (kind : frame.kind.isLoop = true)
    (after : Alike l n (l.startingAt frame.stop) (.run t :: tasks)) :
    ExitsAlike l (frame :: scope) n
      (.again start condition frame.stop body :: .run t :: tasks) := by
  intro target f exit
  by_cases hstop : frame.stop = target
  · rw [Task.unwind, if_pos hstop, ← hstop]
    exact after
  · rw [Task.unwind, if_neg hstop]
    rw [Scope.loopExit?, List.find?_cons_of_neg (by simp [kind, hstop])] at exit
    exact h target f exit

/-- **The simulation.** Instructions and the statements that were made of them are observed alike, if
what is behind them is, and what loops around them are left to. -/
theorem Matches.alike {scope : Scope} {run rest : Listing} {t : List Statement}
    (h : Matches l scope run rest t) (behind : Alike l n rest tasks)
    (exits : ExitsAlike l scope n tasks) : Alike l n (run ++ rest) (.run t :: tasks) := by
  induction h generalizing n tasks with
  | nil => exact .goRight rfl behind
  | @ordinary scope e run rest t jumpless _ ih =>
    have ht : Task.step (.run (e.placed scope :: t) :: tasks) = .emit (.executed e.offset e.token)
        (if e.token.isReturn then [] else .run t :: tasks) := by
      simp only [Entry.placed, Task.step, jumpless, Bool.false_eq_true, if_false]
    refine .emit (step_of_jumpless jumpless _) ht ?_
    cases e.token.isReturn
    · exact ih behind exits
    · exact .stop rfl rfl
  | leave token exit _ ih =>
    exact .goLeft (step_of_jump token _) (.goRight rfl (exits _ _ exit))
  | @conditional scope inner e body post rest children t condition target stop frame token leads kind
      _ hpost ihb ih =>
    have after := ih behind exits
    have ht : Task.step (.run (.composite e.offset scope (.ifHead condition) stop inner children :: t)
        :: tasks) = .ask (.tested e.offset condition) (.run children :: .run t :: tasks)
          (.run [] :: .run t :: tasks) := by
      simp only [Task.step, hpost.secondBranch]
    rw [List.append_assoc]
    refine .ask (step_of_jumpIfNot token _) ht (fun m hm => ?_) fun m hm => ?_
    · exact ihb (after.mono (Nat.le_of_lt hm)) ((exits.mono (Nat.le_of_lt hm)).branch kind)
    · exact leads ▸ .goRight rfl (after.mono (Nat.le_of_lt hm))
  | @alternative scope inner inner' e j body other post rest children others t condition target across
      start stop stop' frame frame' token leads jump leads' kind kind' _ _ _ ihb iho ih =>
    have after := ih behind exits
    have hl : e :: body ++ [j] ++ other ++ post ++ rest =
        e :: (body ++ j :: (other ++ (post ++ rest))) := by simp
    rw [hl]
    refine .ask (step_of_jumpIfNot token _) rfl (fun m hm => ?_) fun m hm => ?_
    · refine ihb (.goLeft (step_of_jump jump _) ?_) ((exits.mono (Nat.le_of_lt hm)).branch kind)
      exact leads' ▸ after.mono (Nat.le_of_lt hm)
    · exact leads ▸ iho (after.mono (Nat.le_of_lt hm)) ((exits.mono (Nat.le_of_lt hm)).branch kind')
  | @loop scope inner e j body post rest children t condition target frame token leads back again kind
      stop _ _ ihb ih =>
    subst stop
    have after : Alike l n (l.startingAt frame.stop) (.run t :: tasks) := leads ▸ ih behind exits
    have hl : e :: (body ++ [j]) ++ post ++ rest = e :: (body ++ j :: (post ++ rest)) := by simp
    rw [hl]
    refine .goRight rfl ?_
    -- Every time round uses up an answer.
    induction n using Nat.strongRecOn with
    | ind n round =>
      refine .ask (step_of_jumpIfNot token _) rfl (fun m hm => ?_) fun m hm =>
        after.mono (Nat.le_of_lt hm)
      have after' := after.mono (Nat.le_of_lt hm)
      refine ihb (.goLeft (step_of_jump back _) ?_) ((exits.mono (Nat.le_of_lt hm)).loop kind after')
      rw [again]
      exact round m hm (behind.mono (Nat.le_of_lt hm)) (exits.mono (Nat.le_of_lt hm)) after'

/-! ### Where control goes -/

theorem startingAt_of_eq {pre rest : Listing} {e : Entry} (orderly : Orderly l)
    (hl : l = pre ++ e :: rest) : l.startingAt e.offset = e :: rest := by
  subst hl
  rw [startingAt, List.dropWhile_append_of_pos, List.dropWhile_cons_of_neg]
  · simp
  · intro x hx
    have := orderly.lt_of_append hx (List.mem_cons_self ..)
    simpa using Fin.ne_of_lt this

theorem startingAt_of_lt {o : Offset} (h : ∀ x ∈ l, x.offset < o) : l.startingAt o = [] := by
  have hne : ∀ x ∈ l, (x.offset != o) = true := fun x hx => by simpa using Fin.ne_of_lt (h x hx)
  have h : (l ++ []).startingAt o = [] := List.dropWhile_append_of_pos hne
  rwa [List.append_nil] at h

/-- Control goes on at `rest` behind code within `scope`. -/
def GoesOn (l : Listing) : Scope → Listing → Prop
  | [], rest => rest = []
  | frame :: _, rest => l.startingAt frame.stop = rest

/-- A jump that leads behind some code goes to what is behind it. -/
theorem startingAt_of_leads {scope : Scope} {target : Offset} {pre front behind rest : Listing}
    (orderly : Orderly l) (hl : l = pre ++ (front ++ behind ++ rest)) (hfront : front ≠ [])
    (leads : Leads scope target front behind) (goesOn : behind = [] → GoesOn l scope rest) :
    l.startingAt target = behind ++ rest := by
  cases behind with
  | nil =>
    cases scope with
    | nil =>
      obtain rfl : rest = [] := goesOn rfl
      refine startingAt_of_lt fun x hx => ?_
      rw [List.append_nil, List.append_nil] at hl
      subst hl
      rcases List.mem_append.1 hx with hpre | hx
      · obtain ⟨y, front, rfl⟩ := List.exists_cons_of_ne_nil hfront
        exact Fin.lt_trans (orderly.lt_of_append hpre (List.mem_cons_self ..))
          (leads.before y (List.mem_cons_self ..))
      · exact leads.before x hx
    | cons frame scope =>
      rw [← leads.past rfl frame rfl]
      exact goesOn rfl
  | cons e behind =>
    obtain rfl := leads.here e rfl
    have hl : l = pre ++ front ++ e :: (behind ++ rest) := by simpa using hl
    exact startingAt_of_eq orderly hl

/-- A jump that leads behind some code with `post` and `tail` behind it. -/
theorem startingAt_of_leads_append {scope : Scope} {target : Offset}
    {pre front post tail rest : Listing} (orderly : Orderly l)
    (hl : l = pre ++ (front ++ (post ++ tail) ++ rest)) (hfront : front ≠ [])
    (leads : Leads scope target front (post ++ tail)) (goesOn : tail = [] → GoesOn l scope rest) :
    l.startingAt target = post ++ (tail ++ rest) := by
  rw [startingAt_of_leads orderly hl hfront leads fun hnil =>
    goesOn (List.append_eq_nil_iff.1 hnil).2, List.append_assoc]

/-! ### What is left of code without a jump left in it -/

theorem split_tail {α : Type} {front behind run tail : List α} (h : front ++ behind = run ++ tail)
    (htail : tail.length ≤ 1) (hbehind : behind = [] → tail = []) :
    ∃ m, run = front ++ m ∧ behind = m ++ tail := by
  rcases List.append_eq_append_iff.1 h with ⟨m, rfl, rfl⟩ | ⟨m, rfl, rfl⟩
  · exact ⟨m, rfl, rfl⟩
  · cases m with
    | nil => exact ⟨[], by simp, by simp⟩
    | cons x m =>
      simp only [List.cons_append, List.length_cons, List.length_append] at htail
      obtain rfl : behind = [] := List.length_eq_zero_iff.1 (by omega)
      cases hbehind rfl

/-- A composite statement at the end is no instruction. -/
theorem tail_eq_nil {scope : Scope} {front t : List Statement} {c : Statement} {tail : Listing}
    (h : front ++ [c] = t ++ placed scope tail) (hc : c.token? = none) : tail = [] := by
  rcases List.eq_nil_or_concat tail with rfl | ⟨rest, x, rfl⟩
  · rfl
  · rw [List.concat_eq_append, placed_append, ← List.append_assoc] at h
    obtain ⟨-, hx⟩ := List.append_inj' h rfl
    cases hx
    cases hc

theorem Recovers.ne_nil {scope : Scope} {t : List Statement} (h : Recovers scope l t)
    (hl : l ≠ []) : t ≠ [] := by
  cases h with
  | nil => exact absurd rfl hl
  | _ => exact List.cons_ne_nil _ _

/-- A shape in front of code does not reach into what is behind the code. -/
theorem Recovers.split {scope : Scope} {post run tail : Listing} {t u : List Statement}
    {c : Statement} (h : Recovers scope post u) (front : Listing) (made : List Statement)
    (hrun : front ++ post = run ++ tail) (ht : made ++ [c] ++ u = t ++ placed scope tail)
    (hc : c.token? = none) (htail : tail.length ≤ 1) :
    ∃ post' u', run = front ++ post' ∧ post = post' ++ tail ∧ t = made ++ [c] ++ u' ∧
      u = u' ++ placed scope tail := by
  have hnil : u = [] → tail = [] := by
    rintro rfl
    exact tail_eq_nil (by simpa using ht) hc
  obtain ⟨post', hrun, hpost⟩ := split_tail hrun htail fun hpost => by
    subst hpost
    cases h
    exact hnil rfl
  obtain ⟨u', ht, hu⟩ := split_tail ht (by simpa using htail) fun hu => by simp [hnil hu]
  exact ⟨post', u', hrun, hpost, ht, hu⟩

theorem anyOf_composite {start stop : Offset} {scope inner : Scope} {head : Head}
    {children t : List Statement}
    (h : Statement.anyOf Statement.isRawJump
      (.composite start scope head stop inner children :: t) = false) :
    Statement.anyOf Statement.isRawJump children = false ∧
      Statement.anyOf Statement.isRawJump t = false := by
  simpa [Statement.anyOf, Statement.any, Statement.isRawJump, Statement.isPlain,
    Statement.token?] using h

/-- If no jump is left in the body of a loop without its last statement, the last statement is the
jump back. -/
theorem Recovers.ends_back {inner : Scope} {body : Listing} {j : Entry} {start : Offset}
    {children : List Statement} (h : Recovers inner (body ++ [j]) children)
    (back : j.token = .jump start) (exit : inner.loopExit? start = none)
    (below : ∀ x ∈ body ++ [j], start < x.offset)
    (complete : Statement.anyOf Statement.isRawJump
      ((Block.mk inner children).trimLast (Token.isJumpTo start)).statements = false) :
    ∃ kept, children = kept ++ [j.placed inner] ∧
      ((Block.mk inner children).trimLast (Token.isJumpTo start)).statements = kept := by
  rcases h.stuck List.getLast?_concat back exit below with hlast | ⟨s, hlast, hs, hraw⟩
  · obtain ⟨kept, rfl⟩ := List.getLast?_eq_some_iff.1 hlast
    have hback : (j.placed inner).isPlain (Token.isJumpTo start) = true := by
      simp [isPlain_placed, back, Token.isJumpTo, Token.jumpTarget?]
    exact ⟨kept, rfl, by rw [Block.trimLast_concat hback]⟩
  · -- The jump back has come into a composite statement and is left there.
    rw [Block.trimLast, Block.endsWith, Block.last?, hlast, Option.any_some, Statement.isPlain, hs,
      Option.any_none, if_neg Bool.false_ne_true, Statement.anyOf_eq_any] at complete
    exact absurd hraw (by simpa using List.any_eq_false.1 complete s (List.mem_of_getLast? hlast))

/-- Statements in which no jump is left match the code in front of `tail`, if what is left of all the
code are they and `tail`, which is empty or the jump back at the end of the body of a loop. -/
theorem Recovers.matches {scope : Scope} {code : Listing} {left : List Statement}
    (orderly : Orderly l) (h : Recovers scope code left) {pre run tail rest : Listing}
    {t : List Statement} (hl : l = pre ++ (code ++ rest)) (hcode : code = run ++ tail)
    (hleft : left = t ++ placed scope tail) (htail : tail.length ≤ 1)
    (complete : Statement.anyOf Statement.isRawJump t = false)
    (goesOn : tail = [] → GoesOn l scope rest) : Matches l scope run (tail ++ rest) t := by
  induction h generalizing pre run tail rest t with
  | nil =>
    obtain ⟨rfl, rfl⟩ := List.append_eq_nil_iff.1 hcode.symm
    obtain ⟨rfl, -⟩ := List.append_eq_nil_iff.1 hleft.symm
    exact .nil
  | @stays scope e code left h ih =>
    cases run with
    | nil =>
      obtain rfl : e :: code = tail := hcode
      obtain rfl : code = [] := List.length_eq_zero_iff.1 (by simpa using htail)
      cases h
      obtain rfl : t = [] := by simpa using congrArg List.length hleft
      exact .nil
    | cons x run =>
      obtain ⟨rfl, hrun⟩ := List.cons.inj hcode
      cases t with
      | nil =>
        have hlen := congrArg List.length hleft
        simp only [List.length_cons, List.nil_append, length_placed] at hlen
        obtain rfl : left = [] := List.length_eq_zero_iff.1 (by omega)
        refine absurd rfl (h.ne_nil fun hnil => ?_)
        obtain ⟨-, rfl⟩ := List.append_eq_nil_iff.1 (hrun.symm.trans hnil)
        simp at hlen
      | cons s t =>
        obtain ⟨rfl, hrest⟩ := List.cons.inj hleft
        simp only [Statement.anyOf, Bool.or_eq_false_iff] at complete
        have hl' : l = pre ++ [e] ++ (code ++ rest) := by simp [hl]
        exact .ordinary complete.1 (ih hl' hrun hrest htail complete.2 goesOn)
  | @leave scope e code left target frame token exit h ih =>
    obtain ⟨code', left', rfl, rfl, rfl, rfl⟩ := h.split [e] [] hcode hleft rfl htail
    have hl' : l = pre ++ [e] ++ (code' ++ tail ++ rest) := by simp [hl]
    exact .leave token exit (ih hl' rfl rfl htail complete goesOn)
  | @conditional scope e body post children left condition target token leads _ hpost ihb ih =>
    obtain ⟨post', left', rfl, rfl, rfl, rfl⟩ := hpost.split (e :: body) [] hcode hleft rfl htail
    obtain ⟨complete, completeRest⟩ := anyOf_composite complete
    have goesTo := startingAt_of_leads_append orderly hl (List.cons_ne_nil _ _) leads goesOn
    have hlBody : l = pre ++ [e] ++ (body ++ (post' ++ (tail ++ rest))) := by simp [hl]
    have hlPost : l = pre ++ e :: body ++ (post' ++ tail ++ rest) := by simp [hl]
    have inner := ihb hlBody (List.append_nil _).symm (List.append_nil _).symm (Nat.zero_le _) complete
      fun _ => goesTo
    exact .conditional token goesTo rfl inner (ih hlPost rfl rfl htail completeRest goesOn)
  | @loop scope e j body post children left condition target token leads back exit hbody hpost ihb ih =>
    obtain ⟨post', left', rfl, rfl, rfl, rfl⟩ :=
      hpost.split (e :: (body ++ [j])) [] hcode hleft rfl htail
    obtain ⟨complete, completeRest⟩ := anyOf_composite complete
    have goesTo := startingAt_of_leads_append orderly hl (List.cons_ne_nil _ _) leads goesOn
    have hlBody : l = pre ++ [e] ++ (body ++ [j] ++ (post' ++ (tail ++ rest))) := by simp [hl]
    have hlPost : l = pre ++ e :: (body ++ [j]) ++ (post' ++ tail ++ rest) := by simp [hl]
    have again : l.startingAt e.offset = e :: (body ++ j :: (post' ++ (tail ++ rest))) :=
      startingAt_of_eq orderly (by simpa using hl)
    have below : ∀ x ∈ body ++ [j], e.offset < x.offset := by
      intro x hx
      have : Orderly (e :: (body ++ [j])) := by
        rw [hl] at orderly
        exact orderly.right.left.left
      exact this.lt hx
    obtain ⟨kept, rfl, hkept⟩ := hbody.ends_back back exit below complete
    rw [hkept] at complete ⊢
    have inner := ihb hlBody rfl rfl (Nat.le_refl _) complete fun hnil => by cases hnil
    exact .loop token goesTo back again rfl rfl inner (ih hlPost rfl rfl htail completeRest goesOn)
  | @alternative scope e j o body other post children others left condition target stop token leads across
      first leads' _ _ hpost ihb iho ih =>
    obtain ⟨post', left', rfl, rfl, rfl, rfl⟩ :=
      hpost.split (e :: body ++ [j] ++ other)
        [.composite e.offset scope (.ifHead condition) j.offset
          (⟨.ifBlock, e.offset, j.offset⟩ :: scope) children] hcode hleft rfl htail
    obtain ⟨complete, completeRest⟩ := anyOf_composite complete
    obtain ⟨completeOther, completeRest⟩ := anyOf_composite completeRest
    have goesOver := startingAt_of_leads_append orderly hl (List.cons_ne_nil _ _) leads' goesOn
    have goesTo : l.startingAt target = other ++ (post' ++ (tail ++ rest)) := by
      obtain ⟨others, rfl⟩ := List.head?_eq_some_iff.1 first
      have hl' : l = pre ++ (e :: body ++ [j] ++ (o :: others ++ (post' ++ tail)) ++ rest) := by
        simp [hl]
      rw [startingAt_of_leads orderly hl' (by simp) leads fun hnil => by cases hnil]
      simp
    have hlJump : l = pre ++ e :: body ++ j :: (other ++ (post' ++ (tail ++ rest))) := by simp [hl]
    have goesJump := startingAt_of_eq orderly hlJump
    have hlBody : l = pre ++ [e] ++ (body ++ j :: (other ++ (post' ++ (tail ++ rest)))) := by
      simp [hl]
    have hlOther : l = pre ++ e :: body ++ [j] ++ (other ++ (post' ++ (tail ++ rest))) := by simp [hl]
    have hlPost : l = pre ++ e :: body ++ [j] ++ other ++ (post' ++ tail ++ rest) := by simp [hl]
    have inner := ihb hlBody (List.append_nil _).symm (List.append_nil _).symm (Nat.zero_le _) complete
      fun _ => goesJump
    have innerOther := iho hlOther (List.append_nil _).symm (List.append_nil _).symm (Nat.zero_le _)
      completeOther fun _ => goesOver
    exact .alternative token goesTo across goesOver rfl rfl inner innerOther
      (ih hlPost rfl rfl htail completeRest goesOn)

/-! ### Meaning -/

/-- **Structuring preserves meaning.** The listing has increasing offsets and no iterations and
selections, and every conditional jump leads to one of its instructions or behind all of them. If no
jump is left when it is structured, then with the same answers the same is observed of the listing
and of what it is structured to. -/
theorem observed_structured (l : Listing) (ascending : (l.map Entry.offset).Pairwise (· < ·))
    (isGoto : ∀ e ∈ l, e.token.isGoto = true)
    (addressed : ∀ e ∈ l, ∀ condition target, e.token = .jumpIfNot condition target →
      (∃ x ∈ l, x.offset = target) ∨ ∀ x ∈ l, x.offset < target)
    (complete : l.block.structured.value.hasRawJumps = false) (answers : List Bool) :
    ∃ o, (∀ o', Runs l.step l answers o' ↔ o' = o) ∧
      ∀ o', Runs Task.step [.run l.block.structured.value.statements] answers o' ↔ o' = o := by
  have gotos : Gotos [] l := ⟨ascending, isGoto, nofun, fun _ e he condition target token =>
    (addressed e he condition target token).imp_right .inl⟩
  have matched : Matches l [] l ([] ++ []) (recovered [] l) :=
    (recovers gotos).matches gotos.orderly (show l = [] ++ (l ++ []) by simp)
      (List.append_nil l).symm (List.append_nil _).symm (Nat.zero_le _) complete fun _ => rfl
  have exits : ExitsAlike l [] answers.length [] := fun _ _ exit => by cases exit
  have alike : Alike l answers.length (l ++ []) _ := matched.alike (.stop rfl rfl) exits
  rw [List.append_nil l] at alike
  obtain ⟨o, hl, ht⟩ := alike answers (Nat.le_refl _)
  exact ⟨o, fun o' => ⟨fun h => h.unique hl, fun h => h ▸ hl⟩,
    fun o' => ⟨fun h => h.unique ht, fun h => h ▸ ht⟩⟩

/-- A loop that is left in its body. -/
def searchLoop : Listing :=
  [⟨0, none, .jumpIfNot (.expression "more") 50⟩, ⟨10, none, .jumpIfNot (.expression "found") 30⟩,
    ⟨20, none, .jump 50⟩, ⟨30, none, .expression "advance"⟩, ⟨40, none, .jump 0⟩,
    ⟨50, none, .ret⟩]

theorem observed_structured_searchLoop :
    (searchLoop.map Entry.offset).Pairwise (· < ·) ∧ (∀ e ∈ searchLoop, e.token.isGoto = true) ∧
      (∀ e ∈ searchLoop, ∀ condition target, e.token = .jumpIfNot condition target →
        (∃ x ∈ searchLoop, x.offset = target) ∨ ∀ x ∈ searchLoop, x.offset < target) ∧
      searchLoop.block.structured.value.hasRawJumps = false ∧
      ∃ o, (∀ o', Runs searchLoop.step searchLoop [true, false, true, true] o' ↔ o' = o) ∧
        ∀ o', Runs Task.step [.run searchLoop.block.structured.value.statements]
          [true, false, true, true] o' ↔ o' = o := by
  have ascending : (searchLoop.map Entry.offset).Pairwise (· < ·) := by decide
  have isGoto : ∀ e ∈ searchLoop, e.token.isGoto = true := by decide
  have addressed : ∀ e ∈ searchLoop, ∀ condition target, e.token = .jumpIfNot condition target →
      (∃ x ∈ searchLoop, x.offset = target) ∨ ∀ x ∈ searchLoop, x.offset < target := by
    intro e he condition target token
    simp only [searchLoop, List.mem_cons, List.not_mem_nil, or_false] at he
    rcases he with rfl | rfl | rfl | rfl | rfl | rfl <;> cases token <;> decide
  have complete : searchLoop.block.structured.value.hasRawJumps = false := rfl
  exact ⟨ascending, isGoto, addressed, complete,
    observed_structured searchLoop ascending isGoto addressed complete _⟩

end Listing

end FlowRecovery
