import FlowRecovery.Inspection
import FlowRecovery.Proofs.Equations
import FlowRecovery.Proofs.Source

/-!
# Recovery undoes compilation

Structuring the code of a structured program gives back the program (`structured_listing`): the tree
of statements that the program stands for, at the offsets of the code, wherever it lies, and
without a jump or an instruction of an iterator left in it.

The proof is by induction on the program, for code within any scope and with more code behind it
(`recovered_code`), with one lemma for each construct, which says what is left of it when it is known
what is left of its body. What they need to know of the surroundings is `Meets`: where the code behind
starts, where control goes on if there is none, and that the loops around exit further on.
-/

namespace FlowRecovery

namespace Placement

variable {lay : Placement}

@[simp] theorem offset_entry (k : Nat) (t : Token) : (lay.entry k t).offset = lay.start k := rfl

/-- Later instructions start at later offsets, up to the one behind instruction `n`. -/
def Rises (lay : Placement) (n : Nat) : Prop := ∀ i j, i < j → j ≤ n → lay.start i < lay.start j

theorem Rises.mono {m n : Nat} (h : lay.Rises n) (hmn : m ≤ n) : lay.Rises m :=
  fun i j hij hj => h i j hij (Nat.le_trans hj hmn)

theorem Rises.le {n i j : Nat} (h : lay.Rises n) (hij : i ≤ j) (hj : j ≤ n) :
    lay.start i ≤ lay.start j := by
  rcases Nat.lt_or_eq_of_le hij with hlt | rfl
  · exact Fin.le_of_lt (h i j hlt hj)
  · exact Fin.le_refl _

theorem place_lt_place {n : Nat} (pos : ∀ k < n, 0 < lay.width k) :
    ∀ {i j : Nat}, i < j → j ≤ n → lay.place i < lay.place j
  | i, j + 1, hij, hj => by
    have hw := pos j hj
    rw [place]
    rcases Nat.lt_or_eq_of_le (Nat.le_of_lt_succ hij) with hlt | rfl
    · have := place_lt_place pos hlt (Nat.le_of_succ_le hj)
      omega
    · omega

namespace Suits

variable {p : Program}

theorem val_start (h : lay.Suits p) {k : Nat} (hk : k ≤ p.size 0) :
    (lay.start k).val = lay.place k := by
  have hle : lay.place k ≤ lay.place (p.size 0) := by
    rcases Nat.lt_or_eq_of_le hk with hlt | rfl
    · exact Nat.le_of_lt (place_lt_place h.width_pos hlt (Nat.le_refl _))
    · exact Nat.le_refl _
  exact Nat.mod_eq_of_lt (Nat.lt_of_le_of_lt hle h.place_lt)

theorem rises (h : lay.Suits p) : lay.Rises (p.size 0) := by
  intro i j hij hj
  rw [Fin.lt_def, h.val_start hj, h.val_start (by omega)]
  exact place_lt_place h.width_pos hij hj

/-- The end of an iteration is the byte before the next instruction. -/
theorem next?_start (h : lay.Suits p) {k : Nat} (hk : k ∈ p.closings 0 0) (hlt : k < p.size 0) :
    Offset.next? (lay.start k) = some (lay.start (k + 1)) := by
  have hval := h.val_start (k := k + 1) hlt
  have hnext : (lay.start (k + 1)).val = (lay.start k).val + 1 := by
    rw [hval, h.val_start (Nat.le_of_lt hlt), place, h.width_closing k hk]
  have hbound := (lay.start (k + 1)).isLt
  rw [Offset.next?, dif_pos (by omega)]
  exact congrArg some (Fin.ext hnext.symm)

end Suits

end Placement

namespace Program

variable {lay : Placement}

/-! ### The offsets of the code -/

theorem map_offset_pops (k count : Nat) :
    (lay.pops k count).map Entry.offset = (List.range' k count).map lay.start := by
  simp [Placement.pops, Placement.entry, Function.comp_def]

/-- The code of a program takes one instruction after the other. -/
theorem map_offset_code (lay : Placement) (p : Program) (exit depth k : Nat) :
    (p.code lay exit depth k).map Entry.offset = (List.range' k (p.size depth)).map lay.start := by
  induction p generalizing exit depth k with
  | done => rfl
  | expression text rest ih | leave rest ih =>
    rw [size, ← List.range'_append_1]
    simp [code, ih, Placement.entry]
  | ret value? rest ih =>
    rw [size, ← List.range'_append_1, ← List.range'_append_1]
    simp [code, ih, map_offset_pops, Placement.entry, Nat.add_assoc]
  | ifThen condition body rest ihb ih =>
    rw [size, ← List.range'_append_1, ← List.range'_append_1]
    simp [code, ihb, ih, Placement.entry, Nat.add_assoc]
  | ifElse condition body other rest ihb iho ih =>
    rw [size, ← List.range'_append_1, ← List.range'_append_1, ← List.range'_append_1,
      ← List.range'_append_1]
    simp [code, ihb, iho, ih, Placement.entry, Nat.add_assoc]
  | whileLoop condition body rest ihb ih =>
    rw [size, ← List.range'_append_1, ← List.range'_append_1, ← List.range'_append_1]
    simp [code, ihb, ih, Placement.entry, Nat.add_assoc]
  | foreachLoop collection iterator? body rest ihb ih =>
    rw [size, ← List.range'_append_1, ← List.range'_append_1, ← List.range'_append_1]
    simp [code, ihb, ih, Placement.entry, Nat.add_assoc, List.range'_succ]
  | advance rest ih =>
    rw [size, ← List.range'_append_1]
    simp [code, ih, Placement.entry, List.range'_succ]

theorem length_code (lay : Placement) (p : Program) (exit depth k : Nat) :
    (p.code lay exit depth k).length = p.size depth := by
  simpa using congrArg List.length (map_offset_code lay p exit depth k)

theorem exists_of_mem_code {p : Program} {exit depth k : Nat} {x : Entry}
    (hx : x ∈ p.code lay exit depth k) :
    ∃ i, k ≤ i ∧ i < k + p.size depth ∧ x.offset = lay.start i := by
  have := List.mem_map_of_mem (f := Entry.offset) hx
  rw [map_offset_code] at this
  obtain ⟨i, hi, heq⟩ := List.mem_map.1 this
  obtain ⟨hki, hlt⟩ := List.mem_range'_1.1 hi
  exact ⟨i, hki, hlt, heq.symm⟩

theorem lt_of_mem_code {p : Program} {exit depth k j n : Nat} (rises : lay.Rises n)
    (hkj : k + p.size depth ≤ j) (hj : j ≤ n) {x : Entry} (hx : x ∈ p.code lay exit depth k) :
    x.offset < lay.start j := by
  obtain ⟨i, -, hi, heq⟩ := exists_of_mem_code hx
  exact heq ▸ rises i j (Nat.lt_of_lt_of_le hi hkj) hj

theorem offset_of_mem_head? {p : Program} {exit depth k : Nat} {x : Entry}
    (hx : x ∈ (p.code lay exit depth k).head?) : x.offset = lay.start k := by
  have := congrArg List.head? (map_offset_code lay p exit depth k)
  rw [List.head?_map, Option.mem_def.1 hx, List.head?_map, List.head?_range'] at this
  split at this
  · cases this
  · simpa using this

theorem size_pos {p : Program} (h : p ≠ done) (depth : Nat) : 0 < p.size depth := by
  cases p with
  | done => exact absurd rfl h
  | _ => simp only [size]; omega

/-! ### The jumps of the code -/

/-- A jump leads out of the loop around it, or to an instruction from `first` to `last`. -/
def Aims (lay : Placement) (loop? : Option BlockKind) (exit first last : Nat) (t : Token) : Prop :=
  ∀ target, t = .jump target →
    (loop? ≠ none ∧ target = lay.start exit) ∨ ∃ i, first ≤ i ∧ i ≤ last ∧ target = lay.start i

variable {loop? : Option BlockKind} {exit first last : Nat} {t : Token}

theorem Aims.mono (h : Aims lay loop? exit first last t) {first' last' : Nat} (hf : first' ≤ first)
    (hl : last ≤ last') : Aims lay loop? exit first' last' t :=
  fun target ht => (h target ht).imp_right fun ⟨i, hi, hil, heq⟩ =>
    ⟨i, Nat.le_trans hf hi, Nat.le_trans hil hl, heq⟩

/-- A jump out of an inner loop does not leave the code of the loop. -/
theorem Aims.outside {kind : Option BlockKind} {after : Nat} (h : Aims lay kind after first last t)
    {first' last' : Nat} (hf : first' ≤ first) (hl : last ≤ last') (ha : first' ≤ after)
    (hal : after ≤ last') : Aims lay loop? exit first' last' t := by
  intro target ht
  rcases h target ht with ⟨-, heq⟩ | ⟨i, hi, hil, heq⟩
  · exact .inr ⟨after, ha, hal, heq⟩
  · exact .inr ⟨i, Nat.le_trans hf hi, Nat.le_trans hil hl, heq⟩

theorem Aims.of_eq_none (h : t.jumpTarget? = none) : Aims lay loop? exit first last t := by
  rintro target rfl
  cases h

theorem Aims.to {i : Nat} (hi : first ≤ i) (hil : i ≤ last) :
    Aims lay loop? exit first last (.jump (lay.start i)) := by
  rintro _ ⟨⟩
  exact .inr ⟨i, hi, hil, rfl⟩

theorem aims_of_mem_code {p : Program} (sound : p.Sound loop?) {depth k : Nat} {x : Entry}
    (hx : x ∈ p.code lay exit depth k) :
    x.token.isSwitch = false ∧ Aims lay loop? exit k (k + p.size depth) x.token := by
  induction p generalizing loop? exit depth k with
  | done => cases hx
  | expression text rest ih =>
    simp only [code, List.mem_cons] at hx
    rcases hx with rfl | hx
    · exact ⟨rfl, .of_eq_none rfl⟩
    · exact (ih sound hx).imp_right fun h => h.mono (by omega) (by simp only [size]; omega)
  | leave rest ih =>
    simp only [code, List.mem_cons] at hx
    rcases hx with rfl | hx
    · exact ⟨rfl, by rintro _ ⟨⟩; exact .inl ⟨sound.1, rfl⟩⟩
    · exact (ih sound.2 hx).imp_right fun h => h.mono (by omega) (by simp only [size]; omega)
  | advance rest ih =>
    simp only [code, List.mem_cons] at hx
    rcases hx with rfl | rfl | hx
    · exact ⟨rfl, .of_eq_none rfl⟩
    · exact ⟨rfl, by rintro _ ⟨⟩; exact .inl ⟨by simp [sound.1], rfl⟩⟩
    · exact (ih sound.2 hx).imp_right fun h => h.mono (by omega) (by simp only [size]; omega)
  | ret value? rest ih =>
    simp only [code, List.mem_append, List.mem_cons] at hx
    rcases hx with hx | rfl | hx
    · obtain ⟨i, -, rfl⟩ := List.mem_map.1 hx
      exact ⟨rfl, .of_eq_none rfl⟩
    · cases value? <;> exact ⟨rfl, .of_eq_none rfl⟩
    · exact (ih sound hx).imp_right fun h => h.mono (by omega) (by simp only [size]; omega)
  | ifThen condition body rest ihb ih =>
    simp only [code, List.mem_append, List.mem_cons] at hx
    rcases hx with (rfl | hx) | hx
    · exact ⟨rfl, .of_eq_none rfl⟩
    · exact (ihb sound.1 hx).imp_right fun h => h.mono (by omega) (by simp only [size]; omega)
    · exact (ih sound.2 hx).imp_right fun h => h.mono (by omega) (by simp only [size]; omega)
  | ifElse condition body other rest ihb iho ih =>
    simp only [code, List.mem_append, List.mem_cons, List.not_mem_nil, or_false] at hx
    rcases hx with (((rfl | hx) | rfl) | hx) | hx
    · exact ⟨rfl, .of_eq_none rfl⟩
    · exact (ihb sound.1 hx).imp_right fun h => h.mono (by omega) (by simp only [size]; omega)
    · exact ⟨rfl, .to (by omega) (by simp only [size]; omega)⟩
    · exact (iho sound.2.2.1 hx).imp_right fun h => h.mono (by omega) (by simp only [size]; omega)
    · exact (ih sound.2.2.2 hx).imp_right fun h => h.mono (by omega) (by simp only [size]; omega)
  | whileLoop condition body rest ihb ih =>
    simp only [code, List.mem_append, List.mem_cons, List.not_mem_nil, or_false] at hx
    rcases hx with (rfl | hx | rfl) | hx
    · exact ⟨rfl, .of_eq_none rfl⟩
    · exact (ihb sound.1 hx).imp_right fun h =>
        h.outside (by omega) (by simp only [size]; omega) (by omega) (by simp only [size]; omega)
    · exact ⟨rfl, .to (by omega) (by omega)⟩
    · exact (ih sound.2 hx).imp_right fun h => h.mono (by omega) (by simp only [size]; omega)
  | foreachLoop collection iterator? body rest ihb ih =>
    simp only [code, List.mem_append, List.mem_cons, List.not_mem_nil, or_false] at hx
    rcases hx with (rfl | hx | rfl | rfl) | hx
    · cases iterator? <;> exact ⟨rfl, .of_eq_none rfl⟩
    · exact (ihb sound.1 hx).imp_right fun h =>
        h.outside (by omega) (by simp only [size]; omega) (by omega) (by simp only [size]; omega)
    · exact ⟨rfl, .of_eq_none rfl⟩
    · exact ⟨rfl, .of_eq_none rfl⟩
    · exact (ih sound.2 hx).imp_right fun h => h.mono (by omega) (by simp only [size]; omega)

theorem orderly_code {p : Program} (sound : p.Sound loop?) {depth k : Nat}
    (rises : lay.Rises (k + p.size depth)) : (p.code lay exit depth k).Orderly := by
  refine ⟨?_, fun x hx => (aims_of_mem_code sound hx).1⟩
  rw [map_offset_code, List.pairwise_map]
  refine List.Pairwise.imp_of_mem (fun _ hj hij => rises _ _ hij ?_) (List.pairwise_lt_range' ..)
  exact Nat.le_of_lt (List.mem_range'_1.1 hj).2

/-! ### The surroundings of the code -/

/-- Within `scope` and in front of `post`, code ends at instruction `m`. -/
structure Meets (lay : Placement) (scope : Scope) (m : Nat) (post : Listing) : Prop where
  /-- What is behind starts there. -/
  here : ∀ x ∈ post.head?, x.offset = lay.start m
  /-- If something is behind, control goes on further on behind all of it. -/
  inside : post ≠ [] → ∀ frame ∈ scope.head?, lay.start m < frame.stop
  /-- If nothing is behind, control goes on there. -/
  past : post = [] → ∀ frame ∈ scope.head?, frame.stop = lay.start m
  /-- The loops around exit further on. -/
  loops : ∀ frame ∈ scope, frame.kind.isLoop = true → lay.start m < frame.stop

variable {scope : Scope} {post : Listing} {m : Nat}

/-- The code in front of some code ends where it starts. -/
theorem Meets.code {p : Program} {depth k : Nat} (h : Meets lay scope (k + p.size depth) post)
    (rises : lay.Rises (k + p.size depth)) (exit : Nat) :
    Meets lay scope k (p.code lay exit depth k ++ post) := by
  have hle : lay.start k ≤ lay.start (k + p.size depth) :=
    rises.le (Nat.le_add_right _ _) (Nat.le_refl _)
  by_cases hp : p = done
  · subst hp
    exact h
  have hlt := rises k _ (Nat.lt_add_of_pos_right (size_pos hp depth)) (Nat.le_refl _)
  have hne : p.code lay exit depth k ≠ [] := by
    rw [← List.length_pos_iff, length_code]
    exact size_pos hp depth
  refine ⟨fun x hx => ?_, fun _ frame hf => ?_, fun hnil => ?_, fun frame hf hl => ?_⟩
  · obtain ⟨y, rest, hl⟩ := List.exists_cons_of_ne_nil hne
    rw [hl] at hx
    exact offset_of_mem_head? (by rw [hl]; exact hx)
  · by_cases hpost : post = []
    · exact h.past hpost frame hf ▸ hlt
    · exact Fin.lt_trans hlt (h.inside hpost frame hf)
  · exact absurd (List.append_eq_nil_iff.1 hnil).1 hne
  · exact Fin.lt_trans hlt (h.loops frame hf hl)

/-- The code of a branch ends where control goes on after the branch. -/
theorem Meets.branch {m n : Nat} {frame : Frame} (h : Meets lay scope n post)
    (rises : lay.Rises n) (hmn : m ≤ n) (hloop : frame.kind.isLoop = false)
    (hstop : frame.stop = lay.start m) : Meets lay (frame :: scope) m [] := by
  refine ⟨nofun, fun h => absurd rfl h, fun _ f hf => ?_, fun f hf hl => ?_⟩
  · obtain rfl := Option.some.inj hf
    exact hstop
  · rcases List.mem_cons.1 hf with rfl | hf
    · rw [hloop] at hl
      cases hl
    · exact Nat.lt_of_le_of_lt (rises.le hmn (Nat.le_refl _)) (h.loops f hf hl)

/-- The code of the body of a loop ends before the instructions that close the loop. -/
theorem Meets.loop {m n : Nat} {frame : Frame} {x : Entry} {close : Listing}
    (h : Meets lay scope n post) (rises : lay.Rises n) (hmn : m < n)
    (hstop : lay.start m < frame.stop) (hx : x.offset = lay.start m) :
    Meets lay (frame :: scope) m (x :: close) := by
  refine ⟨fun y hy => ?_, fun _ f hf => ?_, nofun, fun f hf hl => ?_⟩
  · obtain rfl := Option.some.inj hy
    exact hx
  · obtain rfl := Option.some.inj hf
    exact hstop
  · rcases List.mem_cons.1 hf with rfl | hf
    · exact hstop
    · exact Fin.lt_trans (rises m n hmn (Nat.le_refl _)) (h.loops f hf hl)

theorem Meets.leads {front : Listing} (h : Meets lay scope m post)
    (before : ∀ x ∈ front, x.offset < lay.start m) :
    Listing.Leads scope (lay.start m) front post :=
  ⟨before, h.here, h.inside, h.past⟩

/-- No loop around exits to an instruction of the code. -/
theorem Meets.loopExit? {i n : Nat} (h : Meets lay scope n post) (rises : lay.Rises n)
    (hi : i ≤ n) : scope.loopExit? (lay.start i) = none := by
  refine List.find?_eq_none.2 fun f hf hp => ?_
  simp only [Bool.and_eq_true, beq_iff_eq] at hp
  have := h.loops f hf hp.1
  rw [hp.2] at this
  exact absurd (rises.le hi (Nat.le_refl _)) (Nat.not_le.2 this)

/-- The innermost loop around, which is of the kind `loop?`, exits to instruction `exit`. -/
def Exits (lay : Placement) (scope : Scope) (loop? : Option BlockKind) (exit : Nat) : Prop :=
  ∀ kind ∈ loop?, ∃ frame, scope.loopExit? (lay.start exit) = some frame ∧ frame.kind = kind

theorem Exits.branch (h : Exits lay scope loop? exit) {frame : Frame}
    (hf : frame.kind.isLoop = false) : Exits lay (frame :: scope) loop? exit := by
  intro kind hkind
  rw [Scope.loopExit?_branch hf]
  exact h kind hkind

theorem Exits.loop {frame : Frame} (hf : frame.kind.isLoop = true)
    (hstop : frame.stop = lay.start exit) : Exits lay (frame :: scope) (some frame.kind) exit := by
  rintro _ ⟨⟩
  exact ⟨frame, hstop ▸ Scope.loopExit?_loop hf, rfl⟩

/-! ### Ends of iterators before returns -/

theorem pops_succ (k count : Nat) :
    lay.pops k (count + 1) = lay.entry k .iteratorPop :: lay.pops (k + 1) count := by
  simp [Placement.pops, List.range'_succ]

/-- The last end of an iterator before a return is removed. -/
theorem removePops_pops (k count : Nat) {s : Statement} {l : List Statement}
    (hs : s.isPlain Token.isReturn = true) :
    Statement.removePops ((lay.pops k (count + 1)).placed scope ++ s :: l) =
      (lay.pops k count).placed scope ++ Statement.removePops (s :: l) := by
  have hpop (i : Nat) (rest : List Statement) :
      Statement.removePops ((lay.entry i .iteratorPop).placed scope :: rest) =
        if rest.head?.any (Statement.isPlain Token.isReturn) then Statement.removePops rest
        else (lay.entry i .iteratorPop).placed scope :: Statement.removePops rest := rfl
  induction count generalizing k with
  | zero =>
    rw [pops_succ, Listing.placed_cons, List.cons_append, hpop, if_pos]
    · rfl
    · exact hs
  | succ count ih =>
    rw [pops_succ k count, pops_succ k (count + 1), Listing.placed_cons, List.cons_append, hpop,
      if_neg, ih]
    · rfl
    · rw [pops_succ]
      exact Bool.false_ne_true

/-- Removing ends of iterators before returns everywhere removes one before each. -/
theorem removePops_tree (p : Program) (pops exit depth k : Nat) (scope : Scope) :
    Statement.removePops (p.tree lay (pops + 1) exit depth k scope) =
      p.tree lay pops exit depth k scope := by
  induction p generalizing exit depth k scope with
  | done => rfl
  | ret value? rest ih =>
    have hret (start : Offset) (stop? : Option Offset) :
        (Statement.plain start stop? scope (.retOf value?)).isPlain Token.isReturn = true := by
      cases value? <;> rfl
    have hpop (start : Offset) (stop? : Option Offset) :
        (Statement.plain start stop? scope (.retOf value?)).isPlain Token.isIteratorPop = false := by
      cases value? <;> rfl
    exact (removePops_pops k pops (hret _ _)).trans (congrArg _
      ((Statement.removePops_cons_of_not (hpop _ _)).trans (congrArg _ (ih ..))))
  | _ => simp_all [tree, Statement.removePops, Statement.withoutPops, Statement.isPlain,
      Statement.token?, Token.isIteratorPop]

/-! ### Recovery, construct by construct -/

open Listing

variable {body other : Program} {condition : Token} {depth k split next after : Nat}
  {behind : Listing} {t u : List Statement}

/-- The first instruction of a construct leads behind what follows it in the construct. -/
theorem Meets.leads_construct {token : Token} {run : Listing} {m n : Nat}
    (meets : Meets lay scope m behind) (rises : lay.Rises n) (hk : k < m) (hm : m ≤ n)
    (before : ∀ x ∈ run, x.offset < lay.start m) :
    Leads scope (lay.start m) (lay.entry k token :: run) behind :=
  meets.leads (List.forall_mem_cons.2 ⟨rises k m hk hm, before⟩)

/-- What is left of code with nothing behind it. -/
theorem recovered_alone {l : Listing} (h : recovered scope (l ++ []) = t ++ recovered scope []) :
    recovered scope l = t := by
  simpa using h

/-- The last jump of a conditional without a second branch is no jump back and leads over nothing. -/
theorem single_of_code (sound : body.Sound loop?) (rises : lay.Rises (k + 1 + body.size depth))
    (meets : Meets lay scope (k + 1 + body.size depth) behind) (exits : Exits lay scope loop? exit)
    {e : Entry} (start : e.offset = lay.start k) (token : e.token.jumpTarget? = none)
    (orderly : Orderly (e :: body.code lay exit depth (k + 1) ++ behind))
    (leads : Leads scope (lay.start (k + 1 + body.size depth))
      (e :: body.code lay exit depth (k + 1)) behind) (x : Offset)
    (hx : (e :: body.code lay exit depth (k + 1)).getLast?.map Entry.token = some (.jump x)) :
    x ≠ e.offset ∧
      Block.secondBranchEnd? ⟨scope, placed scope (e :: body.code lay exit depth (k + 1) ++ behind)⟩
        (e :: body.code lay exit depth (k + 1)).length x = none := by
  obtain ⟨y, hy, hyx⟩ := Option.map_eq_some_iff.1 hx
  rcases List.mem_cons.1 (List.mem_of_getLast? hy) with rfl | hmem
  · rw [hyx] at token
    cases token
  rw [start]
  rcases (aims_of_mem_code sound hmem).2 x hyx with ⟨hloop, rfl⟩ | ⟨i, hi, hil, rfl⟩
  · obtain ⟨kind, rfl⟩ := Option.ne_none_iff_exists'.1 hloop
    obtain ⟨frame, hexit, -⟩ := exits kind rfl
    refine ⟨fun heq => ?_, secondBranchEnd?_of_exit _ hexit⟩
    rw [heq, meets.loopExit? rises (by omega)] at hexit
    cases hexit
  · exact ⟨(Fin.ne_of_lt (rises k i hi hil)).symm,
      secondBranchEnd?_of_le orderly leads (rises.le hil (Nat.le_refl _))⟩

theorem recovered_ifThen (hafter : after = k + 1 + body.size depth) (sound : body.Sound loop?)
    (rises : lay.Rises after) (meets : Meets lay scope after behind)
    (exits : Exits lay scope loop? exit)
    (orderly : Orderly (lay.entry k (.jumpIfNot condition (lay.start after)) ::
      body.code lay exit depth (k + 1) ++ behind))
    (inner : recovered (⟨.ifBlock, lay.start k, lay.start after⟩ :: scope)
      (body.code lay exit depth (k + 1)) = t) :
    recovered scope (lay.entry k (.jumpIfNot condition (lay.start after)) ::
        body.code lay exit depth (k + 1) ++ behind) =
      .composite (lay.start k) scope (.ifHead condition) (lay.start after)
        (⟨.ifBlock, lay.start k, lay.start after⟩ :: scope) t :: recovered scope behind := by
  subst hafter
  have leads : Leads scope (lay.start (k + 1 + body.size depth))
      (lay.entry k (.jumpIfNot condition (lay.start (k + 1 + body.size depth))) ::
        body.code lay exit depth (k + 1)) behind :=
    meets.leads_construct rises (by omega) (Nat.le_refl _) fun _ =>
      lt_of_mem_code rises (Nat.le_refl _) (Nat.le_refl _)
  rw [recovered_conditional orderly rfl leads
      (single_of_code sound rises meets exits rfl rfl orderly leads),
    Placement.offset_entry, under_ifHead inner]

theorem recovered_ifElse (hsplit : split = k + 1 + body.size depth)
    (hafter : after = split + 1 + other.size depth) (hother : other ≠ done)
    (rises : lay.Rises after) (meets : Meets lay scope after behind)
    (orderly : Orderly (lay.entry k (.jumpIfNot condition (lay.start (split + 1))) ::
      body.code lay exit depth (k + 1) ++ [lay.entry split (.jump (lay.start after))] ++
        other.code lay exit depth (split + 1) ++ behind))
    (inner : recovered (⟨.ifBlock, lay.start k, lay.start split⟩ :: scope)
      (body.code lay exit depth (k + 1)) = t)
    (innerOther : recovered (⟨.elseBlock, lay.start (split + 1), lay.start after⟩ :: scope)
      (other.code lay exit depth (split + 1)) = u) :
    recovered scope (lay.entry k (.jumpIfNot condition (lay.start (split + 1))) ::
        body.code lay exit depth (k + 1) ++ [lay.entry split (.jump (lay.start after))] ++
          other.code lay exit depth (split + 1) ++ behind) =
      .composite (lay.start k) scope (.ifHead condition) (lay.start split)
          (⟨.ifBlock, lay.start k, lay.start split⟩ :: scope) t ::
        .composite (lay.start (split + 1)) scope .elseHead (lay.start after)
            (⟨.elseBlock, lay.start (split + 1), lay.start after⟩ :: scope) u ::
          recovered scope behind := by
  have hle : split + 1 ≤ after := by omega
  have meetsOther : Meets lay scope (split + 1) (other.code lay exit depth (split + 1) ++ behind) := by
    subst hafter
    exact meets.code rises exit
  have before : ∀ x ∈ body.code lay exit depth (k + 1) ++ [lay.entry split (.jump (lay.start after))],
      x.offset < lay.start (split + 1) :=
    List.forall_mem_append.2 ⟨fun _ => lt_of_mem_code rises (by omega) hle,
      List.forall_mem_singleton.2 (rises _ _ (Nat.lt_succ_self _) hle)⟩
  have beforeAll : ∀ x ∈ body.code lay exit depth (k + 1) ++
      [lay.entry split (.jump (lay.start after))] ++ other.code lay exit depth (split + 1),
      x.offset < lay.start after :=
    List.forall_mem_append.2
      ⟨fun x hx => Nat.lt_of_lt_of_le (before x hx) (rises.le hle (Nat.le_refl _)),
        fun _ => lt_of_mem_code rises (by omega) (Nat.le_refl _)⟩
  obtain ⟨o, ho⟩ : ∃ o, (other.code lay exit depth (split + 1)).head? = some o := by
    refine Option.isSome_iff_exists.1 (List.isSome_head?.2 fun hnil => ?_)
    have hlen := length_code lay other exit depth (split + 1)
    rw [hnil] at hlen
    exact absurd hlen (Nat.ne_of_lt (size_pos hother depth))
  rw [recovered_alternative orderly rfl (meetsOther.leads_construct rises (by omega) hle before) rfl
      (Fin.ne_of_lt (rises k after (by omega) (Nat.le_refl _))).symm
      (meets.loopExit? rises (Nat.le_refl _)) ho
      (meets.leads_construct rises (by omega) (Nat.le_refl _) beforeAll),
    offset_of_mem_head? ho, Placement.offset_entry, Placement.offset_entry, under_ifHead inner,
    under_elseHead innerOther]

theorem recovered_whileLoop (hnext : next = k + 1 + body.size depth) (rises : lay.Rises (next + 1))
    (meets : Meets lay scope (next + 1) behind)
    (orderly : Orderly (lay.entry k (.jumpIfNot condition (lay.start (next + 1))) ::
      (body.code lay (next + 1) depth (k + 1) ++ [lay.entry next (.jump (lay.start k))]) ++ behind))
    (inner : recovered (⟨.whileLoop, lay.start k, lay.start (next + 1)⟩ :: scope)
        (body.code lay (next + 1) depth (k + 1) ++ [lay.entry next (.jump (lay.start k))]) =
      t ++ recovered (⟨.whileLoop, lay.start k, lay.start (next + 1)⟩ :: scope)
        [lay.entry next (.jump (lay.start k))]) :
    recovered scope (lay.entry k (.jumpIfNot condition (lay.start (next + 1))) ::
        (body.code lay (next + 1) depth (k + 1) ++ [lay.entry next (.jump (lay.start k))]) ++
          behind) =
      .composite (lay.start k) scope (.whileHead condition) (lay.start (next + 1))
        (⟨.whileLoop, lay.start k, lay.start (next + 1)⟩ :: scope) t :: recovered scope behind := by
  have before : ∀ x ∈ body.code lay (next + 1) depth (k + 1) ++ [lay.entry next (.jump (lay.start k))],
      x.offset < lay.start (next + 1) :=
    List.forall_mem_append.2 ⟨fun _ => lt_of_mem_code rises (by omega) (Nat.le_refl _),
      List.forall_mem_singleton.2 (rises _ _ (Nat.lt_succ_self _) (Nat.le_refl _))⟩
  have stays : Scope.loopExit? (⟨.whileLoop, lay.start k, lay.start (next + 1)⟩ :: scope)
      (lay.start k) = none := by
    rw [Scope.loopExit?, List.find?_cons_of_neg]
    · exact meets.loopExit? rises (by omega)
    · have hlt := rises k (next + 1) (by omega) (Nat.le_refl _)
      simpa using fun _ => (Fin.ne_of_lt hlt).symm
  rw [recovered_cons orderly.left.tail.right (.jump stays) (fun step => by cases step),
    recovered_nil] at inner
  rw [recovered_loop orderly rfl (meets.leads_construct rises (by omega) (Nat.le_refl _) before)
      (by rw [List.getLast?_concat]; rfl),
    Placement.offset_entry, under_whileHead inner rfl]

theorem recovered_foreachLoop {collection : Token} {iterator? : Option Token}
    (hnext : next = k + 1 + body.size (depth + 1)) (rises : lay.Rises (next + 2))
    (closes : Offset.next? (lay.start (next + 1)) = some (lay.start (next + 2)))
    (meets : Meets lay scope (next + 2) behind)
    (orderly : Orderly (lay.entry k (.foreachOver collection iterator? (lay.start (next + 1))) ::
      (body.code lay (next + 1) (depth + 1) (k + 1) ++
        [lay.entry next .iteratorNext, lay.entry (next + 1) .iteratorPop]) ++ behind))
    (inner : recovered (⟨.foreachLoop, lay.start k, lay.start (next + 1)⟩ :: scope)
        (body.code lay (next + 1) (depth + 1) (k + 1) ++
          [lay.entry next .iteratorNext, lay.entry (next + 1) .iteratorPop]) =
      t ++ recovered (⟨.foreachLoop, lay.start k, lay.start (next + 1)⟩ :: scope)
        [lay.entry next .iteratorNext, lay.entry (next + 1) .iteratorPop]) :
    recovered scope (lay.entry k (.foreachOver collection iterator? (lay.start (next + 1))) ::
        (body.code lay (next + 1) (depth + 1) (k + 1) ++
          [lay.entry next .iteratorNext, lay.entry (next + 1) .iteratorPop]) ++ behind) =
      .composite (lay.start k) scope (.foreachHead collection iterator?) (lay.start (next + 1))
        (⟨.foreachLoop, lay.start k, lay.start (next + 1)⟩ :: scope) (Statement.removePops t) ::
          recovered scope behind := by
  have before : ∀ x ∈ body.code lay (next + 1) (depth + 1) (k + 1) ++
      [lay.entry next .iteratorNext, lay.entry (next + 1) .iteratorPop],
      x.offset < lay.start (next + 2) :=
    List.forall_mem_append.2 ⟨fun _ => lt_of_mem_code rises (by omega) (Nat.le_refl _),
      List.forall_mem_cons.2 ⟨rises _ _ (by omega) (Nat.le_refl _),
        List.forall_mem_singleton.2 (rises _ _ (by omega) (Nat.le_refl _))⟩⟩
  have closing := orderly.left.tail.right
  rw [recovered_cons closing (.still rfl) (by rintro - x ⟨⟩; rfl),
    recovered_cons_of_still closing.tail rfl rfl, recovered_nil] at inner
  rw [recovered_iteration orderly.ascending_placed rfl closes
      (meets.leads_construct rises (by omega) (Nat.le_refl _) before),
    Placement.offset_entry, under_foreachHead inner rfl rfl]

/-- The code of a program, within any scope and with any code behind it, is structured into the tree
of the program, in which only the inner iterations are finished. -/
theorem recovered_code (p : Program) (sound : p.Sound loop?) {depth k : Nat}
    (rises : lay.Rises (k + p.size depth))
    (closes : ∀ i ∈ p.closings depth k, Offset.next? (lay.start i) = some (lay.start (i + 1)))
    (orderly : Orderly (p.code lay exit depth k ++ post))
    (meets : Meets lay scope (k + p.size depth) post)
    (exits : Exits lay scope loop? exit) :
    recovered scope (p.code lay exit depth k ++ post) =
      p.tree lay depth exit depth k scope ++ recovered scope post := by
  induction p generalizing loop? exit depth k scope post with
  | done => rfl
  | expression text rest ih =>
    rw [size, ← Nat.add_assoc] at rises meets
    rw [code, List.cons_append] at orderly ⊢
    rw [recovered_cons_of_still orderly rfl rfl, ih sound rises closes orderly.tail meets exits]
    rfl
  | ret value? rest ih =>
    rw [size, ← Nat.add_assoc, ← Nat.add_assoc] at rises meets
    rw [code, List.append_assoc, List.cons_append] at orderly ⊢
    have hpops : ∀ e ∈ lay.pops k depth,
        e.token.isBranch = false ∧ e.token.isIteratorNext = false := by
      intro e he
      obtain ⟨i, -, rfl⟩ := List.mem_map.1 he
      exact ⟨rfl, rfl⟩
    have hbranch : (Token.retOf value?).isBranch = false := by cases value? <;> rfl
    have hnext : (Token.retOf value?).isIteratorNext = false := by cases value? <;> rfl
    rw [recovered_append orderly.ascending_placed hpops,
      recovered_cons_of_still orderly.right hbranch hnext,
      ih sound rises closes orderly.right.tail meets exits]
    simp [tree, placed, Entry.placed, Placement.entry]
  | leave rest ih =>
    rw [size, ← Nat.add_assoc] at rises meets
    rw [code, List.cons_append] at orderly ⊢
    obtain ⟨kind, hkind⟩ := Option.ne_none_iff_exists'.1 sound.1
    obtain ⟨frame, hexit, -⟩ := exits kind hkind
    rw [recovered_leave orderly rfl hexit, ih sound.2 rises closes orderly.tail meets exits]
    rfl
  | advance rest ih =>
    rw [size, ← Nat.add_assoc] at rises meets
    rw [code, List.cons_append, List.cons_append] at orderly ⊢
    obtain ⟨frame, hexit, hkind⟩ := exits _ sound.1
    rw [recovered_advance orderly rfl rfl hexit hkind,
      ih sound.2 rises closes orderly.tail.tail meets exits]
    rfl
  | ifThen condition body rest ihb ih =>
    obtain ⟨soundBody, soundRest⟩ := sound
    rw [size, ← Nat.add_assoc, ← Nat.add_assoc] at rises meets
    rw [code, List.append_assoc] at orderly ⊢
    simp only [closings, List.forall_mem_append] at closes
    have risesHere := rises.mono (Nat.le_add_right _ (rest.size depth))
    have meetsHere := meets.code rises exit
    have ordered : Orderly (body.code lay exit depth (k + 1) ++ []) := by
      rw [List.append_nil]
      exact orderly.left.tail
    rw [recovered_ifThen rfl soundBody risesHere meetsHere exits orderly
        (recovered_alone (ihb soundBody risesHere closes.1 ordered
          (meetsHere.branch risesHere (Nat.le_refl _) rfl rfl) (exits.branch rfl))),
      ih soundRest rises closes.2 orderly.right meets exits]
    rfl
  | ifElse condition body other rest ihb iho ih =>
    obtain ⟨soundBody, hother, soundOther, soundRest⟩ := sound
    rw [size, ← Nat.add_assoc, ← Nat.add_assoc, ← Nat.add_assoc, ← Nat.add_assoc] at rises meets
    simp only [code] at orderly ⊢
    rw [List.append_assoc] at orderly ⊢
    simp only [closings, List.forall_mem_append] at closes
    have risesHere := rises.mono (Nat.le_add_right _ (rest.size depth))
    have meetsHere := meets.code rises exit
    have ordered : Orderly (body.code lay exit depth (k + 1) ++ []) := by
      rw [List.append_nil]
      exact orderly.left.left.left.tail
    have orderedOther :
        Orderly (other.code lay exit depth (k + 1 + body.size depth + 1) ++ []) := by
      rw [List.append_nil]
      exact orderly.left.right
    rw [recovered_ifElse rfl rfl hother risesHere meetsHere orderly
        (recovered_alone (ihb soundBody (risesHere.mono (by omega)) closes.1.1 ordered
          (meetsHere.branch risesHere (by omega) rfl rfl) (exits.branch rfl)))
        (recovered_alone (iho soundOther risesHere closes.1.2 orderedOther
          (meetsHere.branch risesHere (Nat.le_refl _) rfl rfl) (exits.branch rfl))),
      ih soundRest rises closes.2 orderly.right meets exits]
    rfl
  | whileLoop condition body rest ihb ih =>
    obtain ⟨soundBody, soundRest⟩ := sound
    rw [size, ← Nat.add_assoc, ← Nat.add_assoc, ← Nat.add_assoc] at rises meets
    simp only [code] at orderly ⊢
    rw [List.append_assoc] at orderly ⊢
    simp only [closings, List.forall_mem_append] at closes
    have risesHere := rises.mono (Nat.le_add_right _ (rest.size depth))
    have meetsHere := meets.code rises exit
    have goesOn := risesHere _ _ (Nat.lt_succ_self (k + 1 + body.size depth)) (Nat.le_refl _)
    rw [recovered_whileLoop rfl risesHere meetsHere orderly
        (ihb soundBody (risesHere.mono (Nat.le_succ _)) closes.1 orderly.left.tail
          (meetsHere.loop risesHere (Nat.lt_succ_self _) goesOn rfl) (.loop rfl rfl)),
      ih soundRest rises closes.2 orderly.right meets exits]
    rfl
  | foreachLoop collection iterator? body rest ihb ih =>
    obtain ⟨soundBody, soundRest⟩ := sound
    rw [size, ← Nat.add_assoc, ← Nat.add_assoc, ← Nat.add_assoc] at rises meets
    simp only [code] at orderly ⊢
    rw [List.append_assoc] at orderly ⊢
    simp only [closings, List.forall_mem_append, List.forall_mem_cons] at closes
    have risesHere := rises.mono (Nat.le_add_right _ (rest.size depth))
    have meetsHere := meets.code rises exit
    have goesOn := risesHere _ _ (Nat.lt_succ_self (k + 1 + body.size (depth + 1))) (Nat.le_succ _)
    rw [recovered_foreachLoop rfl risesHere closes.2.1 meetsHere orderly
        (ihb soundBody (risesHere.mono (by omega)) closes.1 orderly.left.tail
          (meetsHere.loop risesHere (by omega) goesOn rfl) (.loop rfl rfl)),
      ih soundRest rises closes.2.2 orderly.right meets exits, removePops_tree]
    rfl

/-- The only instructions in the tree of a program are ordinary statements and returns. -/
theorem anyOf_tree {f : Token → Bool} (hexpr : ∀ text, f (.expression text) = false)
    (hret : ∀ value?, f (.retOf value?) = false) (p : Program) (exit depth k : Nat) (scope : Scope) :
    Statement.anyOf (Statement.isPlain f) (p.tree lay 0 exit depth k scope) = false := by
  induction p generalizing exit depth k scope with
  | done => rfl
  | _ => simp_all [tree, Statement.anyOf, Statement.any, Statement.isPlain, Statement.token?,
      Placement.pops]

theorem lt_of_mem_closings {p : Program} {depth k i : Nat} (h : i ∈ p.closings depth k) :
    i < k + p.size depth := by
  induction p generalizing depth k with
  | done => cases h
  | expression _ _ ih | leave _ ih | ret _ _ ih | advance _ ih =>
    have := ih h
    simp only [size]
    omega
  | ifThen _ _ _ ihb ih | whileLoop _ _ _ ihb ih =>
    simp only [closings, List.mem_append] at h
    simp only [size]
    rcases h with h | h
    · have := ihb h
      omega
    · have := ih h
      omega
  | ifElse _ _ _ _ ihb iho ih =>
    simp only [closings, List.mem_append] at h
    simp only [size]
    rcases h with (h | h) | h
    · have := ihb h
      omega
    · have := iho h
      omega
    · have := ih h
      omega
  | foreachLoop _ _ _ _ ihb ih =>
    simp only [closings, List.mem_append, List.mem_cons] at h
    simp only [size]
    rcases h with h | rfl | h
    · have := ihb h
      omega
    · omega
    · have := ih h
      omega

/-- **Recovery undoes compilation.** Structuring the code of a program, in any place, gives the body
that the program stands for, in which no jump and no instruction of an iterator is left. -/
theorem structured_listing (lay : Placement) (p : Program) (sound : p.Sound none)
    (suits : lay.Suits p) :
    (p.listing lay).block.structured = .done (p.body lay) ∧
      (p.body lay).hasRawJumps = false ∧
      Statement.anyOf (Statement.isPlain Token.isIteratorNext) (p.body lay).statements = false ∧
      Statement.anyOf (Statement.isPlain Token.isIteratorPop) (p.body lay).statements = false := by
  have rises : lay.Rises (0 + p.size 0) := by
    rw [Nat.zero_add]
    exact suits.rises
  have closes : ∀ i ∈ p.closings 0 0, Offset.next? (lay.start i) = some (lay.start (i + 1)) :=
    fun i hi => suits.next?_start hi (by simpa using lt_of_mem_closings hi)
  have orderly : Orderly (p.code lay 0 0 0 ++ []) := by
    rw [List.append_nil]
    exact orderly_code sound rises
  have whole : recovered [] (p.code lay 0 0 0 ++ []) = _ :=
    recovered_code p sound rises closes orderly ⟨nofun, nofun, nofun, nofun⟩ nofun
  rw [List.append_nil, recovered_nil, List.append_nil] at whole
  have hblock : (p.listing lay).block = ⟨[], (p.code lay 0 0 0).placed []⟩ := rfl
  refine ⟨?_, p.anyOf_tree (fun _ => rfl) (fun v => by cases v <;> rfl) ..,
    p.anyOf_tree (fun _ => rfl) (fun v => by cases v <;> rfl) ..,
    p.anyOf_tree (fun _ => rfl) (fun v => by cases v <;> rfl) ..⟩
  rw [Block.structured_eq_done, hblock, statements_recovered, whole]
  rfl

/-- An iteration with a `continue` in one branch and a return in the other, and a loop that is left
at once. -/
def nestedExits : Program :=
  .foreachLoop (.expression "Items") none
    (.ifElse (.expression "a") (.advance .done) (.ret none .done)
      (.whileLoop (.expression "b") (.leave .done) .done)) .done

/-- Instructions of four bytes, but for the end of the iteration. -/
def nestedPlacement : Placement := ⟨3, fun k => if k = 11 then 1 else 4, fun _ => none⟩

theorem structured_listing_nestedExits :
    nestedExits.Sound none ∧ nestedPlacement.Suits nestedExits ∧
      (nestedExits.listing nestedPlacement).block.structured = .done (nestedExits.body nestedPlacement) ∧
      (nestedExits.body nestedPlacement).hasRawJumps = false ∧
      Statement.anyOf (Statement.isPlain Token.isIteratorNext) (nestedExits.body nestedPlacement).statements =
        false ∧
      Statement.anyOf (Statement.isPlain Token.isIteratorPop) (nestedExits.body nestedPlacement).statements =
        false := by
  have sound : nestedExits.Sound none := by simp [nestedExits, Sound]
  have suits : nestedPlacement.Suits nestedExits := ⟨by decide, by decide, by decide⟩
  exact ⟨sound, suits, structured_listing nestedPlacement nestedExits sound suits⟩

end Program

end FlowRecovery
