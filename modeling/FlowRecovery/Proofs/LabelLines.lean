import FlowRecovery.Body
import FlowRecovery.Proofs.Accounting
import FlowRecovery.Proofs.Coverage
import FlowRecovery.Proofs.Leftovers
import FlowRecovery.Proofs.Lines

/-!
# Where labels are printed

The label of an offset is printed before the instruction at that offset, and before a composite
statement that starts there. Which lines show what starts where can be read off the outline
(`Statement.sublist_outlineOf`): an offset has one line of the outline at most, because the offsets of a
listing increase and structuring only drops some (`Accounted.sublist`). So no composite statement but
the second branch of a conditional, which has no line in the outline, starts where an instruction stands.

`Listing.labelledOnce_or_elided` is the conclusion for expressions. A label may be missing if the elision
of returns drops the expression, and it is there once more before the head of a second branch that the
expression begins (`Listing.label_lost_or_doubled`).
-/

namespace FlowRecovery

/-! ### Lines and outlines -/

/-- The line of an outline that a line shows. -/
def Line.item? : Line → Option (Offset × Item)
  | instruction start stop? token => some (start, .instruction stop? token)
  | head _ .elseHead => none
  | head start h => some (start, .head h)
  | _ => none

/-- A line without labels shows a statement that starts at an offset of `offsets`, or none. -/
def Line.StartsIn (offsets : List Offset) : Line → Prop
  | label _ _ => False
  | line => ∀ o ∈ line.start?, o ∈ offsets

/-- The instruction of an entry has a line in the outline. -/
def Statement.Shows (l : List Statement) (e : Entry) : Prop :=
  (e.offset, Item.instruction e.stop? e.token) ∈ outlineOf l

theorem Line.StartsIn.mono {line : Line} {offsets offsets' : List Offset} (h : line.StartsIn offsets)
    (sub : offsets ⊆ offsets') : line.StartsIn offsets' := by
  cases line with
  | label => exact h
  | _ => exact fun o ho => sub (h o ho)

theorem Line.item?_head {start : Offset} {h : Head} (hne : h ≠ .elseHead) :
    (Line.head start h).item? = some (start, .head h) := by
  cases h <;> first | rfl | exact absurd rfl hne

namespace Statement

variable {o : Offset} {stop? : Option Offset} {token : Token}

mutual

/-- The lines of an outline stand for statements. -/
theorem mem_starts_of_mem_outline {item : Item} :
    (s : Statement) → (o, item) ∈ s.outline → o ∈ s.starts
  | plain .., h => by
    cases List.mem_singleton.1 h
    exact List.mem_singleton.2 rfl
  | escape .., h => by
    cases List.mem_singleton.1 h
    exact List.mem_singleton.2 rfl
  | composite start _ head _ _ children, h => by
    by_cases hhead : head = .elseHead
    · subst hhead
      exact List.mem_cons_of_mem _ (mem_startsOf_of_mem_outlineOf children h)
    · rw [outline_composite hhead] at h
      rcases List.mem_cons.1 h with heq | h
      · cases heq
        exact List.mem_cons_self ..
      · exact List.mem_cons_of_mem _ (mem_startsOf_of_mem_outlineOf children h)

theorem mem_startsOf_of_mem_outlineOf {item : Item} :
    (l : List Statement) → (o, item) ∈ outlineOf l → o ∈ startsOf l
  | [], h => by cases h
  | s :: rest, h => by
    rcases List.mem_append.1 h with h | h
    · exact List.mem_append_left _ (mem_starts_of_mem_outline s h)
    · exact List.mem_append_right _ (mem_startsOf_of_mem_outlineOf rest h)

end

mutual

/-- What the lines of a statement show is in its outline, in the same order. -/
theorem sublist_outline (level : Nat) : (s : Statement) →
    ((s.rows level).filterMap fun r => r.line.item?).Sublist s.outline
  | plain start stop? _ token => by
    rw [rows]
    split
    · exact List.nil_sublist _
    · exact List.Sublist.refl _
  | escape .. => List.nil_sublist _
  | composite start scope head stop inner children => by
    obtain ⟨inside, hinside, hrows⟩ := rows_composite level start scope head stop inner children
    have children : (inside.filterMap fun r => r.line.item?).Sublist (outlineOf children) := by
      rcases hinside with rfl | rfl
      · exact sublist_outlineOf (level + 1) children
      · exact sublist_outlineOf_clauseRows (level + 1) children
    rw [hrows, List.filterMap_cons, List.filterMap_cons, List.filterMap_append]
    by_cases hhead : head = .elseHead
    · subst hhead
      simpa [Line.item?, outline] using children
    · simpa [Line.item?_head hhead, Line.item?, outline_composite hhead] using children

theorem sublist_outlineOf (level : Nat) : (l : List Statement) →
    ((rowsOf level l).filterMap fun r => r.line.item?).Sublist (outlineOf l)
  | [] => List.nil_sublist _
  | s :: rest => by
    rw [rowsOf, List.filterMap_append]
    exact (sublist_outline level s).append (sublist_outlineOf level rest)

theorem sublist_outlineOf_clauseRows (level : Nat) : (l : List Statement) →
    ((clauseRows level l).filterMap fun r => r.line.item?).Sublist (outlineOf l)
  | [] => List.nil_sublist _
  | s :: rest => by
    rw [clauseRows, List.filterMap_append]
    refine .append ?_ (sublist_outlineOf_clauseRows level rest)
    split
    · exact List.nil_sublist _
    · exact sublist_outline (level + 1) s

end

mutual

/-- An instruction has a line unless it shows nothing or is a clause label. -/
theorem mem_rows (shown : token.text.isEmpty = false) (clause : token.isCaseLabel = false)
    (level : Nat) : (s : Statement) → (o, Item.instruction stop? token) ∈ s.outline →
      ∃ level', ⟨level', .instruction o stop? token⟩ ∈ s.rows level
  | plain start stop? _ t, h => by
    cases List.mem_singleton.1 h
    rw [rows, if_neg (Bool.eq_false_iff.1 shown)]
    exact ⟨level, List.mem_singleton.2 rfl⟩
  | escape .., h => by cases List.mem_singleton.1 h
  | composite start scope head stop inner children, h => by
    obtain ⟨inside, hinside, hrows⟩ := rows_composite level start scope head stop inner children
    have h : (o, Item.instruction stop? token) ∈ outlineOf children := by
      by_cases hhead : head = .elseHead
      · subst hhead
        exact h
      · rw [outline_composite hhead] at h
        rcases List.mem_cons.1 h with heq | h
        · cases heq
        · exact h
    have children : ∃ level', ⟨level', .instruction o stop? token⟩ ∈ inside := by
      rcases hinside with rfl | rfl
      · exact mem_rowsOf shown clause (level + 1) children h
      · exact mem_clauseRows shown clause (level + 1) children h
    obtain ⟨level', hmem⟩ := children
    rw [hrows]
    exact ⟨level', by simp [hmem]⟩

theorem mem_rowsOf (shown : token.text.isEmpty = false) (clause : token.isCaseLabel = false)
    (level : Nat) : (l : List Statement) → (o, Item.instruction stop? token) ∈ outlineOf l →
      ∃ level', ⟨level', .instruction o stop? token⟩ ∈ rowsOf level l
  | [], h => by cases h
  | s :: rest, h => by
    rw [rowsOf]
    rcases List.mem_append.1 h with h | h
    · obtain ⟨level', hmem⟩ := mem_rows shown clause level s h
      exact ⟨level', List.mem_append_left _ hmem⟩
    · obtain ⟨level', hmem⟩ := mem_rowsOf shown clause level rest h
      exact ⟨level', List.mem_append_right _ hmem⟩

theorem mem_clauseRows (shown : token.text.isEmpty = false) (clause : token.isCaseLabel = false)
    (level : Nat) : (l : List Statement) → (o, Item.instruction stop? token) ∈ outlineOf l →
      ∃ level', ⟨level', .instruction o stop? token⟩ ∈ clauseRows level l
  | [], h => by cases h
  | s :: rest, h => by
    rw [clauseRows]
    rcases List.mem_append.1 h with h | h
    · cases hlabel : s.token?.filter Token.isCaseLabel with
      | some label =>
        obtain ⟨ht, hcase⟩ := Option.filter_eq_some_iff.1 hlabel
        rw [outline_of_token? ht] at h
        cases List.mem_singleton.1 h
        rw [clause] at hcase
        cases hcase
      | none =>
        obtain ⟨level', hmem⟩ := mem_rows shown clause (level + 1) s h
        exact ⟨level', List.mem_append_left _ hmem⟩
    · obtain ⟨level', hmem⟩ := mem_clauseRows shown clause level rest h
      exact ⟨level', List.mem_append_right _ hmem⟩

end

mutual

/-- Every line shows a statement at its offset, and none is a label. -/
theorem startsIn_rows (level : Nat) : (s : Statement) → ∀ r ∈ s.rows level, r.line.StartsIn s.starts
  | plain start stop? _ t => by
    intro r hr
    rw [rows] at hr
    split at hr
    · cases hr
    · cases List.mem_singleton.1 hr
      exact fun o ho => List.mem_singleton.2 (Option.some.inj ho).symm
  | escape .. => by
    intro r hr
    cases List.mem_singleton.1 hr
    exact nofun
  | composite start scope head stop inner children => by
    obtain ⟨inside, hinside, hrows⟩ := rows_composite level start scope head stop inner children
    have children : ∀ r ∈ inside, r.line.StartsIn (startsOf children) := by
      rcases hinside with rfl | rfl
      · exact startsIn_rowsOf (level + 1) children
      · exact startsIn_clauseRows (level + 1) children
    intro r hr
    simp only [hrows, List.mem_cons, List.mem_append, List.not_mem_nil, or_false] at hr
    rcases hr with rfl | rfl | hr | rfl
    · exact fun o ho => Option.some.inj ho ▸ List.mem_cons_self ..
    · exact nofun
    · exact (children r hr).mono (List.subset_cons_self ..)
    · exact nofun

theorem startsIn_rowsOf (level : Nat) : (l : List Statement) →
    ∀ r ∈ rowsOf level l, r.line.StartsIn (startsOf l)
  | [] => nofun
  | s :: rest => by
    intro r hr
    rcases List.mem_append.1 hr with hr | hr
    · exact (startsIn_rows level s r hr).mono (List.subset_append_left ..)
    · exact (startsIn_rowsOf level rest r hr).mono (List.subset_append_right ..)

theorem startsIn_clauseRows (level : Nat) : (l : List Statement) →
    ∀ r ∈ clauseRows level l, r.line.StartsIn (startsOf l)
  | [] => nofun
  | s :: rest => by
    intro r hr
    rw [clauseRows] at hr
    rcases List.mem_append.1 hr with hr | hr
    · split at hr
      · cases List.mem_singleton.1 hr
        exact nofun
      · exact (startsIn_rows (level + 1) s r hr).mono (List.subset_append_left ..)
    · exact (startsIn_clauseRows level rest r hr).mono (List.subset_append_right ..)

end

end Statement

/-! ### The labels of an offset -/

/-- A label of `o` stands only directly before the head of a second branch that starts there. -/
def OnlyBeforeBranches (o : Offset) : List Row → Prop
  | [] => True
  | r :: rest =>
      (∀ name, r.line = .label o name → rest.head? = some ⟨r.level, .head o .elseHead⟩) ∧
        OnlyBeforeBranches o rest

/-- The label of `o` stands once before the line `line`, and otherwise only before heads of second
branches. -/
def LabelledOnce (o : Offset) (name : String) (line : Line) (l : List Row) : Prop :=
  ∃ front level behind, l = front ++ ⟨level, .label o name⟩ :: ⟨level, line⟩ :: behind ∧
    OnlyBeforeBranches o front ∧ OnlyBeforeBranches o behind

variable {o : Offset} {name : String} {labels : Labels} {l m : List Row}

theorem OnlyBeforeBranches.append (hl : OnlyBeforeBranches o l) (hm : OnlyBeforeBranches o m) :
    OnlyBeforeBranches o (l ++ m) := by
  induction l with
  | nil => exact hm
  | cons r rest ih =>
    refine ⟨fun name hr => ?_, ih hl.2⟩
    show (rest ++ m).head? = _
    rw [List.head?_append, hl.1 name hr]
    rfl

/-- Lines with labels, of which only heads of second branches start at `o`. -/
theorem onlyBeforeBranches_withLabel
    (h : ∀ r ∈ l, (∀ name, r.line ≠ .label o name) ∧
      (r.line.start? = some o → r.line = .head o .elseHead)) :
    OnlyBeforeBranches o (l.flatMap (Row.withLabel labels)) := by
  induction l with
  | nil => trivial
  | cons r rest ih =>
    rw [List.flatMap_cons]
    refine OnlyBeforeBranches.append ?_ (ih fun r hr => h r (List.mem_cons_of_mem _ hr))
    obtain ⟨hlabel, hstart⟩ := h r (List.mem_cons_self ..)
    unfold Row.withLabel
    split
    · exact ⟨fun name hr => absurd hr (hlabel name), trivial⟩
    · next label hlabelled =>
      obtain ⟨o', ho', hname⟩ := Option.bind_eq_some_iff.1 hlabelled
      obtain ⟨name', -, rfl⟩ := Option.map_eq_some_iff.1 hname
      refine ⟨fun name heq => ?_, fun name hr => absurd hr (hlabel name), trivial⟩
      cases heq
      exact congrArg some (congrArg (Row.mk r.level) (hstart ho'))

theorem Line.start?_of_item? {line : Line} {item : Item} (h : line.item? = some (o, item)) :
    line.start? = some o := by
  cases line with
  | head start head => cases head <;> cases h <;> rfl
  | instruction => cases h; rfl
  | _ => cases h

theorem Line.eq_head_of_item?_eq_none {line : Line} (label : ∀ name, line ≠ .label o name)
    (start : line.start? = some o) (item : line.item? = none) : line = .head o .elseHead := by
  cases line with
  | head start h => cases h <;> cases start <;> first | rfl | cases item
  | instruction => cases item
  | _ => cases start

namespace Block

open Statement

/-- The label of an instruction that is printed. -/
theorem labelledOnce_of_mem {b : Block} {stop? : Option Offset} {token : Token} (level : Nat)
    (nodup : ((outlineOf b.statements).map Prod.fst).Nodup)
    (mem : (o, Item.instruction stop? token) ∈ outlineOf b.statements)
    (shown : token.text.isEmpty = false) (clause : token.isCaseLabel = false)
    (hname : labels.label? o = some name) :
    LabelledOnce o name (.instruction o stop? token) (b.labelledRows labels level) := by
  obtain ⟨level', hmem⟩ := mem_rowsOf shown clause level b.statements mem
  have standing := startsIn_rowsOf level b.statements
  have items := sublist_outlineOf level b.statements
  obtain ⟨front, behind, hsplit⟩ := List.append_of_mem hmem
  rw [hsplit] at standing items
  -- There is one line of the outline at `o`, so no other line shows one.
  rw [List.filterMap_append, List.filterMap_cons] at items
  have distinct := nodup.sublist (items.map _)
  simp only [Line.item?, List.map_append, List.map_cons] at distinct
  have others : ∀ r ∈ front ++ behind, (∀ name, r.line ≠ .label o name) ∧
      (r.line.start? = some o → r.line = .head o .elseHead) := by
    intro r hr
    have hlabel : ∀ name, r.line ≠ .label o name := by
      intro name heq
      have := standing r (by simp only [List.mem_append, List.mem_cons] at hr ⊢; tauto)
      rw [heq] at this
      exact this
    refine ⟨hlabel, fun hstart => Line.eq_head_of_item?_eq_none hlabel hstart ?_⟩
    rw [Option.eq_none_iff_forall_ne_some]
    rintro ⟨start, item⟩ hitem
    obtain rfl : start = o := Option.some.inj ((Line.start?_of_item? hitem).symm.trans hstart)
    have shows {l : List Row} (hr : r ∈ l) :
        start ∈ (l.filterMap fun r => r.line.item?).map Prod.fst :=
      List.mem_map.2 ⟨(start, item), List.mem_filterMap.2 ⟨r, hr, hitem⟩, rfl⟩
    obtain ⟨-, behindDistinct, apart⟩ := List.nodup_append.1 distinct
    rcases List.mem_append.1 hr with hr | hr
    · exact apart _ (shows hr) _ (List.mem_cons_self ..) rfl
    · exact (List.nodup_cons.1 behindDistinct).1 (shows hr)
  have ahead : OnlyBeforeBranches o (front.flatMap (Row.withLabel labels)) :=
    onlyBeforeBranches_withLabel fun r hr => others r (List.mem_append_left _ hr)
  have after : OnlyBeforeBranches o (behind.flatMap (Row.withLabel labels)) :=
    onlyBeforeBranches_withLabel fun r hr => others r (List.mem_append_right _ hr)
  refine ⟨_, level', _, ?_, ahead, after⟩
  rw [labelledRows, hsplit, List.flatMap_append, List.flatMap_cons]
  simp [Row.withLabel, Line.start?, hname]

/-- Where nothing starts at `o`, no label of `o` is printed. -/
theorem not_label_of_not_mem {b : Block} (level : Nat) (h : o ∉ startsOf b.statements) :
    ∀ r ∈ b.labelledRows labels level, ∀ name, r.line ≠ .label o name := by
  intro r hr name heq
  obtain ⟨r', hr', hmem⟩ := List.mem_flatMap.1 hr
  have standing := startsIn_rowsOf level b.statements r' hr'
  unfold Row.withLabel at hmem
  split at hmem
  · rw [← List.mem_singleton.1 hmem, heq] at standing
    exact standing
  · next label hlabelled =>
    obtain ⟨o', ho', hname⟩ := Option.bind_eq_some_iff.1 hlabelled
    obtain ⟨name', -, rfl⟩ := Option.map_eq_some_iff.1 hname
    rcases List.mem_cons.1 hmem with rfl | hmem
    · cases heq
      cases hline : r'.line with
      | label => rw [hline] at standing; exact standing
      | _ => rw [hline] at standing ho'; exact h (standing _ ho')
    · rw [← List.mem_singleton.1 hmem, heq] at standing
      exact standing

/-! ### What is left of a body -/

/-- What is printed of a block once labels and default values are taken out. -/
def restored (options : Options) (c : Block) : Block :=
  if options.structured then (c.structuredBy options).value.withoutRedundantReturns else c

/-- What is printed of a body. -/
def printed (options : Options) (b : Block) : Block :=
  (b.takeLabels.2.takeDefaults options.optionalParams.val).2.restored options

/-- The lines that are printed of a body. -/
def printedRows (options : Options) (b : Block) : List Row :=
  (b.printed options).labelledRows b.takeLabels.1 0

/-- The elision of returns drops the instruction of an entry: no jump is left, and the instruction stands
behind a return directly in the structured body. -/
def Elides (options : Options) (b : Block) (e : Entry) : Prop :=
  options.structured = true ∧ (b.structuredBy options).value.hasRawJumps = false ∧
    ∃ kept last dropped, (b.structuredBy options).value.statements = kept ++ last :: dropped ∧
      last.isPlain Token.isReturn = true ∧ Shows dropped e

theorem text_decompile (options : Options) (b : Block) :
    (b.decompile options).text = String.join ((b.printedRows options).map
      (Row.text ⟨options.indentWidth.val, options.showOffsets, b.takeLabels.1⟩)) := by
  unfold decompile printedRows printed restored
  dsimp only
  rw [print_eq]
  cases options.structured <;> rfl

theorem structuredBy_eq (options : Options) (b : Block) :
    ∃ limit, b.structuredBy options = b.structureWithin limit := by
  unfold structuredBy
  split
  · exact ⟨_, rfl⟩
  · exact ⟨_, rfl⟩

theorem accounted_structuredBy (options : Options) (b : Block) :
    Accounted (outlineOf b.statements) (outlineOf (b.structuredBy options).value.statements) := by
  obtain ⟨limit, h⟩ := structuredBy_eq options b
  rw [h]
  refine value_structureWithin_induction
    (R := fun b c => Accounted (outlineOf b.statements) (outlineOf c.statements))
    (fun _ => .refl _) Accounted.trans (fun b r hr inner => ?_) limit b
  obtain ⟨i, hi⟩ := rewriteAt_of_firstRewrite? hr
  exact hi.accounted_rewritten inner

theorem laid_structuredBy (options : Options) {b : Block} (laid : Laid b.statements) :
    Laid (b.structuredBy options).value.statements := by
  obtain ⟨limit, h⟩ := structuredBy_eq options b
  rw [h]
  exact laid_structureWithin limit laid

/-! ### Elision -/

variable {c : Block} {e : Entry}

theorem shows_append {l m : List Statement} : Shows (l ++ m) e ↔ Shows l e ∨ Shows m e := by
  rw [Shows, outlineOf_append, List.mem_append]
  rfl

/-- A return shows no other instruction. -/
theorem not_shows_return {s : Statement} (h : s.isPlain Token.isReturn = true)
    (he : e.token.isReturn = false) : ¬Shows [s] e := by
  obtain ⟨t, ht, hreturn⟩ := isPlain_iff.1 h
  intro hs
  rw [Shows, outlineOf_cons, outline_of_token? ht] at hs
  have heq := List.mem_singleton.1 hs
  simp only [Prod.mk.injEq, Item.instruction.injEq] at heq
  rw [heq.2.2, hreturn] at he
  cases he

theorem upToReturn_cases (c : Block) :
    c.upToReturn = c ∨ ∃ kept last dropped, c.statements = kept ++ last :: dropped ∧
      last.isPlain Token.isReturn = true ∧
        (c.upToReturn.statements = kept ∨ c.upToReturn.statements = kept ++ [last]) := by
  unfold upToReturn
  split
  · exact .inl rfl
  · next i hi =>
    obtain ⟨hlt, hreturn, -⟩ := List.findIdx?_eq_some_iff_getElem.1 hi
    refine .inr ⟨c.statements.take i, c.statements[i], c.statements.drop (i + 1), ?_, hreturn, ?_⟩
    · rw [← List.drop_eq_getElem_cons hlt, List.take_append_drop]
    · split
      · exact .inl rfl
      · exact .inr (List.take_succ_eq_append_getElem hlt)

/-- An instruction other than a return is still there after elision, or it stood behind a return where
no jump was left; then nothing that is left starts there. -/
theorem shows_or_dropped (laid : Laid c.statements) (shows : Shows c.statements e)
    (he : e.token.isReturn = false) :
    Shows c.withoutRedundantReturns.statements e ∨
      (c.hasRawJumps = false ∧
        (∃ kept last dropped, c.statements = kept ++ last :: dropped ∧
          last.isPlain Token.isReturn = true ∧ Shows dropped e) ∧
        e.offset ∉ startsOf c.withoutRedundantReturns.statements) := by
  obtain ⟨tail, htail, hno⟩ : ∃ tail, c.statements = c.withoutTrailingErrorReturn.statements ++ tail ∧
      ¬Shows tail e := by
    rcases c.trimLast_cases Token.isErrorReturn with h | ⟨s, hs, h⟩
    · exact ⟨[], by rw [withoutTrailingErrorReturn, h, List.append_nil], List.not_mem_nil⟩
    · obtain ⟨t, ht, herror⟩ := isPlain_iff.1 hs
      exact ⟨[s], h, not_shows_return
        (isPlain_iff.2 ⟨t, ht, Token.isReturn_of_isErrorReturn herror⟩) he⟩
  have shows' := (shows_append.1 (htail ▸ shows)).resolve_right hno
  have jumps := hasRawJumps_withoutTrailingErrorReturn c
  rw [withoutRedundantReturns]
  split
  · exact .inl shows'
  · next hjumps =>
    rcases upToReturn_cases c.withoutTrailingErrorReturn with h | ⟨kept, last, dropped, h, hlast, hkept⟩
    · rw [h]
      exact .inl shows'
    have hnot := not_shows_return hlast he
    rw [h, ← List.singleton_append] at shows'
    have laid' : Laid (kept ++ [last] ++ dropped) :=
      laid.sublist (by rw [htail, h]; simp)
    rcases shows_append.1 shows' with hshows | hshows
    · refine .inl ?_
      rcases hkept with hkept | hkept
      · exact hkept ▸ hshows
      · exact hkept ▸ shows_append.2 (.inl hshows)
    · have hdropped := (shows_append.1 hshows).resolve_left hnot
      refine .inr ⟨by rwa [← jumps, ← Bool.not_eq_true], ⟨kept, last, dropped ++ tail, ?_, hlast,
        shows_append.2 (.inl hdropped)⟩, fun hmem => ?_⟩
      · rw [htail, h, List.append_assoc, List.cons_append]
      · -- What is left starts before what was dropped.
        have hleft : e.offset ∈ startsOf (kept ++ [last]) := by
          refine startsOf_mono (fun s hs => ?_) hmem
          rcases hkept with hkept | hkept
          · exact List.mem_append_left _ (hkept ▸ hs)
          · exact hkept ▸ hs
        obtain ⟨x, hx, hstart⟩ := mem_startsOf.1 (mem_startsOf_of_mem_outlineOf dropped hdropped)
        exact absurd (laid'.lt_of_append hleft hx)
          (Nat.not_lt.2 (laid'.inside x (List.mem_append_right _ hx) _ hstart))

theorem outlineOf_sublist {l m : List Statement} (h : l.Sublist m) :
    (outlineOf l).Sublist (outlineOf m) := by
  induction h with
  | slnil => exact .slnil
  | cons _ _ ih => exact ih.trans (List.sublist_append_right ..)
  | cons_cons _ _ ih => exact (List.Sublist.refl _).append ih

theorem labelledOnce_or_elides (options : Options) (laid : Laid c.statements)
    (nodup : ((outlineOf c.statements).map Prod.fst).Nodup) (shows : Shows c.statements e)
    {text : String} (expression : e.token = .expression text) (shown : text.isEmpty = false)
    (labelled : labels.label? e.offset = some name) :
    LabelledOnce e.offset name (.instruction e.offset e.stop? e.token)
        ((c.restored options).labelledRows labels 0) ∨
      Elides options c e ∧
        ∀ r ∈ (c.restored options).labelledRows labels 0, ∀ n, r.line ≠ .label e.offset n := by
  have hshown : e.token.text.isEmpty = false := by rwa [expression]
  have hclause : e.token.isCaseLabel = false := by rw [expression]; rfl
  unfold restored
  split
  · next hstructured =>
    have accounted := accounted_structuredBy options c
    have hleft : Shows (c.structuredBy options).value.statements e :=
      accounted.mem shows (by rw [expression]; rfl) (by rw [expression]; rfl)
    rcases shows_or_dropped (laid_structuredBy options laid) hleft (by rw [expression]; rfl) with
      h | ⟨jumps, dropped, hnot⟩
    · refine .inl (labelledOnce_of_mem 0 ?_ h hshown hclause labelled)
      exact (nodup.sublist accounted.sublist).sublist
        ((outlineOf_sublist (withoutRedundantReturns_isPrefix _).sublist).map _)
    · exact .inr ⟨⟨hstructured, jumps, dropped⟩, not_label_of_not_mem 0 hnot⟩
  · exact .inl (labelledOnce_of_mem 0 nodup shows hshown hclause labelled)

end Block

namespace Listing

open Statement Block

theorem takeLabels_block (l : Listing) :
    l.block.takeLabels.2 = block (l.filter fun e => e.token.labelTable?.isNone) := by
  rw [takeLabels, block, block, List.filter_map]
  rfl

theorem outlineOf_block (l : Listing) :
    outlineOf l.block.statements = l.map fun e => (e.offset, .instruction e.stop? e.token) := by
  rw [block]
  induction l with
  | nil => rfl
  | cons e rest ih =>
    rw [List.map_cons, outlineOf_cons, List.map_cons, ih]
    rfl

/-- **The label of an expression is printed once, directly before it**, unless the expression is elided;
then it is not printed. Where a second branch begins with the expression, the label may also stand before
the head of the branch. -/
theorem labelledOnce_or_elided (options : Options) (l : Listing) (sorted : fault? l = none)
    (params : options.optionalParams.val = 0) {e : Entry} (he : e ∈ l) {text name : String}
    (expression : e.token = .expression text) (shown : text.isEmpty = false)
    (labelled : l.block.takeLabels.1.label? e.offset = some name) :
    ∃ body, l.decompile options = .ok body ∧
      body.text = String.join ((l.block.printedRows options).map
        (Row.text ⟨options.indentWidth.val, options.showOffsets, l.block.takeLabels.1⟩)) ∧
      (LabelledOnce e.offset name (.instruction e.offset e.stop? e.token)
          (l.block.printedRows options) ∨
        Elides options l.block.takeLabels.2 e ∧
          ∀ r ∈ l.block.printedRows options, ∀ n, r.line ≠ .label e.offset n) := by
  refine ⟨l.block.decompile options, ?_, text_decompile options l.block, ?_⟩
  · rw [Listing.decompile, body, sorted]
    rfl
  have hmem : e ∈ l.filter fun e => e.token.labelTable?.isNone :=
    List.mem_filter.2 ⟨he, by rw [expression]; rfl⟩
  have increasing := ((fault?_eq_none_iff l).1 sorted).sublist
    ((List.filter_sublist (p := fun e => e.token.labelTable?.isNone) (l := l)).map Entry.offset)
  rw [printedRows, printed, params, takeDefaults, takeLabels_block]
  refine labelledOnce_or_elides options (laid_block ((fault?_eq_none_iff _).2 increasing)) ?_ ?_
    expression shown labelled
  · rw [outlineOf_block, List.map_map]
    exact increasing.imp Fin.ne_of_lt
  · rw [Shows, outlineOf_block]
    exact List.mem_map_of_mem (f := fun e => (e.offset, Item.instruction e.stop? e.token)) hmem

/-- A conditional whose second branch begins with a named expression. -/
def namedBranch : Listing :=
  [⟨0, none, .jumpIfNot (.expression "Ready") 20⟩, ⟨5, none, .expression "Start()"⟩,
    ⟨10, none, .jump 30⟩, ⟨20, none, .expression "Wait()"⟩, ⟨30, none, .expression "Done()"⟩,
    ⟨40, none, .labelTable (.ofList [(20, "Busy")])⟩]

theorem labelledOnce_or_elided_namedBranch :
    fault? namedBranch = none ∧ Options.standard.optionalParams.val = 0 ∧
      (⟨20, none, .expression "Wait()"⟩ : Entry) ∈ namedBranch ∧
      "Wait()".isEmpty = false ∧
      namedBranch.block.takeLabels.1.label? 20 = some "Busy" ∧
      ∃ body, namedBranch.decompile Options.standard = .ok body ∧
        body.text = String.join ((namedBranch.block.printedRows Options.standard).map
          (Row.text ⟨Options.standard.indentWidth.val, Options.standard.showOffsets,
            namedBranch.block.takeLabels.1⟩)) ∧
        (LabelledOnce 20 "Busy" (.instruction 20 none (.expression "Wait()"))
            (namedBranch.block.printedRows Options.standard) ∨
          Elides Options.standard namedBranch.block.takeLabels.2
              ⟨20, none, .expression "Wait()"⟩ ∧
            ∀ r ∈ namedBranch.block.printedRows Options.standard, ∀ n,
              r.line ≠ .label 20 n) :=
  ⟨by decide, rfl, by decide, by decide, by decide,
    labelledOnce_or_elided Options.standard namedBranch (by decide) rfl
      (e := ⟨20, none, .expression "Wait()"⟩) (by decide) rfl (by decide) (by decide)⟩

/-- A named expression behind a return. -/
def namedRest : Listing :=
  [⟨0, none, .labelTable (.ofList [(2, "Rest")])⟩, ⟨1, none, .retValue (.expression "Value")⟩,
    ⟨2, none, .expression "Stop()"⟩]

/-- The label of the expression behind the return is not printed, that of the expression in the second
branch is printed twice. -/
theorem label_lost_or_doubled :
    (fault? namedRest = none ∧ (⟨2, none, .expression "Stop()"⟩ : Entry) ∈ namedRest ∧
      namedRest.block.takeLabels.1.label? 2 = some "Rest" ∧
      (namedRest.block.printedRows Options.standard).countP (·.line == .label 2 "Rest") = 0) ∧
    (fault? namedBranch = none ∧ (⟨20, none, .expression "Wait()"⟩ : Entry) ∈ namedBranch ∧
      namedBranch.block.takeLabels.1.label? 20 = some "Busy" ∧
      (namedBranch.block.printedRows Options.standard).countP (·.line == .label 20 "Busy") = 2) :=
  ⟨⟨by decide, by decide, by decide, by decide⟩, by decide, by decide, by decide, by decide⟩

end Listing

end FlowRecovery
