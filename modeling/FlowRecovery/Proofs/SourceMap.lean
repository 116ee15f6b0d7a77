import FlowRecovery.Inspection
import FlowRecovery.Proofs.Rendering
import FlowRecovery.Proofs.Rewriting
import Mathlib.Data.List.Forall2

/-!
# The source map of a printed block

Which instructions the source map is about, and at which level each of them stands, is read off the
block by recursion on the statements (`Statement.noted`): every instruction with a text, in the order
of the code, except for the clause labels directly in a selection. A line of a text is what stands
between two of its newlines (`linesOf`).

`Printer.sourceMap_shows` says that the source map has one span for each of these instructions, in that
order, and that the line a span names is the line of its instruction. Nothing that is printed may hold
a newline of its own (`Block.Unbroken`).

The proof goes over the lines of `Block.labelledRows`. Cut at its newlines, the text is these lines and
an empty one at the end (`linesOf_text`), and a span is the place of an instruction among them
(`shows_rows`).
-/

namespace FlowRecovery

/-- The lines of a text, which end at its newlines, and what stands behind the last newline. -/
def linesOf (text : String) : List String := (text.toList.splitOn '\n').map String.ofList

/-- An instruction that the source map notes. -/
structure Noted where
  /-- The level of indentation it is written at. -/
  level : Nat
  /-- Where it starts. -/
  start : Offset
  /-- Where it ends, if that is known. -/
  stop? : Option Offset
  /-- The instruction. -/
  token : Token
  deriving DecidableEq

/-- The line of an instruction: the blanks of its level, its offset if offsets are shown, and its
text. -/
def Noted.line (layout : Layout) (n : Noted) : String :=
  String.ofList (List.replicate (n.level * layout.indentWidth) ' ') ++
    ((if layout.showOffsets then "/* " ++ n.start.text ++ " */ " else "") ++ n.token.text ++ ";")

/-- The span has the offsets of the instruction, and the text its line where the span says. -/
structure Span.Shows (layout : Layout) (text : String) (n : Noted) (span : Span) : Prop where
  /-- The span starts where the instruction does. -/
  start : span.start = n.start
  /-- The span ends where the instruction does. -/
  stop? : span.stop? = n.stop?
  /-- The line that the span names. -/
  line : (linesOf text)[span.line]? = some (n.line layout)

namespace Statement

mutual

/-- The instructions in a statement at a level that the source map notes, in the order of the code. -/
def noted (level : Nat) : Statement → List Noted
  | plain start stop? _ token => if token.text = "" then [] else [⟨level, start, stop?, token⟩]
  | escape _ _ _ _ => []
  | composite _ _ head _ _ children =>
      match head.kind with
      | .switchBlock => notedInClauses level children
      | _ => notedOf (level + 1) children

/-- The instructions in statements at a level that the source map notes. -/
def notedOf (level : Nat) : List Statement → List Noted
  | [] => []
  | s :: rest => noted level s ++ notedOf level rest

/-- The instructions among the children of a selection at a level that the source map notes. The
children stand two levels in; the clause labels among them are not noted. -/
def notedInClauses (level : Nat) : List Statement → List Noted
  | [] => []
  | s :: rest =>
      (if s.isPlain Token.isCaseLabel then [] else noted (level + 2) s) ++ notedInClauses level rest

end

/-- What the statement itself shows holds a newline: the text of an instruction, or the head of a
composite statement. -/
def breaksLine : Statement → Bool
  | plain _ _ _ token => '\n' ∈ token.text.toList
  | escape _ _ _ _ => false
  | composite _ _ head _ _ _ => '\n' ∈ head.text.toList

end Statement

/-- Neither the statements of a block, at any depth, nor the labels hold a newline. -/
def Block.Unbroken (labels : Labels) (b : Block) : Prop :=
  Statement.anyOf Statement.breaksLine b.statements = false ∧
    ∀ entry ∈ labels.entries, '\n' ∉ entry.2.toList

/-! ### Cutting a text into lines -/

theorem linesOf_line {line : String} (unbroken : '\n' ∉ line.toList) (text : String) :
    linesOf (line ++ "\n" ++ text) = line :: linesOf text := by
  have cut : (line.toList ++ '\n' :: text.toList).splitOnP (· == '\n') = _ :=
    List.splitOnP_append_cons line.toList text.toList rfl
  have whole : line.toList.splitOnP (· == '\n') = [line.toList] :=
    List.splitOnP_eq_singleton fun c hc => by
      rw [beq_eq_false_iff_ne]
      rintro rfl
      exact unbroken hc
  have chars : (line ++ "\n" ++ text).toList = line.toList ++ '\n' :: text.toList := by simp
  rw [linesOf, List.splitOn, chars, cut, whole]
  simp [linesOf, List.splitOn]

/-- Lines that are written one after the other are read back. -/
theorem linesOf_join {l : List String} (unbroken : ∀ line ∈ l, '\n' ∉ line.toList) :
    linesOf (String.join (l.map (· ++ "\n"))) = l ++ [""] := by
  induction l with
  | nil => rfl
  | cons line rest ih =>
    rw [List.map_cons, String.join_cons, linesOf_line (unbroken line (List.mem_cons_self ..)),
      ih fun line hline => unbroken line (List.mem_cons_of_mem _ hline), List.cons_append]

/-! ### The lines of instructions -/

namespace Row

/-- A line as it is written, without the newline at its end. -/
def written (layout : Layout) (r : Row) : String :=
  String.ofList (List.replicate (r.level * layout.indentWidth) ' ') ++ r.line.text layout

/-- The instruction that a line shows. -/
def noted? (r : Row) : Option Noted :=
  match r.line with
  | .instruction start stop? token => some ⟨r.level, start, stop?, token⟩
  | _ => none

/-- The source map notes the lines that show an instruction. -/
theorem span?_eq (r : Row) (number : Nat) :
    r.line.span? number = r.noted?.map fun n => ⟨number, n.start, n.stop?⟩ := by
  obtain ⟨level, line⟩ := r
  cases line <;> rfl

theorem written_of_noted? {layout : Layout} {r : Row} {n : Noted} (h : r.noted? = some n) :
    r.written layout = n.line layout := by
  obtain ⟨level, line⟩ := r
  cases line with
  | instruction start stop? token =>
    cases h
    rw [written, Line.text, Printer.instructionLine, Noted.line]
    split <;> simp [String.append_assoc]
  | _ => cases h

/-- A line has a label of the table in front, or none. -/
theorem withLabel_cases (labels : Labels) (r : Row) :
    r.withLabel labels = [r] ∨
      ∃ o name, labels.label? o = some name ∧ r.withLabel labels = [⟨r.level, .label o name⟩, r] := by
  unfold withLabel
  split
  · exact .inl rfl
  · next label h =>
    obtain ⟨o, -, hmap⟩ := Option.bind_eq_some_iff.1 h
    obtain ⟨name, hname, rfl⟩ := Option.map_eq_some_iff.1 hmap
    exact .inr ⟨o, name, hname, rfl⟩

/-- Labels come on lines of their own, which show no instruction. -/
theorem noted?_withLabel (labels : Labels) (r : Row) :
    (r.withLabel labels).filterMap noted? = [r].filterMap noted? := by
  obtain h | ⟨o, name, -, h⟩ := withLabel_cases labels r
  · rw [h]
  · rw [h]
    rfl

/-- The head and the braces of a composite statement show no instruction. -/
theorem noted?_framed (level : Nat) (start : Offset) (head : Head) (inside : List Row) :
    (⟨level, .head start head⟩ :: ⟨level, .opening⟩ :: (inside ++ [⟨level, .closing⟩])).filterMap noted? =
      inside.filterMap noted? := by
  rw [List.filterMap_cons_none rfl, List.filterMap_cons_none rfl, List.filterMap_append,
    List.filterMap_cons_none rfl, List.filterMap_nil, List.append_nil]

theorem noted?_flatMap_withLabel (labels : Labels) (l : List Row) :
    (l.flatMap (withLabel labels)).filterMap noted? = l.filterMap noted? := by
  induction l with
  | nil => rfl
  | cons r rest ih =>
    rw [List.flatMap_cons, List.filterMap_append, noted?_withLabel, ih, ← List.filterMap_append]
    rfl

end Row

namespace Statement

mutual

/-- The lines of a statement show the instructions that are noted. -/
theorem noted?_rows (level : Nat) : (s : Statement) →
    (s.rows level).filterMap Row.noted? = s.noted level
  | plain start stop? scope token => by
    rw [rows, noted]
    simp only [String.isEmpty_iff]
    split <;> rfl
  | escape start scope how token => rfl
  | composite start scope head stop inner children => by
    have inside := noted?_rowsOf (level + 1) children
    have clauses := noted?_clauseRows level children
    rw [rows, Row.noted?_framed, noted]
    cases head with
    | switchHead => exact clauses
    | ifHead | elseHead | whileHead | foreachHead => exact inside

theorem noted?_rowsOf (level : Nat) : (l : List Statement) →
    (rowsOf level l).filterMap Row.noted? = notedOf level l
  | [] => rfl
  | s :: rest => by
    rw [rowsOf, notedOf, List.filterMap_append, noted?_rows level s, noted?_rowsOf level rest]

theorem noted?_clauseRows (level : Nat) : (l : List Statement) →
    (clauseRows (level + 1) l).filterMap Row.noted? = notedInClauses level l
  | [] => rfl
  | s :: rest => by
    rw [clauseRows, notedInClauses, List.filterMap_append, noted?_clauseRows level rest]
    congr 1
    cases h : s.token?.filter Token.isCaseLabel with
    | some label =>
      obtain ⟨htoken, hlabel⟩ := Option.filter_eq_some_iff.1 h
      rw [if_pos (isPlain_iff.2 ⟨label, htoken, hlabel⟩)]
      rfl
    | none =>
      have noLabel : ¬s.isPlain Token.isCaseLabel = true := fun hplain => by
        obtain ⟨token, htoken, hlabel⟩ := isPlain_iff.1 hplain
        exact Option.filter_eq_none_iff.1 h token htoken hlabel
      rw [if_neg noLabel]
      exact noted?_rows (level + 2) s

end

end Statement

/-! ### Newlines -/

/-- An offset is written in digits. -/
theorem Offset.unbroken_text (o : Offset) : '\n' ∉ o.text.toList := by
  intro h
  rw [Offset.text, Nat.toList_repr] at h
  exact absurd (Nat.isDigit_of_mem_toDigits (by decide) (by decide) h) (by decide)

theorem Printer.unbroken_instructionLine (layout : Layout) (start : Offset) {text : String}
    (unbroken : '\n' ∉ text.toList) : '\n' ∉ (instructionLine layout start text).toList := by
  have hstart := start.unbroken_text
  unfold instructionLine
  split <;> simp [unbroken, hstart]

theorem Escape.unbroken_keyword (how : Escape) : '\n' ∉ (how.keyword ++ ";").toList := by
  cases how <;> decide

/-- The line itself, without its indentation, holds no newline. -/
def Row.Whole (layout : Layout) (r : Row) : Prop := '\n' ∉ (r.line.text layout).toList

namespace Row

variable {layout : Layout} {labels : Labels}

theorem Whole.written {r : Row} (h : r.Whole layout) : '\n' ∉ (r.written layout).toList := by
  rw [Row.written, String.toList_append, List.mem_append, String.toList_ofList]
  rintro (blank | hline)
  · exact absurd (List.eq_of_mem_replicate blank) (by decide)
  · exact h hline

theorem whole_withLabel (unbroken : ∀ entry ∈ labels.entries, '\n' ∉ entry.2.toList) {r : Row}
    (h : r.Whole layout) : ∀ x ∈ r.withLabel labels, x.Whole layout := by
  obtain hlabel | ⟨o, name, hname, hlabel⟩ := withLabel_cases labels r
  · rw [hlabel, List.forall_mem_singleton]
    exact h
  · have unbrokenName : '\n' ∉ name.toList := unbroken (o, name) (mem_of_nameIn? hname)
    have whole : Whole layout ⟨r.level, .label o name⟩ := by simp [Whole, Line.text, unbrokenName]
    rw [hlabel, List.forall_mem_cons, List.forall_mem_singleton]
    exact ⟨whole, h⟩

end Row

namespace Statement

theorem unbroken_of_token? {s : Statement} {token : Token} (unbroken : s.any breaksLine = false)
    (h : s.token? = some token) : '\n' ∉ token.text.toList := by
  cases s with
  | plain =>
    cases h
    rwa [any, breaksLine, decide_eq_false_iff_not] at unbroken
  | _ => cases h

variable (layout : Layout)

mutual

theorem whole_rows (level : Nat) : (s : Statement) → s.any breaksLine = false →
    ∀ r ∈ s.rows level, r.Whole layout
  | plain start stop? scope token, h => by
    rw [any, breaksLine, decide_eq_false_iff_not] at h
    rw [rows]
    split
    · simp
    · rw [List.forall_mem_singleton]
      exact Printer.unbroken_instructionLine layout start h
  | escape start scope how token, _ => by
    rw [rows, List.forall_mem_singleton]
    exact how.unbroken_keyword
  | composite start scope head stop inner children, h => by
    rw [any, Bool.or_eq_false_iff, breaksLine, decide_eq_false_iff_not] at h
    obtain ⟨hhead, hchildren⟩ := h
    have ofList := whole_rowsOf (level + 1) children hchildren
    have ofClauses := whole_clauseRows (level + 1) children hchildren
    obtain ⟨inside, hcases, hrows⟩ := rows_composite level start scope head stop inner children
    have hinside : ∀ r ∈ inside, r.Whole layout := by
      rcases hcases with rfl | rfl
      · exact ofList
      · exact ofClauses
    intro r hr
    simp only [hrows, List.mem_cons, List.mem_append, List.not_mem_nil, or_false] at hr
    rcases hr with rfl | rfl | hr | rfl
    · exact hhead
    · exact (by decide : '\n' ∉ "\x7b".toList)
    · exact hinside r hr
    · exact (by decide : '\n' ∉ "\x7d".toList)

theorem whole_rowsOf (level : Nat) : (l : List Statement) → anyOf breaksLine l = false →
    ∀ r ∈ rowsOf level l, r.Whole layout
  | [], _ => by simp [rowsOf]
  | s :: rest, h => by
    obtain ⟨hs, hrest⟩ := Bool.or_eq_false_iff.1 h
    intro r hr
    rcases List.mem_append.1 hr with hr | hr
    · exact whole_rows level s hs r hr
    · exact whole_rowsOf level rest hrest r hr

theorem whole_clauseRows (level : Nat) : (l : List Statement) → anyOf breaksLine l = false →
    ∀ r ∈ clauseRows level l, r.Whole layout
  | [], _ => by simp [clauseRows]
  | s :: rest, h => by
    obtain ⟨hs, hrest⟩ := Bool.or_eq_false_iff.1 h
    intro r hr
    rw [clauseRows] at hr
    rcases List.mem_append.1 hr with hr | hr
    · cases h : s.token?.filter Token.isCaseLabel with
      | some label =>
        have unbroken := unbroken_of_token? hs (Option.filter_eq_some_iff.1 h).1
        rw [h, List.mem_singleton] at hr
        subst hr
        simp [Row.Whole, Line.text, unbroken]
      | none =>
        rw [h] at hr
        exact whole_rows (level + 1) s hs r hr
    · exact whole_clauseRows level rest hrest r hr

end

end Statement

theorem Block.whole_labelledRows {labels : Labels} {b : Block} (unbroken : b.Unbroken labels)
    (layout : Layout) (level : Nat) : ∀ r ∈ b.labelledRows labels level, r.Whole layout := by
  intro r hr
  obtain ⟨bare, hbare, hr⟩ := List.mem_flatMap.1 hr
  have whole := Statement.whole_rowsOf layout level b.statements unbroken.1 bare hbare
  exact Row.whole_withLabel unbroken.2 whole r hr

/-! ### The lines that the source map names -/

namespace Row

variable {layout : Layout} {l : List Row}

/-- Cut at its newlines, the text of lines is these lines. -/
theorem linesOf_text (whole : ∀ r ∈ l, r.Whole layout) :
    linesOf (String.join (l.map (text layout))) = l.map (written layout) ++ [""] := by
  have lines : l.map (text layout) = (l.map (written layout)).map (· ++ "\n") := by
    rw [List.map_map]
    rfl
  rw [lines, linesOf_join]
  intro line hline
  obtain ⟨r, hr, rfl⟩ := List.mem_map.1 hline
  exact (whole r hr).written

/-- The spans of lines show the instructions on them. -/
theorem shows_rows (whole : ∀ r ∈ l, r.Whole layout) :
    List.Forall₂ (Span.Shows layout (String.join (l.map (text layout)))) (l.filterMap noted?)
      (l.zipIdx.filterMap fun (r, number) => r.line.span? number) := by
  have numbered : l.filterMap noted? = l.zipIdx.filterMap fun (r, _) => r.noted? := by
    conv_lhs => rw [← List.zipIdx_map_fst 0 l, List.filterMap_map]
    rfl
  rw [numbered]
  refine List.rel_filterMap (R := fun x y => x = y ∧ x ∈ l.zipIdx) ?_
    (List.forall₂_same.2 fun _ hx => ⟨rfl, hx⟩)
  rintro ⟨r, number⟩ _ ⟨rfl, hmem⟩
  show Option.Rel _ r.noted? (r.line.span? number)
  rw [span?_eq]
  cases h : r.noted? with
  | none => exact .none
  | some n =>
    have place : l[number]? = some r := List.mk_mem_zipIdx_iff_getElem?.1 hmem
    refine .some ⟨rfl, rfl, ?_⟩
    rw [linesOf_text whole, List.getElem?_append_left, List.getElem?_map, place, ← written_of_noted? h]
    · rfl
    · rw [List.length_map]
      exact (List.getElem?_eq_some_iff.1 place).1

/-- Spans further behind name lines further down. -/
theorem pairwise_spans (l : List Row) :
    (l.zipIdx.filterMap fun (r, number) => r.line.span? number).Pairwise
      fun span later => span.line < later.line := by
  have numbers : (l.zipIdx.map Prod.snd).Pairwise (· < ·) := by
    rw [List.zipIdx_map_snd]
    exact List.pairwise_lt_range'
  rw [List.pairwise_filterMap]
  refine (List.pairwise_map.1 numbers).imp ?_
  rintro ⟨r, number⟩ ⟨r', number'⟩ hlt span hspan span' hspan'
  obtain ⟨n, -, rfl⟩ := Option.map_eq_some_iff.1 ((r.span?_eq number).symm.trans hspan)
  obtain ⟨n', -, rfl⟩ := Option.map_eq_some_iff.1 ((r'.span?_eq number').symm.trans hspan')
  exact hlt

end Row

namespace Printer

/-- **The source map shows the right lines.** Whatever the printer has written before, its source map
has one span for each instruction that is noted, in the order of the code; the spans go down line by
line, and each has the offsets of its instruction and the number of the line with its text. -/
theorem sourceMap_shows (p : Printer) (b : Block) (unbroken : b.Unbroken p.layout.labels) :
    (p.print b).2.spans.toList.Pairwise (fun span later => span.line < later.line) ∧
      List.Forall₂ (Span.Shows p.layout (p.print b).1) (Statement.notedOf p.level b.statements)
        (p.print b).2.spans.toList := by
  have text : (p.print b).1 = (b.print p.layout p.level).1 := rfl
  have spans : (p.print b).2.spans.toList = (b.print p.layout p.level).2 := rfl
  have noted : (b.labelledRows p.layout.labels p.level).filterMap Row.noted? =
      Statement.notedOf p.level b.statements := by
    rw [Block.labelledRows, Row.noted?_flatMap_withLabel, Statement.noted?_rowsOf]
  rw [text, spans, Block.print_eq, ← noted]
  exact ⟨Row.pairwise_spans _, Row.shows_rows (b.whole_labelledRows unbroken p.layout p.level)⟩

/-- A selection in a loop. Among its children are clause labels, an instruction without a text, a
labelled instruction whose end is known, and a conditional with a clause label of its own. -/
def modeLoop : Block :=
  .ofStatements
    [.wrap 0 (.whileHead (.expression "Ready"))
      [.wrap 4 (.switchHead (.expression "Mode"))
        [.ofToken 6 (.caseLabel "0"), .ofToken 7 .nothing, .plain 8 (some 12) [] (.expression "Start()"),
          .wrap 12 (.ifHead (.expression "Busy")) [.ofToken 13 .defaultLabel] 14,
          .escape 20 [] .leave (.jump 40)] 40] 40,
      .ofToken 40 .ret]

/-- A printer one level in that shows offsets and two labels. -/
def modePrinter : Printer := new ⟨2, true, .ofList [(8, "Begin"), (40, "Done")]⟩ 1

theorem sourceMap_shows_modeLoop :
    modeLoop.Unbroken modePrinter.layout.labels ∧
      Statement.notedOf modePrinter.level modeLoop.statements =
        [⟨4, 8, some 12, .expression "Start()"⟩, ⟨5, 13, none, .defaultLabel⟩, ⟨1, 40, none, .ret⟩] ∧
      (modePrinter.print modeLoop).2.spans.toList.Pairwise (fun span later => span.line < later.line) ∧
      List.Forall₂ (Span.Shows modePrinter.layout (modePrinter.print modeLoop).1)
        (Statement.notedOf modePrinter.level modeLoop.statements)
        (modePrinter.print modeLoop).2.spans.toList := by
  have unbroken : modeLoop.Unbroken modePrinter.layout.labels := ⟨by decide, by decide⟩
  exact ⟨unbroken, by decide, sourceMap_shows modePrinter modeLoop unbroken⟩

end Printer

end FlowRecovery
