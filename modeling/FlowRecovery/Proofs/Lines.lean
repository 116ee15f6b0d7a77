import FlowRecovery.Printer

/-!
# The lines of a printed block

What a printer writes is a sequence of lines, each at a level of indentation. The lines of a block are
given by recursion on the statements, with the level handed down (`Statement.rowsOf`): one level
further in for the children of a composite statement, and for those of a selection two, except for the
clause labels. Nothing is remembered from one statement to the next. The labels of offsets come in
afterwards, before the lines of instructions and the heads of composite statements (`Row.withLabel`).

`Block.print_eq` says that a printer writes these lines and notes the instructions among them in the
source map.
-/

namespace FlowRecovery

/-- What a line shows. -/
inductive Line where
  /-- The label of an offset. -/
  | label (start : Offset) (name : String)
  /-- An instruction, with the offset of its end where that is known. -/
  | instruction (start : Offset) (stop? : Option Offset) (token : Token)
  /-- A `break` or `continue`. -/
  | escape (how : Escape)
  /-- The head of a composite statement. -/
  | head (start : Offset) (head : Head)
  /-- The brace before the children of a composite statement. -/
  | opening
  /-- The brace behind them. -/
  | closing
  /-- A clause label of a selection. -/
  | clause (token : Token)
  deriving DecidableEq

namespace Line

/-- The text of a line, without its indentation. -/
def text (layout : Layout) : Line → String
  | label _ name => name ++ ":"
  | instruction start _ token => Printer.instructionLine layout start token.text
  | escape how => how.keyword ++ ";"
  | head _ h => h.text
  | opening => "\x7b"
  | closing => "\x7d"
  | clause token => token.text ++ ":"

/-- The offset of a line that has its label in front. -/
def start? : Line → Option Offset
  | instruction start _ _ | head start _ => some start
  | _ => none

/-- What the source map says of a line with the given number. -/
def span? (number : Nat) : Line → Option Span
  | instruction start stop? _ => some ⟨number, start, stop?⟩
  | _ => none

end Line

/-- A line at a level of indentation. -/
structure Row where
  /-- The level. -/
  level : Nat
  /-- The line. -/
  line : Line
  deriving DecidableEq

namespace Row

/-- A line as it is written. -/
def text (layout : Layout) (r : Row) : String :=
  String.ofList (List.replicate (r.level * layout.indentWidth) ' ') ++ r.line.text layout ++ "\n"

/-- A line with the label of its offset in front, if the line has an offset and the offset a label. -/
def withLabel (labels : Labels) (r : Row) : List Row :=
  match r.line.start?.bind fun o => (labels.label? o).map (Line.label o) with
  | none => [r]
  | some label => [⟨r.level, label⟩, r]

end Row

namespace Statement

mutual

/-- The lines of a statement at a level, without labels. -/
def rows (level : Nat) : Statement → List Row
  | plain start stop? _ token =>
      if token.text.isEmpty then [] else [⟨level, .instruction start stop? token⟩]
  | escape _ _ how _ => [⟨level, .escape how⟩]
  | composite start _ head _ _ children =>
      let inside :=
        match head.kind with
        | .switchBlock => clauseRows (level + 1) children
        | _ => rowsOf (level + 1) children
      ⟨level, .head start head⟩ :: ⟨level, .opening⟩ :: (inside ++ [⟨level, .closing⟩])

/-- The lines of statements at a level. -/
def rowsOf (level : Nat) : List Statement → List Row
  | [] => []
  | s :: rest => rows level s ++ rowsOf level rest

/-- The lines of the children of a selection, with the clause labels at the given level and everything
else one further in. -/
def clauseRows (level : Nat) : List Statement → List Row
  | [] => []
  | s :: rest =>
      (match s.token?.filter Token.isCaseLabel with
        | some label => [⟨level, .clause label⟩]
        | none => rows (level + 1) s) ++ clauseRows level rest

end

/-- The lines inside a composite statement are those of a list, or of the children of a selection. -/
theorem rows_composite (level : Nat) (start : Offset) (scope : Scope) (head : Head) (stop : Offset)
    (inner : Scope) (children : List Statement) :
    ∃ inside, (inside = rowsOf (level + 1) children ∨ inside = clauseRows (level + 1) children) ∧
      rows level (composite start scope head stop inner children) =
        ⟨level, .head start head⟩ :: ⟨level, .opening⟩ :: (inside ++ [⟨level, .closing⟩]) := by
  cases head with
  | switchHead => exact ⟨_, .inr rfl, rfl⟩
  | ifHead | elseHead | whileHead | foreachHead => exact ⟨_, .inl rfl, rfl⟩

end Statement

/-- The lines of a block with the labels of offsets. -/
def Block.labelledRows (labels : Labels) (level : Nat) (b : Block) : List Row :=
  (Statement.rowsOf level b.statements).flatMap (Row.withLabel labels)

namespace Printer

/-- Writes a line at a level. -/
def writeRow (p : Printer) (r : Row) : Printer :=
  { p with
    text := p.text ++ r.text p.layout
    line := p.line + 1
    spans := (r.line.span? p.line).elim p.spans p.spans.push }

/-- Writes lines one after the other. -/
def writeRows (p : Printer) (l : List Row) : Printer := l.foldl writeRow p

/-- Writes lines with the labels of their offsets. -/
def writeLabelled (p : Printer) (l : List Row) : Printer :=
  p.writeRows (l.flatMap (Row.withLabel p.layout.labels))

variable {p : Printer} {l m : List Row} {level : Nat}

@[simp] theorem writeRows_nil : p.writeRows [] = p := rfl

@[simp] theorem writeRows_cons (r : Row) : p.writeRows (r :: l) = (p.writeRow r).writeRows l := rfl

theorem writeRows_append : p.writeRows (l ++ m) = (p.writeRows l).writeRows m := List.foldl_append

theorem layout_writeRows : (p.writeRows l).layout = p.layout := by
  induction l generalizing p with
  | nil => rfl
  | cons r l ih => exact ih

theorem level_writeRows : (p.writeRows l).level = p.level := by
  induction l generalizing p with
  | nil => rfl
  | cons r l ih => exact ih

@[simp] theorem outdent_indent : p.indent.outdent = p := rfl

/-- The level that a printer stands at does not matter to lines with levels of their own. -/
theorem writeRows_indent : p.indent.writeRows l = (p.writeRows l).indent := by
  induction l generalizing p with
  | nil => rfl
  | cons r l ih => exact ih (p := p.writeRow r)

@[simp] theorem layout_writeLabelled : (p.writeLabelled l).layout = p.layout := layout_writeRows

@[simp] theorem level_writeLabelled : (p.writeLabelled l).level = p.level := level_writeRows

theorem writeLabelled_append : p.writeLabelled (l ++ m) = (p.writeLabelled l).writeLabelled m := by
  rw [writeLabelled, List.flatMap_append, writeRows_append, writeLabelled, writeLabelled,
    layout_writeRows]

theorem writeLabelled_indent : p.indent.writeLabelled l = (p.writeLabelled l).indent := writeRows_indent

theorem level_writeLabel (o : Offset) : (p.writeLabel o).level = p.level := by
  unfold writeLabel
  split <;> rfl

/-- A line that is not in the source map. -/
theorem writeLine_eq (line : Line) (span : ∀ n, line.span? n = none) :
    p.writeLine (line.text p.layout) = p.writeRow ⟨p.level, line⟩ := by
  simp [writeLine, writeRow, Row.text, indentation, span, String.append_assoc]

/-- A line without an offset. -/
theorem writeRow_eq {line : Line} (start : line.start? = none) :
    p.writeRow ⟨p.level, line⟩ = p.writeLabelled [⟨p.level, line⟩] := by
  simp [writeLabelled, Row.withLabel, start]

/-- A line without an offset behind others. -/
theorem writeLabelled_writeLine (line : Line) (start : line.start? = none)
    (span : ∀ n, line.span? n = none) :
    (p.writeLabelled l).writeLine (line.text p.layout) = p.writeLabelled (l ++ [⟨p.level, line⟩]) := by
  have := (writeLine_eq (p := p.writeLabelled l) line span).trans (writeRow_eq start)
  rwa [layout_writeLabelled, level_writeLabelled, ← writeLabelled_append] at this

/-- A line with an offset. -/
theorem writeLabel_writeRow {line : Line} {o : Offset} (start : line.start? = some o) :
    (p.writeLabel o).writeRow ⟨p.level, line⟩ = p.writeLabelled [⟨p.level, line⟩] := by
  unfold writeLabel writeLabelled
  cases h : p.layout.labels.label? o with
  | none => simp [Row.withLabel, start, h]
  | some name =>
    have label : p.writeLine (name ++ ":") = p.writeRow ⟨p.level, .label o name⟩ :=
      writeLine_eq (.label o name) fun _ => rfl
    simp [Row.withLabel, start, h, label]

theorem writeInstruction_eq (start : Offset) (stop? : Option Offset) (token : Token) (scope : Scope) :
    p.writeInstruction start stop? token =
      p.writeLabelled ((Statement.plain start stop? scope token).rows p.level) := by
  unfold writeInstruction
  rw [Statement.rows]
  split
  · rfl
  · have labelled : (p.writeLabel start).writeRow ⟨p.level, .instruction start stop? token⟩ = _ :=
      writeLabel_writeRow rfl
    rw [← labelled]
    simp [writeLine, writeRow, Row.text, Line.text, Line.span?, indentation, level_writeLabel,
      String.append_assoc]

/-- The lines before the children of a composite statement. -/
theorem writeHead_eq (start : Offset) (head : Head) :
    ((p.writeLabel start).writeLine head.text).writeLine "\x7b" =
      p.writeLabelled [⟨p.level, .head start head⟩, ⟨p.level, .opening⟩] := by
  have labelled : (p.writeLabel start).writeRow ⟨p.level, .head start head⟩ = _ :=
    writeLabel_writeRow rfl
  have written : (p.writeLabel start).writeLine head.text = p.writeLabelled [⟨p.level, .head start head⟩] := by
    rw [← labelled, ← level_writeLabel start]
    exact writeLine_eq (.head start head) fun _ => rfl
  rw [written]
  exact writeLabelled_writeLine .opening rfl fun _ => rfl

mutual

theorem writeStatement_eq : (s : Statement) → (p : Printer) →
    writeStatement s p = p.writeLabelled (s.rows p.level)
  | .plain start stop? scope token, p => by
    rw [writeStatement, writeInstruction_eq]
  | .escape start scope how token, p => by
    rw [writeStatement, Statement.rows, ← writeRow_eq rfl]
    exact writeLine_eq (.escape how) fun _ => rfl
  | .composite start scope head stop inner children, p => by
    have inside (l : List Row) : (writeAll children (p.writeLabelled l).indent).outdent =
        p.writeLabelled (l ++ Statement.rowsOf (p.level + 1) children) := by
      rw [writeAll_eq children, writeLabelled_indent, outdent_indent, writeLabelled_append, indent,
        level_writeLabelled]
    have clauses (l : List Row) : (writeClauses children false (p.writeLabelled l).indent).outdent =
        p.writeLabelled (l ++ Statement.clauseRows (p.level + 1) children) := by
      rw [(writeClauses_eq children _).1, writeLabelled_indent, outdent_indent, writeLabelled_append,
        indent, level_writeLabelled]
    have closed (l : List Row) :
        (p.writeLabelled l).writeLine "\x7d" = p.writeLabelled (l ++ [⟨p.level, .closing⟩]) :=
      writeLabelled_writeLine .closing rfl fun _ => rfl
    rw [writeStatement, writeHead_eq, Statement.rows]
    cases head with
    | switchHead => simp only [Head.kind, clauses, closed, List.cons_append, List.nil_append]
    | ifHead | elseHead | whileHead | foreachHead =>
      simp only [Head.kind, inside, closed, List.cons_append, List.nil_append]

theorem writeAll_eq : (l : List Statement) → (p : Printer) →
    writeAll l p = p.writeLabelled (Statement.rowsOf p.level l)
  | [], _ => rfl
  | s :: rest, p => by
    rw [writeAll, writeStatement_eq s p, writeAll_eq rest, level_writeLabelled, Statement.rowsOf,
      writeLabelled_append]

/-- The printer stands at the level of the clause labels, or one further in. -/
theorem writeClauses_eq : (l : List Statement) → (p : Printer) →
    writeClauses l false p = p.writeLabelled (Statement.clauseRows p.level l) ∧
      writeClauses l true p.indent = p.writeLabelled (Statement.clauseRows p.level l)
  | [], _ => ⟨rfl, rfl⟩
  | s :: rest, p => by
    rw [writeClauses, writeClauses, Statement.clauseRows]
    cases s.token?.filter Token.isCaseLabel with
    | some label =>
      have written : p.writeLine (label.text ++ ":") = p.writeLabelled [⟨p.level, .clause label⟩] :=
        (writeLine_eq (.clause label) fun _ => rfl).trans (writeRow_eq rfl)
      have ih := (writeClauses_eq rest (p.writeLabelled [⟨p.level, .clause label⟩])).1
      rw [level_writeLabelled, ← writeLabelled_append] at ih
      simp only [Bool.false_eq_true, if_false, if_true, outdent_indent, written]
      exact ⟨ih, ih⟩
    | none =>
      have written : writeStatement s p.indent = (p.writeLabelled (s.rows (p.level + 1))).indent := by
        rw [writeStatement_eq s p.indent, writeLabelled_indent]
        rfl
      have ih := (writeClauses_eq rest (p.writeLabelled (s.rows (p.level + 1)))).2
      rw [level_writeLabelled, ← writeLabelled_append] at ih
      simp only [Bool.false_eq_true, if_false, if_true, written]
      exact ⟨ih, ih⟩

end

theorem text_writeRows :
    (p.writeRows l).text = p.text ++ String.join (l.map (Row.text p.layout)) := by
  induction l generalizing p with
  | nil => rw [writeRows_nil, List.map_nil, String.join_nil, String.append_empty]
  | cons r l ih =>
    rw [writeRows_cons, ih, List.map_cons, String.join_cons, ← String.append_assoc]
    rfl

theorem spans_writeRows :
    (p.writeRows l).spans.toList =
      p.spans.toList ++ (l.zipIdx p.line).filterMap fun (r, number) => r.line.span? number := by
  induction l generalizing p with
  | nil => simp
  | cons r l ih =>
    rw [writeRows_cons, ih, List.zipIdx_cons, List.filterMap_cons]
    cases h : r.line.span? p.line <;> simp [writeRow, h]

end Printer

/-- **A block is printed line by line.** -/
theorem Block.print_eq (layout : Layout) (base : Nat) (b : Block) :
    b.print layout base =
      (String.join ((b.labelledRows layout.labels base).map (Row.text layout)),
        (b.labelledRows layout.labels base).zipIdx.filterMap fun (r, number) => r.line.span? number) := by
  rw [Block.print, Printer.print, Printer.writeAll_eq]
  simp [Printer.writeLabelled, Printer.text_writeRows, Printer.spans_writeRows, Printer.new,
    labelledRows]

end FlowRecovery
