import FlowRecovery.Proofs.Lines

/-!
# Printing as a function of the depth

A printer keeps its level of indentation while it goes through a block, moves it one level in and out
around the children of a composite statement, and toggles it from clause to clause in a selection. The
text that it writes is given here without any such memory (`Layout.render`): by recursion on the
statements, with the depth handed down. What a composite statement holds lies one level deeper; in a
selection the clause labels do, and everything else lies two levels deeper.

`Printer.print_renders` says that a printer writes this text whatever it has written before, and that it
is left as if it had written nothing.
-/

namespace FlowRecovery

namespace Layout

/-- A line at a depth of a block that stands at the level `base`. -/
def renderLine (layout : Layout) (base depth : Nat) (text : String) : String :=
  String.ofList (List.replicate ((base + depth) * layout.indentWidth) ' ') ++ text ++ "\n"

/-- The line with the label of an offset, or nothing if the offset has none. -/
def renderLabel (layout : Layout) (base depth : Nat) (o : Offset) : String :=
  match layout.labels.label? o with
  | none => ""
  | some name => layout.renderLine base depth (name ++ ":")

mutual

/-- The text of a statement at a depth. -/
def render (layout : Layout) (base depth : Nat) : Statement → String
  | .plain start _ _ token =>
      if token.text.isEmpty then ""
      else
        layout.renderLabel base depth start ++
          layout.renderLine base depth (Printer.instructionLine layout start token.text)
  | .escape _ _ how _ => layout.renderLine base depth (how.keyword ++ ";")
  | .composite start _ head _ _ children =>
      layout.renderLabel base depth start ++ layout.renderLine base depth head.text ++
        layout.renderLine base depth "\x7b" ++
        (match head.kind with
          | .switchBlock => renderClauses layout base depth children
          | _ => renderAll layout base (depth + 1) children) ++
        layout.renderLine base depth "\x7d"

/-- The text of statements at a depth. -/
def renderAll (layout : Layout) (base depth : Nat) : List Statement → String
  | [] => ""
  | s :: rest => render layout base depth s ++ renderAll layout base depth rest

/-- The text of the children of a selection at a depth: the clause labels lie one level deeper, all other
statements two. -/
def renderClauses (layout : Layout) (base depth : Nat) : List Statement → String
  | [] => ""
  | s :: rest =>
      (match s.token?.filter Token.isCaseLabel with
        | some label => layout.renderLine base (depth + 1) (label.text ++ ":")
        | none => render layout base (depth + 2) s) ++
        renderClauses layout base depth rest

end

end Layout

namespace Row

/-- The text of lines, with the labels of their offsets. -/
def labelledText (layout : Layout) (l : List Row) : String :=
  String.join ((l.flatMap (withLabel layout.labels)).map (text layout))

variable {layout : Layout} {base depth : Nat}

@[simp] theorem labelledText_nil : labelledText layout [] = "" := String.join_nil

theorem labelledText_append (l m : List Row) :
    labelledText layout (l ++ m) = labelledText layout l ++ labelledText layout m := by
  simp only [labelledText, List.flatMap_append, List.map_append, String.join_append]

theorem labelledText_cons (r : Row) (l : List Row) :
    labelledText layout (r :: l) = labelledText layout [r] ++ labelledText layout l :=
  labelledText_append [r] l

/-- A line without an offset. -/
theorem labelledText_unlabelled {line : Line} (start : line.start? = none) :
    labelledText layout [⟨base + depth, line⟩] = layout.renderLine base depth (line.text layout) := by
  simp [labelledText, withLabel, start, text, Layout.renderLine]

/-- A line with an offset. -/
theorem labelledText_labelled {line : Line} {o : Offset} (start : line.start? = some o) :
    labelledText layout [⟨base + depth, line⟩] =
      layout.renderLabel base depth o ++ layout.renderLine base depth (line.text layout) := by
  unfold labelledText Layout.renderLabel
  cases h : layout.labels.label? o with
  | none => simp [withLabel, start, h, text, Layout.renderLine]
  | some name => simp [withLabel, start, h, text, Line.text, Layout.renderLine]

end Row

namespace Statement

open Row

variable (layout : Layout) (base : Nat)

mutual

/-- The lines of a statement make up its text. -/
theorem labelledText_rows : (depth : Nat) → (s : Statement) →
    labelledText layout (s.rows (base + depth)) = layout.render base depth s
  | depth, .plain start stop? scope token => by
    rw [rows, Layout.render]
    split
    · exact labelledText_nil
    · exact labelledText_labelled rfl
  | depth, .escape start scope how token => labelledText_unlabelled rfl
  | depth, .composite start scope head stop inner children => by
    have inside := labelledText_rowsOf (depth + 1) children
    have clauses := labelledText_clauseRows depth children
    have first : labelledText layout [⟨base + depth, .head start head⟩] = _ := labelledText_labelled rfl
    have opening : labelledText layout [⟨base + depth, .opening⟩] = _ := labelledText_unlabelled rfl
    have closing : labelledText layout [⟨base + depth, .closing⟩] = _ := labelledText_unlabelled rfl
    rw [rows, labelledText_cons ⟨base + depth, .head start head⟩,
      labelledText_cons ⟨base + depth, .opening⟩, labelledText_append, first, opening, closing,
      Layout.render]
    cases head with
    | switchHead =>
      simp only [Head.kind, Nat.add_assoc, clauses, String.append_assoc]
      rfl
    | ifHead | elseHead | whileHead | foreachHead =>
      simp only [Head.kind, Nat.add_assoc, inside, String.append_assoc]
      rfl

theorem labelledText_rowsOf : (depth : Nat) → (l : List Statement) →
    labelledText layout (rowsOf (base + depth) l) = layout.renderAll base depth l
  | _, [] => labelledText_nil
  | depth, s :: rest => by
    rw [rowsOf, Layout.renderAll, labelledText_append, labelledText_rows depth s,
      labelledText_rowsOf depth rest]

theorem labelledText_clauseRows : (depth : Nat) → (l : List Statement) →
    labelledText layout (clauseRows (base + (depth + 1)) l) = layout.renderClauses base depth l
  | _, [] => labelledText_nil
  | depth, s :: rest => by
    rw [clauseRows, Layout.renderClauses, labelledText_append, labelledText_clauseRows depth rest]
    congr 1
    cases s.token?.filter Token.isCaseLabel with
    | some label => exact labelledText_unlabelled (show (Line.clause label).start? = none from rfl)
    | none => exact labelledText_rows (depth + 2) s

end

end Statement

namespace Printer

variable (p : Printer) (b : Block)

theorem text_print : (p.print b).1 = p.layout.renderAll p.level 0 b.statements := by
  rw [print, writeAll_eq, ← Statement.labelledText_rowsOf, writeLabelled, text_writeRows]
  exact String.empty_append

/-- Printing hands the layout back. -/
theorem layout_print : (p.print b).2.layout = p.layout := by
  rw [print, writeAll_eq]
  exact layout_writeLabelled

/-- Printing hands the level of indentation back. -/
theorem level_print : (p.print b).2.level = p.level := by
  rw [print, writeAll_eq]
  exact level_writeLabelled

/-- What was written before does not matter. -/
theorem print_eq_new : p.print b = (new p.layout p.level).print b := rfl

/-- **A printer writes the text that the depths give**, and a block that it prints afterwards comes out
as from a new printer. -/
theorem print_renders (p : Printer) (b : Block) :
    (p.print b).1 = p.layout.renderAll p.level 0 b.statements ∧
      (p.print b).2.level = p.level ∧
      ∀ c : Block, (p.print b).2.print c = (new p.layout p.level).print c := by
  refine ⟨p.text_print b, p.level_print b, fun c => ?_⟩
  rw [print_eq_new, layout_print, level_print]

end Printer

end FlowRecovery
