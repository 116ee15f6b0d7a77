import FlowRecovery.Block

/-!
# Printing

A printer writes a block as text, one line per instruction, with composite statements in braces and
their children indented. It keeps the level of indentation, the text, the number of lines written
and the source map: for each instruction the line it was written to and its offsets.

* Instructions whose text is empty are not written.
* A label goes on a line of its own before the instruction or composite statement at its offset.
* In a selection, clause labels stand one level in and all other statements two levels in. Clause
  labels are not in the source map and have no offset label.
-/

namespace FlowRecovery

/-- The line that an instruction was written to, counted from zero, and its offsets. -/
structure Span where
  /-- The line. -/
  line : Nat
  /-- Where the instruction starts. -/
  start : Offset
  /-- Where the instruction ends, if that is known. -/
  stop? : Option Offset
  deriving DecidableEq

/-- How blocks are laid out. -/
structure Layout where
  /-- The number of blanks per level. -/
  indentWidth : Nat := 4
  /-- Instructions are written with their offsets. -/
  showOffsets : Bool := false
  /-- The labels to write. -/
  labels : Labels := ∅

/-- A printer at work. -/
structure Printer where
  /-- The layout it follows. -/
  layout : Layout
  /-- The level of indentation. -/
  level : Nat
  /-- What was written. -/
  text : String
  /-- The number of lines written. -/
  line : Nat
  /-- The source map of what was written. -/
  spans : Array Span

namespace Printer

/-- A printer that has written nothing yet and starts at the level `base`. -/
def new (layout : Layout) (base : Nat) : Printer := ⟨layout, base, "", 0, #[]⟩

/-- The blanks before a line. -/
def indentation (p : Printer) : String :=
  String.ofList (List.replicate (p.level * p.layout.indentWidth) ' ')

/-- Writes a line. -/
def writeLine (p : Printer) (line : String) : Printer :=
  { p with text := p.text ++ p.indentation ++ line ++ "\n", line := p.line + 1 }

/-- Goes one level in. -/
def indent (p : Printer) : Printer := { p with level := p.level + 1 }

/-- Goes one level out. -/
def outdent (p : Printer) : Printer := { p with level := p.level - 1 }

/-- Writes the label of an offset, if it has one. -/
def writeLabel (p : Printer) (o : Offset) : Printer :=
  match p.layout.labels.label? o with
  | none => p
  | some name => p.writeLine (name ++ ":")

/-- The line of an instruction. -/
def instructionLine (layout : Layout) (start : Offset) (text : String) : String :=
  if layout.showOffsets then "/* " ++ start.text ++ " */ " ++ text ++ ";" else text ++ ";"

/-- Writes an instruction and notes it in the source map. -/
def writeInstruction (p : Printer) (start : Offset) (stop? : Option Offset) (token : Token) :
    Printer :=
  if token.text.isEmpty then p
  else
    let p := p.writeLabel start
    { p with spans := p.spans.push ⟨p.line, start, stop?⟩ }.writeLine
      (instructionLine p.layout start token.text)

mutual

/-- Writes a statement. -/
def writeStatement : Statement → Printer → Printer
  | .plain start stop? _ token, p => p.writeInstruction start stop? token
  | .escape _ _ how _, p => p.writeLine (how.keyword ++ ";")
  | .composite start _ head _ _ children, p =>
      let p := ((p.writeLabel start).writeLine head.text).writeLine "\x7b"
      let p :=
        match head.kind with
        | .switchBlock => (writeClauses children false p.indent).outdent
        | _ => (writeAll children p.indent).outdent
      p.writeLine "\x7d"

/-- Writes statements one after the other. -/
def writeAll : List Statement → Printer → Printer
  | [], p => p
  | s :: rest, p => writeAll rest (writeStatement s p)

/-- Writes the statements of a selection. The flag says whether the printer stands at the level of
the clauses' statements, one further in than the clause labels. -/
def writeClauses : List Statement → Bool → Printer → Printer
  | [], inside, p => if inside then p.outdent else p
  | s :: rest, inside, p =>
      match s.token?.filter Token.isCaseLabel with
      | some label =>
          let p := if inside then p.outdent else p
          writeClauses rest false (p.writeLine (label.text ++ ":"))
      | none =>
          let p := if inside then p else p.indent
          writeClauses rest true (writeStatement s p)

end

/-- Writes a block with a printer whose earlier writing is forgotten. The printer keeps the source
map of the block, and hands the text over. -/
def print (p : Printer) (b : Block) : String × Printer :=
  let p := writeAll b.statements { p with text := "", line := 0, spans := #[] }
  (p.text, { p with text := "" })

end Printer

/-- The text of a block, with its source map. -/
def Block.print (layout : Layout) (base : Nat) (b : Block) : String × List Span :=
  let (text, p) := (Printer.new layout base).print b
  (text, p.spans.toList)

end FlowRecovery
