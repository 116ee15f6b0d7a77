import FlowRecovery.Listing

/-!
# Structured programs and their code

A small language of structured programs, the code that a compiler lays out for them (`Program.code`),
and the tree of statements that they stand for (`Program.tree`). The shapes of the code are those
that recovery looks for:

```text
if:       jumpIfNot c END   body...                        END:
if-else:  jumpIfNot c ELSE  body...  jump END  ELSE: other...  END:
while:    HEAD: jumpIfNot c END  body...  jump HEAD        END:
foreach:  foreach e POP     body...  iteratorNext  POP: iteratorPop
```

A `break` is a jump to the `END` or `POP` of the innermost loop, a `continue` is the step of the
iterator and a jump to `POP`. A return discards the iterators that it leaves.

Instructions are counted from zero; the offset of an instruction is given by its placement
(`Placement.start`), and so is that of the place behind the last one, to which labels at the end of the
program belong.
-/

namespace FlowRecovery

/-- A structured program: a construct and what follows it. -/
inductive Program where
  /-- Nothing more. -/
  | done
  /-- An ordinary statement. -/
  | expression (text : String) (rest : Program)
  /-- A return. -/
  | ret (value? : Option Token) (rest : Program)
  /-- A conditional. -/
  | ifThen (condition : Token) (body rest : Program)
  /-- A conditional with a second branch. -/
  | ifElse (condition : Token) (body other rest : Program)
  /-- A conditional loop. -/
  | whileLoop (condition : Token) (body rest : Program)
  /-- An iteration. -/
  | foreachLoop (collection : Token) (iterator? : Option Token) (body rest : Program)
  /-- A `break`. -/
  | leave (rest : Program)
  /-- A `continue`. -/
  | advance (rest : Program)

/-- Where the instructions of a program lie. -/
structure Placement where
  /-- The offset of the first instruction. -/
  base : Nat
  /-- How many bytes each instruction takes. -/
  width : Nat → Nat
  /-- What is known of the end of each instruction. -/
  stop? : Nat → Option Offset

namespace Placement

/-- The number of the byte at which instruction `k` starts. -/
def place (lay : Placement) : Nat → Nat
  | 0 => lay.base
  | k + 1 => lay.place k + lay.width k

/-- The offset of instruction `k`. -/
def start (lay : Placement) (k : Nat) : Offset := Fin.ofNat 4294967296 (lay.place k)

/-- Instruction `k` of a body. -/
def entry (lay : Placement) (k : Nat) (token : Token) : Entry := ⟨lay.start k, lay.stop? k, token⟩

/-- The ends of `count` iterators, from instruction `k` on. -/
def pops (lay : Placement) (k count : Nat) : Listing :=
  (List.range' k count).map fun i => lay.entry i .iteratorPop

end Placement

namespace Program

/-- There is a second branch wherever one is announced, a `break` stands in a loop, and a `continue`
directly in an iteration. The innermost loop around the program is of the kind `loop?`. -/
def Sound (loop? : Option BlockKind) : Program → Prop
  | done => True
  | expression _ rest | ret _ rest => rest.Sound loop?
  | ifThen _ body rest => body.Sound loop? ∧ rest.Sound loop?
  | ifElse _ body other rest =>
      body.Sound loop? ∧ other ≠ done ∧ other.Sound loop? ∧ rest.Sound loop?
  | whileLoop _ body rest => body.Sound (some .whileLoop) ∧ rest.Sound loop?
  | foreachLoop _ _ body rest => body.Sound (some .foreachLoop) ∧ rest.Sound loop?
  | leave rest => loop? ≠ none ∧ rest.Sound loop?
  | advance rest => loop? = some .foreachLoop ∧ rest.Sound loop?

/-- How many instructions the code of a program has within `depth` iterations. -/
def size (depth : Nat) : Program → Nat
  | done => 0
  | expression _ rest | leave rest => 1 + rest.size depth
  | ret _ rest => depth + 1 + rest.size depth
  | ifThen _ body rest => 1 + body.size depth + rest.size depth
  | ifElse _ body other rest => 1 + body.size depth + 1 + other.size depth + rest.size depth
  | whileLoop _ body rest => 1 + body.size depth + 1 + rest.size depth
  | foreachLoop _ _ body rest => 1 + body.size (depth + 1) + 2 + rest.size depth
  | advance rest => 2 + rest.size depth

/-- The code of a program, from instruction `k` on, within `depth` iterations and a loop that exits
to instruction `exit`. -/
def code (lay : Placement) (exit depth k : Nat) : Program → Listing
  | done => []
  | expression text rest => lay.entry k (.expression text) :: rest.code lay exit depth (k + 1)
  | ret value? rest =>
      lay.pops k depth ++ lay.entry (k + depth) (.retOf value?) ::
        rest.code lay exit depth (k + depth + 1)
  | ifThen condition body rest =>
      let after := k + 1 + body.size depth
      lay.entry k (.jumpIfNot condition (lay.start after)) :: body.code lay exit depth (k + 1) ++
        rest.code lay exit depth after
  | ifElse condition body other rest =>
      let split := k + 1 + body.size depth
      let after := split + 1 + other.size depth
      lay.entry k (.jumpIfNot condition (lay.start (split + 1))) ::
          body.code lay exit depth (k + 1) ++ [lay.entry split (.jump (lay.start after))] ++
        other.code lay exit depth (split + 1) ++ rest.code lay exit depth after
  | whileLoop condition body rest =>
      let back := k + 1 + body.size depth
      lay.entry k (.jumpIfNot condition (lay.start (back + 1))) ::
          (body.code lay (back + 1) depth (k + 1) ++ [lay.entry back (.jump (lay.start k))]) ++
        rest.code lay exit depth (back + 1)
  | foreachLoop collection iterator? body rest =>
      let next := k + 1 + body.size (depth + 1)
      lay.entry k (.foreachOver collection iterator? (lay.start (next + 1))) ::
          (body.code lay (next + 1) (depth + 1) (k + 1) ++
            [lay.entry next .iteratorNext, lay.entry (next + 1) .iteratorPop]) ++
        rest.code lay exit depth (next + 2)
  | leave rest => lay.entry k (.jump (lay.start exit)) :: rest.code lay exit depth (k + 1)
  | advance rest =>
      lay.entry k .iteratorNext :: lay.entry (k + 1) (.jump (lay.start exit)) ::
        rest.code lay exit depth (k + 2)

/-- The statements that a program stands for within `scope`, with the offsets of its code. Before
every return, the ends of the outermost `pops` iterators are still there; the program itself has
none of them. -/
def tree (lay : Placement) (pops exit depth k : Nat) (scope : Scope) : Program → List Statement
  | done => []
  | expression text rest =>
      .plain (lay.start k) (lay.stop? k) scope (.expression text) ::
        rest.tree lay pops exit depth (k + 1) scope
  | ret value? rest =>
      (lay.pops k pops).map (fun e => .plain e.offset e.stop? scope e.token) ++
        .plain (lay.start (k + depth)) (lay.stop? (k + depth)) scope (.retOf value?) ::
          rest.tree lay pops exit depth (k + depth + 1) scope
  | ifThen condition body rest =>
      let after := k + 1 + body.size depth
      let inner := ⟨.ifBlock, lay.start k, lay.start after⟩ :: scope
      .composite (lay.start k) scope (.ifHead condition) (lay.start after) inner
          (body.tree lay pops exit depth (k + 1) inner) ::
        rest.tree lay pops exit depth after scope
  | ifElse condition body other rest =>
      let split := k + 1 + body.size depth
      let after := split + 1 + other.size depth
      let inner := ⟨.ifBlock, lay.start k, lay.start split⟩ :: scope
      let inner' := ⟨.elseBlock, lay.start (split + 1), lay.start after⟩ :: scope
      .composite (lay.start k) scope (.ifHead condition) (lay.start split) inner
          (body.tree lay pops exit depth (k + 1) inner) ::
        .composite (lay.start (split + 1)) scope .elseHead (lay.start after) inner'
          (other.tree lay pops exit depth (split + 1) inner') ::
        rest.tree lay pops exit depth after scope
  | whileLoop condition body rest =>
      let after := k + 1 + body.size depth + 1
      let inner := ⟨.whileLoop, lay.start k, lay.start after⟩ :: scope
      .composite (lay.start k) scope (.whileHead condition) (lay.start after) inner
          (body.tree lay pops after depth (k + 1) inner) ::
        rest.tree lay pops exit depth after scope
  | foreachLoop collection iterator? body rest =>
      let pop := k + 1 + body.size (depth + 1) + 1
      let inner := ⟨.foreachLoop, lay.start k, lay.start pop⟩ :: scope
      .composite (lay.start k) scope (.foreachHead collection iterator?) (lay.start pop) inner
          (body.tree lay pops pop (depth + 1) (k + 1) inner) ::
        rest.tree lay pops exit depth (pop + 1) scope
  | leave rest =>
      .escape (lay.start k) scope .leave (.jump (lay.start exit)) ::
        rest.tree lay pops exit depth (k + 1) scope
  | advance rest =>
      .escape (lay.start (k + 1)) scope .advance (.jump (lay.start exit)) ::
        rest.tree lay pops exit depth (k + 2) scope

/-- The instructions that end the iterators of iterations. -/
def closings (depth k : Nat) : Program → List Nat
  | done => []
  | expression _ rest | leave rest => rest.closings depth (k + 1)
  | ret _ rest => rest.closings depth (k + depth + 1)
  | ifThen _ body rest =>
      body.closings depth (k + 1) ++ rest.closings depth (k + 1 + body.size depth)
  | ifElse _ body other rest =>
      let split := k + 1 + body.size depth
      body.closings depth (k + 1) ++ other.closings depth (split + 1) ++
        rest.closings depth (split + 1 + other.size depth)
  | whileLoop _ body rest =>
      body.closings depth (k + 1) ++ rest.closings depth (k + 1 + body.size depth + 1)
  | foreachLoop _ _ body rest =>
      let pop := k + 1 + body.size (depth + 1) + 1
      body.closings (depth + 1) (k + 1) ++ pop :: rest.closings depth (pop + 1)
  | advance rest => rest.closings depth (k + 2)

/-- The code of a whole program. -/
def listing (lay : Placement) (p : Program) : Listing := p.code lay 0 0 0

/-- The body that a whole program stands for. -/
def body (lay : Placement) (p : Program) : Block := ⟨[], p.tree lay 0 0 0 0 []⟩

end Program

/-- The placement suits a program: every instruction takes some bytes and the end of an iteration one,
and the end of the program has an offset. -/
structure Placement.Suits (lay : Placement) (p : Program) : Prop where
  /-- No instruction is empty. -/
  width_pos : ∀ k < p.size 0, 0 < lay.width k
  /-- The end of an iteration is one byte long. -/
  width_closing : ∀ k ∈ p.closings 0 0, lay.width k = 1
  /-- All offsets are 32-bit numbers. -/
  place_lt : lay.place (p.size 0) < 4294967296

end FlowRecovery
