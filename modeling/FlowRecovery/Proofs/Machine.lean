import FlowRecovery.Listing

/-!
# Running listings and structured bodies

Two machines, one for the instructions of a listing (`Listing.step`) and one for the statements of a
structured body (`Task.step`). Both execute ordinary instructions and tests, which are observed, and
ask for the outcome of every test. `Runs` relates a state and the answers to come to what is observed
until the machine stops or has no answer to its last test; it is a function of the state and the
answers (`Runs.unique`).

The machines are for bodies without iterations and selections: what an iterator yields is not
modelled.
-/

namespace FlowRecovery

/-- What is observed of a machine. -/
inductive Event where
  /-- A condition is tested. -/
  | tested (start : Offset) (condition : Token)
  /-- An ordinary instruction is executed. -/
  | executed (start : Offset) (token : Token)

/-- What a machine does in a state, and the next state. -/
inductive Action (σ : Type) where
  /-- Nothing more. -/
  | stop
  /-- Something that is observed. -/
  | emit (event : Event) (next : σ)
  /-- A test, whose outcome decides on the next state. -/
  | ask (event : Event) (yes no : σ)
  /-- Something that is not observed. -/
  | go (next : σ)

/-- What is observed of a run, and whether the machine stopped or waits for an answer. -/
structure Observed where
  /-- What was observed, in order. -/
  events : List Event
  /-- The machine stopped. -/
  stopped : Bool

/-- A machine with the given steps, in a state and with the given answers to the tests that come, is
observed as told. -/
inductive Runs {σ : Type} (step : σ → Action σ) : σ → List Bool → Observed → Prop where
  /-- It stops, whatever answers are left. -/
  | stop {s : σ} {answers : List Bool} : step s = .stop → Runs step s answers ⟨[], true⟩
  /-- It does something that is observed. -/
  | emit {s s' : σ} {answers : List Bool} {event : Event} {o : Observed} :
      step s = .emit event s' → Runs step s' answers o →
      Runs step s answers ⟨event :: o.events, o.stopped⟩
  /-- It waits for an answer. -/
  | wait {s yes no : σ} {event : Event} :
      step s = .ask event yes no → Runs step s [] ⟨[event], false⟩
  /-- It gets an answer. -/
  | ask {s yes no : σ} {answer : Bool} {answers : List Bool} {event : Event} {o : Observed} :
      step s = .ask event yes no → Runs step (if answer then yes else no) answers o →
      Runs step s (answer :: answers) ⟨event :: o.events, o.stopped⟩
  /-- It does something that is not observed. -/
  | go {s s' : σ} {answers : List Bool} {o : Observed} :
      step s = .go s' → Runs step s' answers o → Runs step s answers o

/-- What is observed is determined. -/
theorem Runs.unique {σ : Type} {step : σ → Action σ} {s : σ} {answers : List Bool} {o o' : Observed}
    (h : Runs step s answers o) (h' : Runs step s answers o') : o = o' := by
  induction h generalizing o' with
  | stop hs => cases h' <;> simp_all
  | emit hs _ ih =>
    cases h' with
    | emit hs' h' =>
      rw [hs, Action.emit.injEq] at hs'
      obtain ⟨rfl, rfl⟩ := hs'
      rw [ih h']
    | stop hs' | wait hs' | ask hs' | go hs' => rw [hs] at hs'; cases hs'
  | wait hs =>
    cases h' with
    | wait hs' =>
      rw [hs, Action.ask.injEq] at hs'
      rw [hs'.1]
    | stop hs' | emit hs' | go hs' => rw [hs] at hs'; cases hs'
  | ask hs _ ih =>
    cases h' with
    | ask hs' h' =>
      rw [hs, Action.ask.injEq] at hs'
      obtain ⟨rfl, rfl, rfl⟩ := hs'
      rw [ih h']
    | stop hs' | emit hs' | go hs' => rw [hs] at hs'; cases hs'
  | go hs _ ih =>
    cases h' with
    | go hs' h' =>
      rw [hs, Action.go.injEq] at hs'
      subst hs'
      exact ih h'
    | stop hs' | emit hs' | wait hs' | ask hs' => rw [hs] at hs'; cases hs'

/-! ### Listings -/

namespace Listing

/-- The instructions from the one at an offset on; none if there is none. -/
def startingAt (l : Listing) (o : Offset) : Listing := l.dropWhile fun e => e.offset != o

/-- What comes next in a listing when the given instructions are still ahead. A conditional jump goes
to its target if the condition is false. -/
def step (l : Listing) : Listing → Action Listing
  | [] => .stop
  | e :: rest =>
      match e.token with
      | .jumpIfNot condition target => .ask (.tested e.offset condition) rest (l.startingAt target)
      | .jump target => .go (l.startingAt target)
      | token => .emit (.executed e.offset token) (if token.isReturn then [] else rest)

end Listing

/-! ### Structured bodies -/

/-- What is still to be done in a structured body. -/
inductive Task where
  /-- To execute statements. -/
  | run (l : List Statement)
  /-- To repeat a conditional loop. -/
  | again (start : Offset) (condition : Token) (stop : Offset) (body : List Statement)

namespace Task

/-- What is to be done after leaving the innermost loop that ends at `target`. -/
def unwind (target : Offset) : List Task → List Task
  | [] => []
  | run _ :: tasks => unwind target tasks
  | again _ _ stop _ :: tasks => if stop = target then tasks else unwind target tasks

/-- The second branch in front of statements, if there is one, and what follows it. -/
def secondBranch : List Statement → List Statement × List Statement
  | .composite _ _ .elseHead _ _ children :: rest => (children, rest)
  | l => ([], l)

/-- What comes next in a structured body. -/
def step : List Task → Action (List Task)
  | [] => .stop
  | run [] :: tasks => .go tasks
  | run (.plain start _ _ token :: rest) :: tasks =>
      if token.isJump then .stop
      else .emit (.executed start token) (if token.isReturn then [] else run rest :: tasks)
  | run (.escape _ _ .leave (.jump target) :: _) :: tasks => .go (unwind target tasks)
  | run (.composite start _ (.ifHead condition) _ _ children :: rest) :: tasks =>
      let (other, rest) := secondBranch rest
      .ask (.tested start condition) (run children :: run rest :: tasks)
        (run other :: run rest :: tasks)
  | run (.composite start _ (.whileHead condition) stop _ children :: rest) :: tasks =>
      .go (again start condition stop children :: run rest :: tasks)
  | run _ :: _ => .stop
  | again start condition stop body :: tasks =>
      .ask (.tested start condition) (run body :: again start condition stop body :: tasks) tasks

end Task

end FlowRecovery
