import Accumulator.Command
import Accumulator.Dispatch

/-! The computer: a machine with its dispatch table, the programs that drive it, their play loops,
and the subscribers. A `Routine` is a call at work: it answers or is refused, and leaves the
computer in a new state either way, since a subscriber may fail after a change was made. -/

namespace Accumulator

/-- Who is told of a change in the memory: the machine, which refreshes its data register, or a
subscriber. -/
inductive Watcher
  | dataRegister
  | subscriber (index : Nat)
deriving DecidableEq, Repr

/-- How far a play loop has come. -/
inductive Stage
  | fresh | running | suspended | ended
deriving DecidableEq, Repr

/-- A play loop: the program and the run that it belongs to, the delay between its steps, and how
far it has come. -/
structure PlayLoop where
  program : Nat
  run : Nat
  delay : Value
  stage : Stage := .fresh

/-- A notice that a source gave to a subscriber, and the machine at that moment. -/
structure Event where
  subscriber : Nat
  source : Source
  notice : Notice
  moment : Machine
deriving DecidableEq, Repr

/-- What the computer notes in its journal. -/
inductive Record
  | decoded (i : Instruction) (address data : Nat)
  | executed (op : Operation) (accumulator : Nat)
  | stepDecoded (counter : Nat) (i : Instruction)
  | stepExecuted (counter : Int) (i : Instruction)
  | playBegun (counter : Nat)
  | playEnded (counter : Nat) (complete : Bool)
  | stopped (counter : Nat)
deriving DecidableEq, Repr

/-- A computer. `events` and `journal` hold what has happened, the latest first. `awaited` says
that whoever has resumed a play loop waits for it to sleep. `bound` limits the calls that
subscribers make from inside notifications: how deep they nest, and how many steps they may add to
a run. -/
structure Computer where
  machine : Machine
  table : Dispatch := .standard
  programs : List Program := []
  loops : List PlayLoop := []
  memoryWatchers : List Watcher := [.dataRegister]
  machineWatchers : List Nat := []
  subscribers : List Subscriber := []
  events : List Event := []
  journal : List Record := []
  awaited : Bool := false
  bound : Nat := 0

/-- A call at work on a computer. -/
abbrev Routine := ExceptT Fault (StateM Computer)

/-- How a subscriber's call is made. -/
abbrev Caller := Command → Routine Answer

namespace Routine

/-- The outcome of a routine on a computer, and the computer after it. -/
def on {α : Type} (routine : Routine α) (c : Computer) : Except Fault α × Computer :=
  StateT.run (ExceptT.run routine) c

/-- The outcome of a routine, of which a refusal is one. -/
def attempt {α : Type} (routine : Routine α) : Routine (Except Fault α) :=
  ExceptT.lift (ExceptT.run routine)

/-- The routine of an outcome. -/
def conclude {α : Type} : Except Fault α → Routine α
  | .ok a => pure a
  | .error fault => throw fault

/-- A routine, and then a closing one in any case. A refusal of the closing one stands for both. -/
def ensuring {α : Type} (routine : Routine α) (closing : Routine Unit) : Routine α := do
  let outcome ← attempt routine
  closing
  conclude outcome

variable {α β : Type} (c : Computer)

@[simp] theorem on_pure (a : α) : (pure a : Routine α).on c = (.ok a, c) := rfl

@[simp] theorem on_throw (fault : Fault) : (throw fault : Routine α).on c = (.error fault, c) := rfl

@[simp] theorem on_get : (get : Routine Computer).on c = (.ok c, c) := rfl

@[simp] theorem on_modify (f : Computer → Computer) :
    (modify f : Routine PUnit).on c = (.ok ⟨⟩, f c) := rfl

@[simp] theorem on_attempt (routine : Routine α) :
    (attempt routine).on c = (.ok (routine.on c).1, (routine.on c).2) := rfl

@[simp] theorem on_conclude (outcome : Except Fault α) :
    (conclude outcome).on c = (outcome, c) := by
  cases outcome <;> rfl

theorem on_bind (routine : Routine α) (next : α → Routine β) :
    (routine >>= next).on c =
      match routine.on c with
      | (.ok a, c) => (next a).on c
      | (.error fault, c) => (.error fault, c) := by
  show ExceptT.bindCont next (routine.on c).1 (routine.on c).2 = _
  rcases routine.on c with ⟨_ | _, _⟩ <;> rfl

theorem on_ensuring (routine : Routine α) (closing : Routine Unit) :
    (ensuring routine closing).on c =
      match closing.on (routine.on c).2 with
      | (.ok _, after) => ((routine.on c).1, after)
      | (.error fault, after) => (.error fault, after) := by
  rw [ensuring, on_bind, on_attempt]
  simp only [on_bind]
  rcases closing.on (routine.on c).2 with ⟨_ | _, _⟩ <;> simp

/-- Changes the machine. -/
def modifyMachine (f : Machine → Machine) : Routine Unit :=
  modify fun c => { c with machine := f c.machine }

/-- Notes a record in the journal. -/
def log (record : Record) : Routine Unit :=
  modify fun c => { c with journal := record :: c.journal }

/-- The program of a number. -/
def program (index : Nat) : Routine Program := do
  match (← get).programs[index]? with
  | some p => return p
  | none => throw (.noProgram index)

/-- Changes the program of a number. -/
def modifyProgram (index : Nat) (f : Program → Program) : Routine Unit :=
  modify fun c => { c with programs := c.programs.modify index f }

/-- Says whether whoever has resumed a play loop waits for it to sleep. -/
def setAwaited (awaited : Bool) : Routine Unit := modify fun c => { c with awaited }

/-- Moves a play loop to a stage. -/
def setStage (index : Nat) (stage : Stage) : Routine Unit :=
  modify fun c => { c with loops := c.loops.modify index fun l => { l with stage } }

end Routine

end Accumulator
