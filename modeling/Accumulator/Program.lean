import Accumulator.Instruction.Build
import Accumulator.Machine

/-! Programs: instructions with a counter. A program takes two steps for an instruction: the first
decodes it, and the second executes it and moves the counter past it. Each executed instruction
leaves an entry in the trace. Instructions may be inserted at any time; the counter stays with the
instruction that it points at. -/

namespace Accumulator

/-- What the next step does: decode the instruction at the counter, or execute it. -/
inductive Phase
  | fetch | decoded
deriving DecidableEq, Repr

/-- A phase in a word. -/
def Phase.name : Phase → String
  | fetch => "fetch"
  | decoded => "decoded"

/-- An executed instruction, with the machine before and after its execution. -/
structure TraceEntry where
  step : Nat
  counter : Nat
  instruction : Instruction
  pre : Machine
  post : Machine
deriving DecidableEq, Repr

/-- How far a program has come, and what it has made of the machine. -/
structure Summary where
  steps : Nat
  counter : Nat
  length : Nat
  complete : Bool
  accumulator : Nat
  cells : List Nat
deriving DecidableEq, Repr

/-- What a program shows of itself. -/
structure ProgramView where
  instructions : List Instruction
  counter : Nat
  phase : Phase
  complete : Bool
  playing : Bool
deriving DecidableEq, Repr

/-- A program and its progress. `run` counts the runs that were begun or stopped, so that a play
loop knows whether it is still the current one, and `watchers` are those who hear of its changes. -/
structure Program where
  instructions : List Instruction
  stepDelay : Value
  counter : Nat := 0
  phase : Phase := .fetch
  playing : Bool := false
  run : Nat := 0
  stepping : Bool := false
  trace : List TraceEntry := []
  watchers : List Nat := []

namespace Program

/-- The delay between steps when none is given: half a second. -/
def defaultDelay : Number.Binary64 := .ofRatio false 1 2

/-- The number of instructions. -/
def length (p : Program) : Nat := p.instructions.length

/-- The counter has passed the last instruction. -/
def isComplete (p : Program) : Bool := p.length ≤ p.counter

/-- The instruction at the counter. -/
def current? (p : Program) : Option Instruction := p.instructions[p.counter]?

/-- What the program shows of itself. -/
def view (p : Program) : ProgramView where
  instructions := p.instructions
  counter := p.counter
  phase := p.phase
  complete := p.isComplete
  playing := p.playing

/-- The address of an instruction is a cell of the memory. -/
def checkAddress (m : Memory) (i : Instruction) : Except Fault Unit :=
  match i.address with
  | none => .ok ()
  | some a => (m.address (.int a)).map fun _ => ()

/-- The program of a sequence of entries, whose addresses are cells of the memory. -/
def ofEntries (m : Memory) (entries stepDelay : Value) : Except Fault Program := do
  let instructions ← Instruction.ofEntries entries
  instructions.forM (checkAddress m)
  return { instructions, stepDelay }

/-- The position that a value states: of an instruction, or behind the last one. -/
def position (p : Program) : Value → Except Fault Nat
  | .int (.ofNat n) =>
    if n ≤ p.length then .ok n else .error (.badPosition (.int n) p.length)
  | got => .error (.badPosition got p.length)

/-- The program with an instruction before a position. The counter moves with the instruction that
it points at if that one moves; while the instruction at the counter is decoded, an insertion at its
place moves it too. -/
def insertAt (p : Program) (n : Nat) (i : Instruction) : Program :=
  let moves := n < p.counter || (n = p.counter && p.phase = .decoded)
  { p with
    instructions := p.instructions.insertIdx n i
    counter := if moves then p.counter + 1 else p.counter }

/-- The program past the instruction at the counter, which took the machine from one state to
another. -/
def advance (p : Program) (i : Instruction) (pre post : Machine) : Program :=
  { p with
    trace := p.trace ++ [⟨p.trace.length, p.counter, i, pre, post⟩]
    counter := p.counter + 1
    phase := .fetch }

/-- How far the program has come on a machine. -/
def summary (p : Program) (m : Machine) : Summary where
  steps := p.trace.length
  counter := p.counter
  length := p.length
  complete := p.isComplete
  accumulator := m.registers.accumulator
  cells := m.memory.cells

end Program

end Accumulator
