import Accumulator.Computer.Cycle

/-! Stepping through a program. A step is one phase of the instruction at the counter. A phase that
the machine has gone through is over for the program too, even if a subscriber then fails: the
program looks at the machine to tell. Steps of one program do not nest. -/

namespace Accumulator.Routine

variable (call : Caller)

/-- Inserts an instruction into a program, and gives notice. -/
def insert (index : Nat) (name args position : Value) : Routine Instruction := do
  let p ← program index
  let n ← conclude (p.position position)
  let i ← conclude (Instruction.ofNameOrInstruction name args)
  conclude (Program.checkAddress (← get).machine.memory i)
  modifyProgram index (·.insertAt n i)
  notifyProgram call index
  return i

/-- Adds an instruction at the end of a program, and gives notice. -/
def append (index : Nat) (name args : Value) : Routine Instruction := do
  let p ← program index
  insert call index name args (.int p.length)

/-- Decodes the instruction at the counter. The program has fetched it if the machine then holds it
or, what is the same here, one that is equal to it. -/
def fetchPhase (index : Nat) (i : Instruction) : Routine Unit := do
  ensuring (decode call (.instruction i)) do
    if (← get).machine.holds i then
      modifyProgram index fun p => { p with phase := .decoded }
  log (.stepDecoded (← program index).counter i)

/-- Executes the instruction at the counter. The program moves past it if the machine then has
nothing pending. -/
def executePhase (index : Nat) (i : Instruction) : Routine Unit := do
  let pre := (← get).machine
  ensuring (execute call) do
    let post := (← get).machine
    if !post.isDecoded then
      modifyProgram index (·.advance i pre post)
  log (.stepExecuted ((← program index).counter - 1) i)

/-- Goes through a phase of an instruction. -/
def doPhase (index : Nat) (i : Instruction) : Phase → Routine Unit
  | .fetch => fetchPhase call index i
  | .decoded => executePhase call index i

/-- Marks a program as being in a step, or not. -/
def setStepping (index : Nat) (stepping : Bool) : Routine Unit :=
  modifyProgram index fun p => { p with stepping }

/-- Goes through one phase of the instruction at the counter, and gives notice; answers whether
there was an instruction left. -/
def step (index : Nat) : Routine Bool := do
  let p ← program index
  if p.stepping then throw .stepInProgress
  else
    match p.current? with
    | none => return false
    | some i =>
      setStepping index true
      ensuring (doPhase call index i p.phase) (setStepping index false)
      notifyProgram call index
      return true

/-- Steps until the program is complete, at most a given number of times. -/
def steps (index : Nat) : Nat → Routine Unit
  | 0 => throw .runTooLong
  | limit + 1 => do
    match ← step call index with
    | true => steps index limit
    | false => return ()

/-- The steps that a run may take: two for each instruction left and one to find the end, and three
for each call that a subscriber may make on the way, which may undo a phase and insert an
instruction. -/
def runLimit (c : Computer) (p : Program) : Nat :=
  2 * (p.length - p.counter) + 1 + 3 * c.bound

/-- Steps until the program is complete, and answers the number of instructions it has executed. -/
def run (index : Nat) : Routine Nat := do
  let p ← program index
  steps call index (runLimit (← get) p)
  return (← program index).trace.length

end Accumulator.Routine
