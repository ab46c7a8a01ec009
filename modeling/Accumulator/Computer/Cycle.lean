import Accumulator.Computer.Notify

/-! The machine's own calls: writing to the memory, performing an operation, and the two parts of an
instruction's cycle. Decoding checks the instruction before it touches a register. Executing
consumes the pending operation before it is performed, so that an operation which was applied is
never applied again, even if a subscriber then fails. -/

namespace Accumulator.Routine

variable (call : Caller)

/-- Writes a value to the memory, and gives notice. -/
def write (value address : Value) : Routine Unit := do
  let memory ← conclude ((← get).machine.memory.write value address)
  modifyMachine (·.setMemory memory)
  notifyMemory call

/-- Performs an operation on the registers. Storing gives notice of the memory, and with it of the
machine; every other operation gives notice of the machine. -/
def operate (circuit : Operation) : Routine Unit := do
  let m := (← get).machine
  match circuit with
  | .store => write call (.int m.registers.accumulator) (.int m.registers.address)
  | circuit => do
    modifyMachine fun m => m.setAccumulator (m.result circuit)
    notifyMachine call

/-- Performs what the table has for an operation. -/
def dispatch (op : Operation) : Routine Unit := do
  match (← get).table.lookup op with
  | some circuit => operate call circuit
  | none => throw (.noEntry op)

/-- Performs what the table has under a value. -/
def dispatchValue (key : Value) : Routine Unit := do
  if key.isKey then
    match (Operation.ofKey? key).bind (← get).table.lookup with
    | some circuit => operate call circuit
    | none => throw (.unknownName key)
  else throw (.notKey key)

/-- The instruction to decode: its operation is supported, and its address is a cell. -/
def checkInstruction (c : Computer) : Value → Except Fault Instruction
  | .instruction i =>
    if c.table.contains i.operation then
      (Program.checkAddress c.machine.memory i).map fun _ => i
    else .error (.unsupported i.operation)
  | got => .error (.notInstruction got)

/-- Decodes an instruction into the registers, and gives notice. -/
def decode (instruction : Value) : Routine Unit := do
  let i ← conclude (checkInstruction (← get) instruction)
  modifyMachine (·.decoded i)
  let m := (← get).machine
  log (.decoded i m.registers.address m.registers.data)
  notifyMachine call

/-- Executes the pending operation. -/
def execute : Routine Unit := do
  match (← get).machine.registers.pending with
  | none => throw .nothingDecoded
  | some op =>
    modifyMachine Machine.consume
    dispatch call op
    log (.executed op (← get).machine.registers.accumulator)

end Accumulator.Routine
