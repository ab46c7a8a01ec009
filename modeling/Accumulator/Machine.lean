import Accumulator.Memory

/-! The machine: a memory and four registers. The accumulator is what the operations work on; the
address register selects a cell, and the data register shows it; the instruction register keeps
the last instruction decoded. An instruction is carried out in two parts: decoding it fills the
registers and leaves its operation pending, and executing it performs the pending operation. -/

namespace Accumulator

/-- The registers, and the operation that waits for execution. -/
structure Registers where
  accumulator : Nat := 0
  address : Nat := 0
  data : Nat := 0
  instruction : Option Instruction := none
  pending : Option Operation := none
deriving DecidableEq, Repr

/-- A memory and the registers that work on it. -/
structure Machine where
  memory : Memory
  registers : Registers := {}
deriving DecidableEq, Repr

namespace Machine

/-- The width of a word of the machine. -/
def wordSize (m : Machine) : Nat := m.memory.wordSize

/-- An instruction has been decoded and waits for execution. -/
def isDecoded (m : Machine) : Bool := m.registers.pending.isSome

/-- The accumulator as a word. -/
def accumulatorWord (m : Machine) : Word := .truncate m.wordSize m.registers.accumulator

/-- The data register as a word. -/
def dataWord (m : Machine) : Word := .truncate m.wordSize m.registers.data

/-- What an operation leaves in the accumulator. -/
def result (m : Machine) : Operation → Nat
  | .or => (m.accumulatorWord.or m.dataWord).value
  | .and => (m.accumulatorWord.and m.dataWord).value
  | .xor => (m.accumulatorWord.xor m.dataWord).value
  | .not => m.accumulatorWord.complement.value
  | .lshift => (m.accumulatorWord.shiftLeft 1).value
  | .rshift => (m.accumulatorWord.shiftRight 1).value
  | .load => m.registers.data
  | .store => m.registers.accumulator

/-- The machine with a number in the accumulator, cut to a word. -/
def setAccumulator (m : Machine) (n : Nat) : Machine :=
  { m with registers := { m.registers with accumulator := n &&& m.memory.wordMask } }

/-- The machine with the selected cell in the data register. -/
def refresh (m : Machine) : Machine :=
  { m with registers := { m.registers with data := m.memory.cell m.registers.address } }

/-- The machine with another memory, its registers as they were. -/
def setMemory (m : Machine) (memory : Memory) : Machine := { m with memory }

/-- The machine with nothing pending. -/
def consume (m : Machine) : Machine := { m with registers := { m.registers with pending := none } }

/-- The machine after decoding an instruction: the instruction is in its register and its operation
pending, and its address, if it has one, is selected. -/
def decoded (m : Machine) (i : Instruction) : Machine :=
  let address := i.address.getD m.registers.address
  { m with registers :=
    { m.registers with
      address
      data := m.memory.cell address
      instruction := some i
      pending := some i.operation } }

/-- The machine holds an instruction that is decoded and not yet executed. Equal instructions count
as one, also when somebody else has made the machine decode an equal one in the meantime. -/
def holds (m : Machine) (i : Instruction) : Bool :=
  m.isDecoded && m.registers.instruction = some i

end Machine

end Accumulator
