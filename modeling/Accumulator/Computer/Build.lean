import Accumulator.Computer.Perform

/-! Computers from values: a machine at rest, a memory on its own, and the programs of a machine. -/

namespace Accumulator.Computer

/-- A machine at rest with a memory of zeros. -/
def idle (memory : Memory) (table : Dispatch) : Computer :=
  { machine := { memory }, table }

/-- A machine at rest, of a stated word size and memory size. -/
def ofSizes (wordSize memorySize : Value) (table : Dispatch) : Except Fault Computer := do
  return idle (← Memory.ofValues wordSize memorySize) table

/-- A memory of a stated word size and memory size that no machine watches. -/
def memoryOnly (wordSize memorySize : Value) : Except Fault Computer := do
  return { idle (← Memory.ofValues wordSize memorySize) .standard with memoryWatchers := [] }

/-- The computer with one more program. -/
def addProgram (c : Computer) (p : Program) : Computer :=
  { c with programs := c.programs ++ [p] }

/-- The computer after writing values to stated addresses, in order; the first refusal ends it. -/
def writeAll (c : Computer) (writes : List (Value × Value)) : Except Fault Computer :=
  writes.foldlM (fun c w =>
    match c.perform (.write w.1 w.2) with
    | (.ok _, c) => .ok c
    | (.error fault, _) => .error fault) c

/-- The number of registrations with a source. -/
def registrations (c : Computer) : Source → Nat
  | .memory => c.memoryWatchers.length
  | .machine => c.machineWatchers.length
  | .program index => (c.programs[index]?.map fun p => p.watchers.length).getD 0

end Accumulator.Computer
