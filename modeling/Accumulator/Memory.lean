import Accumulator.Fault

/-! Memory: a row of cells, each a word. An address is checked before a cell is read or written, and
what is written loses the bits that do not fit into a cell. -/

namespace Accumulator

/-- The cells of a memory in the order of their addresses, and their width. -/
structure Memory where
  wordSize : Nat
  cells : List Nat
deriving DecidableEq, Repr

namespace Memory

/-- The number of cells. -/
def size (m : Memory) : Nat := m.cells.length

/-- The greatest number that a cell holds. -/
def wordMask (m : Memory) : Nat := Word.mask m.wordSize

/-- A memory whose cells are all zero. -/
def zeros (wordSize size : Nat) : Memory := ⟨wordSize, List.replicate size 0⟩

/-- A number of cells that there is room for. -/
def checkSize (size : Nat) : Except Fault Unit :=
  if size ≤ Capacity.cells then .ok () else .error (.memoryTooLarge size)

/-- The memory of zeros with a stated width and number of cells, if there is room for it. -/
def ofValues (wordSize size : Value) : Except Fault Memory := do
  let wordSize ← Quantity.wordSize.positive wordSize
  let size ← Quantity.memorySize.positive size
  Word.checkWidth wordSize
  checkSize size
  return zeros wordSize size

/-- The address that a value states. -/
def address (m : Memory) : Value → Except Fault Nat
  | .int (.ofNat n) => if n < m.size then .ok n else .error (.badAddress (.int n) m.size)
  | got => .error (.badAddress got m.size)

/-- The content of a cell. -/
def cell (m : Memory) (a : Nat) : Nat := m.cells.getD a 0

/-- The memory with the low bits of an integer in a cell. -/
def set (m : Memory) (a : Nat) (n : Int) : Memory :=
  { m with cells := m.cells.set a (Word.lowBits m.wordSize n) }

/-- The content of the cell at a stated address. -/
def read (m : Memory) (v : Value) : Except Fault Nat := do
  return m.cell (← m.address v)

/-- The memory with a stated value at a stated address; the address is checked first. -/
def write (m : Memory) (value a : Value) : Except Fault Memory := do
  let a ← m.address a
  let n ← Quantity.memoryValue.integer value
  return m.set a n

/-- The cells in binary. -/
def binaryCells (m : Memory) : List String := m.cells.map (binary m.wordSize)

/-- A stated cell of a stated width, to be drawn in binary: the cell is checked first. -/
def drawnCell (wordSize cell : Value) : Except Fault Nat := do
  let n ← Quantity.wordValue.natural cell
  let _ ← Word.widthOf wordSize
  return n

/-- A memory with stated cells, which may be wider than its words, to be drawn as a table: it needs
a cell, and each cell is checked together with the width. -/
def drawn (wordSize : Value) : List Value → Except Fault Memory
  | [] => .error .emptyTable
  | cells => do
    let cells ← cells.mapM (drawnCell wordSize)
    return ⟨← Word.widthOf wordSize, cells⟩

end Memory

end Accumulator
