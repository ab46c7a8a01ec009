/-! The example programs of the workbench, each with the cells that it starts from. -/

namespace Accumulator.Workbench

/-- A program text and a list of assignments to begin with. -/
structure Example where
  source : String := ""
  memoryInit : String := ""
deriving DecidableEq, Repr

/-- One pass of the adder, which leaves the sum without carries and the carries. -/
def adderExample : Example where
  source := "\n".intercalate [
    "load 0      # a",
    "xor 1       # a ^ b",
    "store 2     # partial sum",
    "load 0",
    "and 1       # a & b",
    "lshift      # carry",
    "store 1",
    "load 2",
    "store 0     # M[0] = partial sum, M[1] = carry"]
  memoryInit := "0=7, 1=1"

/-- The complement of a cell. -/
def invertExample : Example where
  source := "\n".intercalate ["load 0", "not", "store 1"]
  memoryInit := "0=0b10100101"

/-- Half of a cell. -/
def halveExample : Example where
  source := "\n".intercalate ["load 0", "rshift", "store 0"]
  memoryInit := "0=200"

/-- The example of a name; every other name stands for an empty one. -/
def exampleOf (name : String) : Example :=
  if name = "Adder pass (7 + 1)" then adderExample
  else if name = "Invert" then invertExample
  else if name = "Halve" then halveExample
  else {}

end Accumulator.Workbench
