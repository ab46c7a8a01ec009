import Accumulator.Text.Blank

/-! Operations and instructions. An instruction is an operation with at most one argument, the
address of the cell that it works on; without one it works on the cell selected before. -/

namespace Accumulator

/-- What the machine can do. -/
inductive Operation
  | or | and | xor | not | lshift | rshift | load | store
deriving DecidableEq, Repr

namespace Operation

/-- Every operation, the logic first and then the shifts and the moves. -/
def all : List Operation := [or, and, xor, not, lshift, rshift, load, store]

/-- The name of an operation in a program. -/
def mnemonic : Operation → String
  | or => "or"
  | and => "and"
  | xor => "xor"
  | not => "not"
  | lshift => "lshift"
  | rshift => "rshift"
  | load => "load"
  | store => "store"

/-- The name of an operation in capitals. -/
def label : Operation → String
  | or => "OR"
  | and => "AND"
  | xor => "XOR"
  | not => "NOT"
  | lshift => "LSHIFT"
  | rshift => "RSHIFT"
  | load => "LOAD"
  | store => "STORE"

/-- The operation with a mnemonic, in any letter case and with blanks around it. Letters beyond
ASCII are left as they are: none of them has a small letter that occurs in a mnemonic. -/
def ofName? (name : List Char) : Option Operation :=
  all.find? fun op => op.mnemonic.toList == (Text.trim name).map Char.toLower

end Operation

/-- An operation and its argument. -/
structure Instruction where
  operation : Operation
  address : Option Nat := none
deriving DecidableEq, Repr

namespace Instruction

/-- The mnemonic of the operation. -/
def name (i : Instruction) : String := i.operation.mnemonic

/-- The arguments, none or one. -/
def args (i : Instruction) : List Nat := i.address.toList

/-- The instruction as a call: its mnemonic, and its argument in parentheses. -/
def text (i : Instruction) : String :=
  match i.address with
  | none => i.name ++ "()"
  | some address => i.name ++ "(" ++ toString address ++ ")"

end Instruction

end Accumulator
