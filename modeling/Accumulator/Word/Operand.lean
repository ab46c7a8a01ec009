import Accumulator.Fault

/-! Words from values. A word is built from two stated quantities, and combines with operands and
shift amounts that are checked first. -/

namespace Accumulator.Word

/-- The word of a stated value and width: the value is checked first, and truncated to the width. -/
def ofValues (value width : Value) : Except Fault Word := do
  let value ← Quantity.wordValue.natural value
  let width ← widthOf width
  return truncate width value

/-- The operand of a word: a word of the same width. -/
def operand (a : Word) : Value → Except Fault Word
  | .word b => if b.width = a.width then .ok b else .error (.operandWidth b.width a.width)
  | got => .error (.operandNotWord got)

/-- What can be done to a word. -/
inductive Action
  | and (operand : Value)
  | or (operand : Value)
  | xor (operand : Value)
  | not
  | shl (amount : Value)
  | shr (amount : Value)

/-- The word that an action makes of a word. -/
def act (a : Word) : Action → Except Fault Word
  | .and v => return a.and (← a.operand v)
  | .or v => return a.or (← a.operand v)
  | .xor v => return a.xor (← a.operand v)
  | .not => return a.complement
  | .shl v => return a.shiftLeft (← Quantity.shiftAmount.natural v)
  | .shr v => return a.shiftRight (← Quantity.shiftAmount.natural v)

/-- A value is this word. -/
def isValue (a : Word) : Value → Bool
  | .word b => a = b
  | _ => false

end Accumulator.Word
