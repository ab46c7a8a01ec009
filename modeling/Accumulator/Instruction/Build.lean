import Accumulator.Fault

/-! Instructions from values. The name is resolved first, then the arguments are counted, and then
each of them is checked. -/

namespace Accumulator

/-- The operation that a value names: an operation itself, or a text. -/
def Operation.ofValue : Value → Except Fault Operation
  | .operation op => .ok op
  | .text name =>
    match Operation.ofName? name.toList with
    | some op => .ok op
    | none => .error (.unknownName (.text name))
  | got => .error (.unknownName got)

/-- The operation that a table has under a value: an operation is looked up by itself or by its
mnemonic, letter for letter. -/
def Operation.ofKey? : Value → Option Operation
  | .operation op => some op
  | .text name => Operation.all.find? fun op => op.mnemonic == name
  | _ => none

namespace Instruction

/-- The instruction of an operation with the given arguments. -/
def ofArgs (op : Operation) : List Value → Except Fault Instruction
  | [] => .ok ⟨op, none⟩
  | [arg] => do return ⟨op, some (← Quantity.instructionArgument.natural arg)⟩
  | args => .error (.tooManyArgs op args.length)

/-- The instruction with a name and with arguments in a list or tuple, or with none. -/
def ofValues (name args : Value) : Except Fault Instruction := do
  let op ← Operation.ofValue name
  match args with
  | .none => ofArgs op []
  | .list items | .tuple items => ofArgs op items
  | got => .error (.argsNotSequence got)

/-- The items of a value, or a refusal. -/
def itemsOf (v : Value) : Except Fault (List Value) :=
  match v.items? with
  | some items => .ok items
  | none => .error (.notIterable v)

/-- The instruction that a program takes for a name and arguments: an instruction in place of the
name stands for itself, and the arguments may be any sequence. -/
def ofNameOrInstruction (name args : Value) : Except Fault Instruction :=
  match name with
  | .instruction i => .ok i
  | name => do ofValues name (.tuple (← itemsOf args))

/-- The instruction that an entry of a program stands for: itself, or a pair of name and
arguments. -/
def ofEntry (entry : Value) : Except Fault Instruction :=
  match entry with
  | .instruction i => .ok i
  | entry => do
    match ← itemsOf entry with
    | [name, args] => ofValues name (.tuple (← itemsOf args))
    | _ => .error (.notPair entry)

/-- The instructions of a program given as a sequence of entries. -/
def ofEntries (entries : Value) : Except Fault (List Instruction) := do
  (← itemsOf entries).mapM ofEntry

/-- The instruction as a call, if its address can be written. -/
def writtenText (i : Instruction) : Except Fault String := written i.args i.text

end Instruction

end Accumulator
