import Accumulator.Instruction
import Accumulator.Number.Binary64
import Accumulator.Text.Quoted
import Accumulator.Word

/-! Values: what a caller may pass where the machine asks for a number, a name, an instruction or a
sequence. A call says what it accepts and refuses every other value with a message that shows it. -/

namespace Accumulator

/-- An argument of a call. -/
inductive Value
  | none
  | bool (b : Bool)
  | int (n : Int)
  | float (x : Number.Binary64)
  | text (s : String)
  | list (items : List Value)
  | tuple (items : List Value)
  | word (w : Word)
  | operation (op : Operation)
  | instruction (i : Instruction)
deriving Repr

instance : Inhabited Value := ⟨.none⟩

/-- An operation as messages show it. -/
def Operation.shown (op : Operation) : String :=
  "<Operation." ++ op.label ++ ": " ++ Text.quote op.mnemonic ++ ">"

/-- A word as messages show it. -/
def Word.shown (w : Word) : String :=
  "Word(value=" ++ toString w.value ++ ", width=" ++ toString w.width ++ ")"

/-- An instruction as messages show it. -/
def Instruction.shown (i : Instruction) : String :=
  let args :=
    match i.address with
    | .none => "()"
    | .some address => "(" ++ toString address ++ ",)"
  "Instruction(operation=" ++ i.operation.shown ++ ", args=" ++ args ++ ")"

namespace Value

mutual

/-- A value as messages show it. -/
def shown : Value → String
  | .none => "None"
  | .bool true => "True"
  | .bool false => "False"
  | .int n => toString n
  | .float x => x.text
  | .text s => Text.quote s
  | .list items => "[" ++ shownItems items ++ "]"
  | .tuple [v] => "(" ++ v.shown ++ ",)"
  | .tuple items => "(" ++ shownItems items ++ ")"
  | .word w => w.shown
  | .operation op => op.shown
  | .instruction i => i.shown

/-- The items of a sequence as messages show them. -/
def shownItems : List Value → String
  | [] => ""
  | [v] => v.shown
  | v :: w :: rest => v.shown ++ ", " ++ shownItems (w :: rest)

end

mutual

/-- Every number that is shown of a value can be written in decimal. -/
def isWritable : Value → Bool
  | .int n => Number.isWritable n.natAbs
  | .list items | .tuple items => areWritable items
  | .word w => Number.isWritable w.value && Number.isWritable w.width
  | .instruction i => i.args.all Number.isWritable
  | .none | .bool _ | .float _ | .text _ | .operation _ => true

/-- Every number that is shown of the items can be written in decimal. -/
def areWritable : List Value → Bool
  | [] => true
  | v :: rest => v.isWritable && areWritable rest

end

mutual

/-- The value can be looked up in a table: there is no list in it. -/
def isKey : Value → Bool
  | .list _ => false
  | .tuple items => areKeys items
  | _ => true

/-- The items can be looked up in a table. -/
def areKeys : List Value → Bool
  | [] => true
  | v :: rest => v.isKey && areKeys rest

end

/-- The items of a value that is a sequence; those of a text are its characters. -/
def items? : Value → Option (List Value)
  | .list items | .tuple items => some items
  | .text s => some (s.toList.map fun c => .text (String.singleton c))
  | .operation op => some (op.mnemonic.toList.map fun c => .text (String.singleton c))
  | _ => Option.none

end Value

end Accumulator
