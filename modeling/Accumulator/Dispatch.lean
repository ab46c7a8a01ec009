import Accumulator.Instruction.Build

/-! The dispatch table of a machine: for each operation that it supports, the operation that its
circuits perform. In the standard table every operation performs itself. A table is filled before it
is put to use, and then takes no more entries. -/

namespace Accumulator

/-- The entries of a table in the order of their registration. -/
structure Dispatch where
  entries : List (Operation × Operation) := []
  frozen : Bool := false
deriving DecidableEq, Repr

namespace Dispatch

/-- What the circuits perform for an operation. -/
def lookup (t : Dispatch) (op : Operation) : Option Operation := t.entries.lookup op

/-- The table has an entry for an operation. -/
def contains (t : Dispatch) (op : Operation) : Bool := (t.lookup op).isSome

/-- The table with one more entry; a table in use and a second entry for an operation are
refused. -/
def register (t : Dispatch) (op circuit : Operation) : Except Fault Dispatch :=
  if t.frozen then .error .tableFrozen
  else if t.contains op then .error (.duplicateEntry op)
  else .ok { t with entries := t.entries ++ [(op, circuit)] }

/-- The table put to use. -/
def freeze (t : Dispatch) : Dispatch := { t with frozen := true }

/-- The table in which every operation performs itself. -/
def standard : Dispatch := ⟨Operation.all.map fun op => (op, op), true⟩

/-- The table with one entry after the other, the operations of which are named by values. -/
def registerAll (t : Dispatch) : List (Value × Operation) → Except Fault Dispatch
  | [] => .ok t
  | (name, circuit) :: entries => do
    let t ← t.register (← Operation.ofValue name) circuit
    t.registerAll entries

/-- The table of the given entries, put to use. -/
def ofEntries (entries : List (Value × Operation)) : Except Fault Dispatch :=
  (registerAll {} entries).map freeze

/-- The mnemonics of the supported operations in alphabetical order. -/
def mnemonics (t : Dispatch) : List String :=
  (t.entries.map fun entry => entry.1.mnemonic).mergeSort

end Dispatch

end Accumulator
