import Accumulator.Computer.Play

/-! Calls on a computer. `Routine.perform` says what each call does, given how the calls of
subscribers are made; those are calls of the same kind, one level further inside, so
`Computer.perform` closes the circle down to the bound of the computer. -/

namespace Accumulator

/-- What a call does. -/
def Routine.perform (call : Caller) : Command → Routine Answer
  | .step index => return .flag (← step call index)
  | .run index => return .number (← run call index)
  | .append index name args => return .instruction (← append call index name args)
  | .insert index name args position =>
    return .instruction (← insert call index name args position)
  | .play index delay => return .loop (← play call index delay)
  | .stop index => do stop call index; return .nothing
  | .tick index => tick call index
  | .cancel index => cancel call index
  | .decode instruction => do decode call instruction; return .nothing
  | .execute => do execute call; return .nothing
  | .operate circuit => do operate call circuit; return .nothing
  | .dispatch op => do dispatch call op; return .nothing
  | .write value address => do write call value address; return .nothing
  | .read address => return .number (← conclude ((← get).machine.memory.read address))
  | .validate address => return .number (← conclude ((← get).machine.memory.address address))
  | .observe source subscriber => do observe call source subscriber; return .nothing
  | .unobserve source subscriber => do unobserve source subscriber; return .nothing
  | .observeValue _ value => throw (.notCallable value)

/-- A call from inside notifications that may nest to a depth. -/
def Routine.performWithin : Nat → Caller
  | 0, _ => throw .nestedTooDeep
  | depth + 1, command => perform (performWithin depth) command

namespace Computer

/-- Makes a call on a computer: its outcome, and the computer after it. -/
def perform (c : Computer) (command : Command) : Except Fault Answer × Computer :=
  (Routine.perform (Routine.performWithin c.bound) command).on c

/-- The computer after calls, whatever their outcomes. -/
def performAll (c : Computer) (commands : List Command) : Computer :=
  commands.foldl (fun c command => (c.perform command).2) c

/-- The computer put away: the loops that still sleep end, in the order in which they were made, and
a refusal by a subscriber changes nothing about that. -/
def shutDown (c : Computer) : Computer :=
  c.performAll ((List.range c.loops.length).map .cancel)

end Computer

end Accumulator
