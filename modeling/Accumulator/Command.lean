import Accumulator.Program

/-! Calls, notices and subscribers. A computer is driven by calls, and it gives notice of each
change to the subscribers of its memory, of its machine and of its programs. A subscriber that is
given notice may do nothing, fail, or make calls of its own. -/

namespace Accumulator

/-- What gives notice of its changes. -/
inductive Source
  | memory
  | machine
  | program (index : Nat)
deriving DecidableEq, Repr

/-- A call. Programs, play loops and subscribers are given by their numbers. -/
inductive Command
  | step (program : Nat)
  | run (program : Nat)
  | append (program : Nat) (name args : Value)
  | insert (program : Nat) (name args position : Value)
  | play (program : Nat) (delay : Value)
  | stop (program : Nat)
  | tick (loop : Nat)
  | cancel (loop : Nat)
  | decode (instruction : Value)
  | execute
  | operate (circuit : Operation)
  | dispatch (op : Operation)
  | write (value address : Value)
  | read (address : Value)
  | validate (address : Value)
  | observe (source : Source) (subscriber : Nat)
  | unobserve (source : Source) (subscriber : Nat)
  | observeValue (source : Source) (value : Value)

/-- What a call answers when it is not refused. -/
inductive Answer
  | nothing
  | flag (b : Bool)
  | number (n : Nat)
  | instruction (i : Instruction)
  | loop (index : Nat)
  | sleep (delay : Value)
  | ended
  | cancelled
  | alreadyEnded
  | noSuchLoop

/-- What a subscriber is given: its source as it is after the change. -/
inductive Notice
  | memory (m : Memory)
  | machine (m : Machine)
  | program (view : ProgramView)
deriving DecidableEq, Repr

/-- What a subscriber does on a notice: nothing, fail, or make a call and go on from its outcome. -/
inductive Reaction
  | done
  | fail (fault : Fault)
  | call (command : Command) (next : Except Fault Answer → Reaction)

/-- The reaction that makes one call and fails if it is refused. -/
def Reaction.once (command : Command) : Reaction :=
  .call command fun
    | .ok _ => .done
    | .error fault => .fail fault

/-- A subscriber: a private state, and how it changes and reacts on a notice. -/
structure Subscriber where
  state : Nat := 0
  react : Nat → Notice → Nat × Reaction

/-- The subscriber that only takes note. -/
def Subscriber.recorder : Subscriber where
  react state _ := (state, .done)

end Accumulator
