import Accumulator.Computer

/-! Notifications. A source that has changed shows its state to its subscribers, one after the other
in the order of their registration: all are shown the state that it had when the notification began,
and all that were registered then, whatever the ones before them did. A refusal ends the
notification. The machine watches its own memory before any other: it refreshes its data register
and gives notice itself. -/

namespace Accumulator.Routine

variable (call : Caller)

/-- Does what a subscriber decided. -/
def react : Reaction → Routine Unit
  | .done => return ()
  | .fail fault => throw fault
  | .call command next => do
    let outcome ← attempt (call command)
    react (next outcome)

/-- Gives a subscriber a notice of a source: the event is recorded, and then the subscriber
reacts. -/
def deliver (source : Source) (notice : Notice) (subscriber : Nat) : Routine Unit := do
  modify fun c => { c with events := ⟨subscriber, source, notice, c.machine⟩ :: c.events }
  match (← get).subscribers[subscriber]? with
  | none => return ()
  | some s =>
    let (state, reaction) := s.react s.state notice
    modify fun c =>
      { c with subscribers := c.subscribers.modify subscriber fun s => { s with state } }
    react call reaction

/-- Gives notice of a change in the machine. -/
def notifyMachine : Routine Unit := do
  let c ← get
  c.machineWatchers.forM (deliver call .machine (.machine c.machine))

/-- Tells a watcher of the memory of its state. -/
def tell (memory : Memory) : Watcher → Routine Unit
  | .dataRegister => do
    modifyMachine Machine.refresh
    notifyMachine call
  | .subscriber index => deliver call .memory (.memory memory) index

/-- Gives notice of a change in the memory. -/
def notifyMemory : Routine Unit := do
  let c ← get
  c.memoryWatchers.forM (tell call c.machine.memory)

/-- Gives notice of a change in a program. -/
def notifyProgram (index : Nat) : Routine Unit := do
  let p ← program index
  p.watchers.forM (deliver call (.program index) (.program p.view))

/-- Registers a subscriber, which is shown the source at once. -/
def observe (source : Source) (subscriber : Nat) : Routine Unit := do
  match source with
  | .memory =>
    modify fun c => { c with memoryWatchers := c.memoryWatchers ++ [.subscriber subscriber] }
    deliver call source (.memory (← get).machine.memory) subscriber
  | .machine =>
    modify fun c => { c with machineWatchers := c.machineWatchers ++ [subscriber] }
    deliver call source (.machine (← get).machine) subscriber
  | .program index =>
    let p ← program index
    modifyProgram index fun p => { p with watchers := p.watchers ++ [subscriber] }
    deliver call source (.program p.view) subscriber

/-- Removes every registration of a subscriber with a source. -/
def unobserve (source : Source) (subscriber : Nat) : Routine Unit := do
  match source with
  | .memory =>
    modify fun c =>
      { c with memoryWatchers := c.memoryWatchers.filter (· ≠ .subscriber subscriber) }
  | .machine =>
    modify fun c => { c with machineWatchers := c.machineWatchers.filter (· ≠ subscriber) }
  | .program index =>
    let _ ← program index
    modifyProgram index fun p => { p with watchers := p.watchers.filter (· ≠ subscriber) }

end Accumulator.Routine
