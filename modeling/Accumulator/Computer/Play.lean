import Accumulator.Computer.Step

/-! Playing a program. Playing begins a run and makes a loop for it, which takes a step each time it
is resumed and then sleeps. A loop goes on while its run is the current one: stopping begins another
run, so that the loop ends when it is resumed next. A loop that ends while its run is current gives
notice that the program is no longer playing.

A loop sleeps by handing its delay to whoever has resumed it. Only the last loop to be resumed is
waited for: a subscriber that resumes another loop in the midst of a step takes the place of the one
who resumed the first, and when the other loop sleeps or ends, nobody waits for either of them. -/

namespace Accumulator.Routine

variable (call : Caller)

/-- The delay of a play, which is that of the program unless another is given. -/
def delayOf (p : Program) : Value → Value
  | .none => p.stepDelay
  | delay => delay

/-- Makes the loop of the current run of a program. -/
def makeLoop (index : Nat) (delay : Value) : Routine Nat := do
  let p ← program index
  let number := (← get).loops.length
  modify fun c =>
    { c with loops := c.loops ++ [{ program := index, run := p.run, delay := delayOf p delay }] }
  return number

/-- Begins a run of a program, and gives notice; then makes the loop of the run that is current by
then, which has not taken a step yet. -/
def play (index : Nat) (delay : Value) : Routine Nat := do
  let p ← program index
  if p.isComplete then throw .programComplete
  else if p.playing then throw .alreadyPlaying
  else
    modifyProgram index fun p => { p with run := p.run + 1, playing := true }
    log (.playBegun p.counter)
    notifyProgram call index
    makeLoop index delay

/-- Ends the current run of a program that is playing, and gives notice. -/
def stop (index : Nat) : Routine Unit := do
  let p ← program index
  if p.playing then
    modifyProgram index fun p => { p with run := p.run + 1, playing := false }
    log (.stopped p.counter)
    notifyProgram call index

/-- A delay is over at once: it is zero or less. -/
def passesAtOnce : Value → Except Fault Bool
  | .bool b => .ok !b
  | .int n => .ok (n ≤ 0)
  | .float x => .ok x.isNonPositive
  | got => .error (.notPause got)

/-- Sleeps for a delay, and answers what is handed over: the delay. When nobody waits, a delay that
is over at once is slept without a word, and any other one cannot be slept. -/
def sleep (delay : Value) : Routine Value := do
  if (← get).awaited then return delay
  else if ← conclude (passesAtOnce delay) then return .none
  else throw .notAwaited

/-- Takes one step for a loop whose run is current, and lets it sleep if there is a next one;
answers what it hands over then. -/
def loopStep (l : PlayLoop) : Routine (Option Value) := do
  let p ← program l.program
  if p.run = l.run && !p.isComplete then
    let _ ← step call l.program
    if (← program l.program).isComplete then return none
    else return some (← sleep l.delay)
  else
    return none

/-- Ends the run of a loop if it is current, and gives notice. -/
def endRun (l : PlayLoop) : Routine Unit := do
  let p ← program l.program
  if p.run = l.run then
    modifyProgram l.program fun p => { p with playing := false }
    notifyProgram call l.program

/-- Ends a loop that has left off with an outcome. -/
def endLoop (l : PlayLoop) (outcome : Except Fault (Option Value)) : Routine Unit := do
  let _ ← ensuring (conclude outcome) (endRun call l)
  let p ← program l.program
  log (.playEnded p.counter p.isComplete)

/-- Resumes a loop until it sleeps or ends. -/
def resume (index : Nat) (l : PlayLoop) : Routine Answer := do
  setStage index .running
  match ← attempt (loopStep call l) with
  | .ok (some delay) => do
    setStage index .suspended
    return .sleep delay
  | outcome => do
    ensuring (endLoop call l outcome) (setStage index .ended)
    return .ended

/-- Resumes a loop and waits for it. -/
def await (index : Nat) (l : PlayLoop) : Routine Answer := do
  setAwaited true
  ensuring (resume call index l) (setAwaited false)

/-- Resumes the loop of a number. -/
def tick (index : Nat) : Routine Answer := do
  match (← get).loops[index]? with
  | none => return .noSuchLoop
  | some l =>
    match l.stage with
    | .fresh | .suspended => await call index l
    | .running => throw .loopRunning
    | .ended => return .alreadyEnded

/-- Ends the loop of a number where it sleeps. A loop that has not taken a step has no run to
end. -/
def cancel (index : Nat) : Routine Answer := do
  match (← get).loops[index]? with
  | none => return .noSuchLoop
  | some l =>
    match l.stage with
    | .fresh => do
      setStage index .ended
      return .cancelled
    | .suspended => do
      setStage index .running
      ensuring (endRun call l) (setStage index .ended)
      return .cancelled
    | .running => throw .loopRunning
    | .ended => return .alreadyEnded

end Accumulator.Routine
