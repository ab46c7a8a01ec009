import Accumulator.Workbench.Session

/-! Playing at the workbench. A playback begins a run of the program and shows the panels again
and again until the loop of its run has ended; then it stops the program, whoever plays it, and
shows the panels for the last time. The loops go on by themselves, whenever there is time for
them. A playback that is closed while it is showing stops the program at once. -/

namespace Accumulator.Workbench

/-- How far a playback has come: it shows the run of a play loop, or has nothing more to show. -/
inductive Playback
  | showing (loop : Nat)
  | over
deriving DecidableEq, Repr

namespace Session

/-- A play loop has ended. -/
def loopEnded (s : Session) (index : Nat) : Bool :=
  match s.computer.loops[index]? with
  | some l => l.stage = .ended
  | none => true

/-- Gives time to a play loop: it takes a step if its run is current. A loop that fails leaves its
failure behind. -/
def runLoop (s : Session) (index : Nat) : Session :=
  match s.perform (.tick index) with
  | (.ok _, s) => s
  | (.error fault, s) => { s with failures := (index, fault) :: s.failures }

/-- Gives time to every play loop once, in the order in which they were made. -/
def runLoops (s : Session) : Session :=
  (List.range s.computer.loops.length).foldl (fun s index => s.runLoop index) s

/-- Gives time to the play loops until one of them has ended; at most `limit` times. -/
def runUntilEnded (index : Nat) : Nat → Session → Session
  | 0, s => s
  | limit + 1, s => if s.loopEnded index then s else runUntilEnded index limit s.runLoops

/-- Closes a playback. -/
def close (s : Session) : Playback → Session
  | .over => s
  | .showing _ => (s.perform (.stop 0)).2

/-- Shows the panels in a playback that goes on; if they cannot be shown, it closes. -/
def showPlaying (s : Session) (index : Nat) : Except Fault Views × Playback × Session :=
  match s.views "" with
  | .ok views => (.ok views, .showing index, s)
  | .error fault => (.error fault, .over, s.close (.showing index))

/-- Begins a playback and shows the panels. A refusal is all that the playback shows. -/
def beginPlay (s : Session) (delay : Value) : Except Fault Views × Playback × Session :=
  match s.perform (.play 0 delay) with
  | (.ok (.loop index), s) => s.showPlaying index
  | (outcome, s) => (s.viewsAfter outcome, .over, s)

/-- Goes on with a playback: shows the panels while its loop goes on, and stops the program and
shows them for the last time when it has ended; a playback that is over shows nothing. -/
def advance (s : Session) : Playback → Option (Except Fault Views) × Playback × Session
  | .over => (none, .over, s)
  | .showing index =>
    if s.loopEnded index then
      let (_, s) := s.perform (.stop 0)
      let status := ((s.failures.lookup index).map refusal).getD ""
      (some (s.views status), .over, s)
    else
      let (views, playback, s) := s.showPlaying index
      (some views, playback, s)

/-- The passes in which a loop ends: it takes two steps for each instruction left, and then finds
the end. -/
def passes (s : Session) : Nat :=
  match s.computer.programs with
  | [] => 1
  | p :: _ => 2 * (p.length - p.counter) + 1

/-- Gives time to the loops until that of a playback has ended, and shows the panels for the last
time. -/
def drain (s : Session) : Playback → Option (Except Fault Views) × Session
  | .over => (none, s)
  | .showing index =>
    let (views, _, s) := (runUntilEnded index s.passes s).advance (.showing index)
    (views, s)

end Session

end Accumulator.Workbench
