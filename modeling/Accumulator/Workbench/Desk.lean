import Accumulator.Workbench.Playback

/-! Several playbacks of one session. The buttons may be pressed while playbacks go on, and nothing
says in which order the playbacks come to show the panels or are closed, nor when there is time for
which of the play loops. -/

namespace Accumulator.Workbench

/-- A session and its playbacks in the order in which they were begun. -/
structure Desk where
  session : Session
  playbacks : List Playback := []

/-- What may come next: a button is pressed, a playback goes on or is closed, or a play loop is
given time. -/
inductive Move
  | step
  | stop
  | play (delay : Number.Binary64)
  | advance (playback : Nat)
  | close (playback : Nat)
  | runLoop (loop : Nat)
deriving DecidableEq, Repr

namespace Desk

/-- Makes a move: what the panels show on it, if they are shown, and the desk after it. -/
def make (d : Desk) : Move → Option (Except Fault Views) × Desk
  | .step =>
    let (views, session) := d.session.step
    (some views, { d with session })
  | .stop =>
    let (views, session) := d.session.stop
    (some views, { d with session })
  | .play delay =>
    let (views, playback, session) := d.session.beginPlay (.float delay)
    (some views, { session, playbacks := d.playbacks ++ [playback] })
  | .advance k =>
    match d.playbacks[k]? with
    | none => (none, d)
    | some playback =>
      let (views, playback, session) := d.session.advance playback
      (views, { session, playbacks := d.playbacks.set k playback })
  | .close k =>
    match d.playbacks[k]? with
    | none => (none, d)
    | some playback =>
      (none, { session := d.session.close playback, playbacks := d.playbacks.set k .over })
  | .runLoop loop => (none, { d with session := d.session.runLoop loop })

/-- The desk after moves. -/
def makeAll (d : Desk) (moves : List Move) : Desk :=
  moves.foldl (fun d move => (d.make move).2) d

end Desk

end Accumulator.Workbench
