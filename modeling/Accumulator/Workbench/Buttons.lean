import Accumulator.Workbench.Playback

/-! The buttons of the workbench. They can be pressed before a program is loaded, and then only the
status line has something to show. -/

namespace Accumulator.Workbench

/-- The step button. -/
def pressStep : Option Session → Except Fault Views × Option Session
  | none => (.ok (Session.noViews ""), none)
  | some s =>
    let (views, s) := s.step
    (views, some s)

/-- The stop button. -/
def pressStop : Option Session → Except Fault Views × Option Session
  | none => (.ok (Session.noViews ""), none)
  | some s =>
    let (views, s) := s.stop
    (views, some s)

/-- The play button, which begins a playback. -/
def pressPlay (delay : Value) :
    Option Session → Except Fault Views × Playback × Option Session
  | none => (.ok (Session.noViews ""), .over, none)
  | some s =>
    let (views, playback, s) := s.beginPlay delay
    (views, playback, some s)

/-- Lets a playback go on to its end. -/
def finishPlay (playback : Playback) :
    Option Session → Option (Except Fault Views) × Option Session
  | none => (none, none)
  | some s =>
    let (views, s) := s.drain playback
    (views, some s)

end Accumulator.Workbench
