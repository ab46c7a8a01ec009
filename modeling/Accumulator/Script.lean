import Accumulator.Computer.Build

/-! Scripted subscribers. A script is a reaction, a condition on the notice, and the number of times
that the reaction is played; on any other notice the subscriber only takes note. -/

namespace Accumulator

/-- The notices on which a script acts. -/
inductive Condition
  | always | idle | decoded | complete | playing
deriving DecidableEq, Repr

/-- A condition holds of a notice. A memory meets no condition but `always`, and only a program is
complete or playing. -/
def Condition.holds : Condition → Notice → Bool
  | always, _ => true
  | idle, .machine m => !m.isDecoded
  | idle, .program view => view.phase = .fetch
  | decoded, .machine m => m.isDecoded
  | decoded, .program view => view.phase = .decoded
  | complete, .program view => view.complete
  | playing, .program view => view.playing
  | _, _ => false

/-- What a subscriber does, on which notices and how many times. -/
structure Script where
  reaction : Option Reaction := none
  condition : Condition := .always
  times : Nat := 1

/-- The subscriber of a script, which counts the times that it has acted. -/
def Script.subscriber (s : Script) : Subscriber where
  react acted notice :=
    match s.reaction with
    | some reaction =>
      if acted < s.times && s.condition.holds notice then (acted + 1, reaction)
      else (acted, .done)
    | none => (acted, .done)

/-- The computer with the subscribers of scripts, bounded by the number of times that they act. -/
def Computer.withScripts (c : Computer) (scripts : List Script) : Computer :=
  { c with
    subscribers := scripts.map Script.subscriber
    bound := scripts.foldr (fun s bound => s.times + bound) 0 }

end Accumulator
