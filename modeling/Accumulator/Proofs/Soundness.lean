import Accumulator.Computer.Build
import Accumulator.Proofs.Change

/-! Soundness of the computer. Whatever calls are made, and whatever subscribers do when they are
told, the machine is sound after each call and at each moment at which a subscriber is told. The
data register is the delicate part: it is kept only by the machine's watch on its own memory, which
comes before all others. -/

namespace Accumulator

/-- How a subscriber changes and reacts on a notice. -/
abbrev Conduct := Nat → Notice → Nat × Reaction

/-- What a notice shows of a memory or a machine is sound. -/
def Notice.Sound (w n : Nat) (t : Dispatch) : Notice → Prop
  | .memory m => m.Sound w n
  | .machine m => m.Sound w n t
  | .program _ => True

/-- The machine is sound, and was sound whenever a subscriber was told; every notice shows a sound
state. The table is the given one, the machine watches its memory first, and the subscribers act as
`B` allows. -/
structure Computer.Sound (w n : Nat) (t : Dispatch) (B : Conduct → Prop) (c : Computer) : Prop where
  machine : c.machine.Sound w n t
  events : ∀ e ∈ c.events, e.moment.Sound w n t ∧ e.notice.Sound w n t
  table : c.table = t
  watched : ∃ rest, c.memoryWatchers = .dataRegister :: rest
  conduct : ∀ s ∈ c.subscribers, B s.react

/-- The computers that come of a machine at rest, with `n` cells of `w` bits and a table, by
building programs on it and making calls of any kind. The subscribers act as `B` allows. -/
inductive Computer.Reachable (w n : Nat) (t : Dispatch) (B : Conduct → Prop) : Computer → Prop
  | idle (subscribers : List Subscriber) (bound : Nat) : (∀ s ∈ subscribers, B s.react) →
      Reachable w n t B { Computer.idle (.zeros w n) t with subscribers, bound }
  | build {c : Computer} {p : Program} (entries delay : Value) : Reachable w n t B c →
      Program.ofEntries c.machine.memory entries delay = .ok p →
      Reachable w n t B (c.addProgram p)
  | call {c : Computer} (command : Command) : Reachable w n t B c →
      Reachable w n t B (c.perform command).2

variable {w n : Nat} {t : Dispatch} {B : Conduct → Prop}

theorem Machine.Change.sound {m after : Machine} (h : m.Change t after) (hm : m.Sound w n t) :
    after.Sound w n t := by
  cases h with
  | decode i hi => exact hm.decoded hi
  | consume => exact hm.consume
  | compute circuit _ => exact hm.operated circuit
  | store a k _ => exact hm.stored a k
  | refresh => rwa [hm.refresh]

namespace Computer

/-- Neither registering nor removing a subscriber takes away the first watch on the memory. -/
theorem Change.watched {N : Notice → Prop} {c d : Computer} (h : c.Change N d)
    (hc : ∃ rest, c.memoryWatchers = .dataRegister :: rest) :
    ∃ rest, d.memoryWatchers = .dataRegister :: rest := by
  obtain ⟨rest, hrest⟩ := hc
  cases h with
  | watchMemory subscriber => exact ⟨rest ++ [.subscriber subscriber], by simp [hrest]⟩
  | unwatchMemory subscriber =>
    exact ⟨rest.filter (· ≠ .subscriber subscriber), by simp [hrest]⟩
  | _ => exact ⟨rest, hrest⟩

theorem Change.conduct {N : Notice → Prop} {c d : Computer} (h : c.Change N d)
    (hc : ∀ s ∈ c.subscribers, B s.react) : ∀ s ∈ d.subscribers, B s.react := by
  cases h with
  | note subscriber state =>
    intro s hs
    obtain ⟨j, hj⟩ := List.mem_iff_getElem?.mp hs
    rw [List.getElem?_modify] at hj
    obtain ⟨r, hr, rfl⟩ := Option.map_eq_some_iff.mp hj
    have hB := hc r (List.mem_of_getElem? hr)
    split
    · exact hB
    · exact hB
  | _ => exact hc

theorem Sound.invariant : Invariant (Notice.Sound w n t) (Computer.Sound w n t B) where
  watched h := h.watched
  machine h := h.machine
  memory h := h.machine.memory
  program _ _ := trivial
  change {c d} hc h := by
    refine ⟨?_, ?_, ?_, h.watched hc.watched, h.conduct hc.conduct⟩
    · cases h with
      | machine hm => exact (hc.table ▸ hm).sound hc.machine
      | _ => exact hc.machine
    · cases h with
      | give subscriber source notice hN =>
        intro e he
        rcases List.mem_cons.mp he with rfl | he
        · exact ⟨hc.machine, hN⟩
        · exact hc.events e he
      | _ => exact hc.events
    · cases h <;> exact hc.table

theorem Sound.idle (hn : 0 < n) (subscribers : List Subscriber) (bound : Nat)
    (hB : ∀ s ∈ subscribers, B s.react) :
    Sound w n t B { Computer.idle (.zeros w n) t with subscribers, bound } where
  machine := Machine.Sound.idle hn
  events _ he := nomatch he
  table := rfl
  watched := ⟨[], rfl⟩
  conduct := hB

theorem Sound.withPrograms {c : Computer} (h : c.Sound w n t B) (programs : List Program) :
    Sound w n t B { c with programs } :=
  ⟨h.machine, h.events, h.table, h.watched, h.conduct⟩

theorem Sound.addProgram {c : Computer} (h : c.Sound w n t B) (p : Program) :
    (c.addProgram p).Sound w n t B :=
  h.withPrograms _

theorem Sound.perform {c : Computer} (h : c.Sound w n t B) (command : Command) :
    (c.perform command).2.Sound w n t B :=
  Sound.invariant.perform h command

theorem Sound.perform_bound {c : Computer} (h : c.Sound w n t B) (command : Command) :
    (c.perform command).2.bound = c.bound :=
  ((Sound.invariant.bound c.bound).perform ⟨h, rfl⟩ command).2

theorem Sound.performAll {c : Computer} (h : c.Sound w n t B) (commands : List Command) :
    (c.performAll commands).Sound w n t B := by
  induction commands generalizing c with
  | nil => exact h
  | cons command commands ih => exact ih (h.perform command)

theorem Sound.imp {c : Computer} {D : Conduct → Prop} (h : c.Sound w n t B)
    (hD : ∀ react, B react → D react) : c.Sound w n t D :=
  ⟨h.machine, h.events, h.table, h.watched, fun s hs => hD _ (h.conduct s hs)⟩

theorem Reachable.performAll {c : Computer} (h : c.Reachable w n t B) (commands : List Command) :
    (c.performAll commands).Reachable w n t B := by
  induction commands generalizing c with
  | nil => exact h
  | cons command commands ih => exact ih (h.call command)

theorem Reachable.sound (hn : 0 < n) {c : Computer} (h : c.Reachable w n t B) :
    c.Sound w n t B := by
  induction h with
  | idle subscribers bound hB => exact Sound.idle hn subscribers bound hB
  | build _ _ _ _ ih => exact ih.addProgram _
  | call command _ ih => exact ih.perform command

/-- Every computer that comes of a machine at rest is sound, whatever its subscribers do. So is it
after each call that a subscriber makes in its turn: a subscriber is told at a sound moment, and a
call of any depth takes a sound computer to a sound one. -/
theorem sound_at_every_moment (hn : 0 < n) :
    (∀ c, Reachable w n t (fun _ => True) c → c.Sound w n t fun _ => True) ∧
    ∀ c depth command, c.Sound w n t (fun _ => True) →
      ((Routine.performWithin depth command).on c).2.Sound w n t fun _ => True :=
  ⟨fun _ h => h.sound hn, fun c depth command h =>
    Sound.invariant.keeps_performWithin depth command c h⟩

/-- A watcher of the memory writes to it in its turn the first three times that it is told, and
fails from then on. -/
theorem sound_at_every_moment_rewriting :
    let watcher : Subscriber :=
      { react := fun state _ => (state + 1,
          if state < 3 then .once (.write (.int state) (.int 0)) else .fail (.noEntry .or)) }
    let c := ({ idle (.zeros 4 2) .standard with subscribers := [watcher], bound := 9 }).performAll
      [.observe .memory 0, .decode (.instruction ⟨.load, some 0⟩), .write (.int 9) (.int 0)]
    c.events.length = 5 ∧ c.Sound 4 2 .standard fun _ => True := by
  refine ⟨rfl, (sound_at_every_moment (by decide)).1 _ (Reachable.performAll ?_ _)⟩
  exact .idle _ 9 fun _ _ => trivial

end Computer

end Accumulator
