import Accumulator.Proofs.Hearing
import Accumulator.Proofs.Preparing
import Accumulator.Proofs.Run
import Accumulator.Proofs.Stopping

/-! A computer whose machine is worked by one program alone, with subscribers that only take note.
What the program has decoded is what the machine holds, and its addresses are those of cells; so
each step finds its phase, and no call on the program or on its loops is refused but a play that has
nothing to play or plays already. -/

namespace Accumulator

namespace Progress

/-- The machine accepts the instruction, and it has decoded it. -/
def Executable (m : Machine) (i : Instruction) : Prop :=
  m.Accepts .standard i ∧ m.holds i = true

/-- A program that alone works its machine is between steps: the machine accepts the instructions,
it holds what is decoded and nothing else, and it held what was executed. -/
structure Orderly (w n : Nat) (s : Progress) : Prop where
  regular : s.Regular w n
  consistent : s.Consistent
  executed : ∀ e ∈ s.trace, Executable e.pre e.instruction

variable {w n : Nat} {s : Progress} {i : Instruction}

namespace Orderly

theorem accepts (h : s.Orderly w n) (hi : s.current? = some i) : s.machine.Accepts .standard i :=
  h.regular.sited.accepts hi

theorem ready (h : s.Orderly w n) (hi : s.current? = some i) : s.Ready .standard i :=
  h.regular.sited.ready hi h.regular.pending

theorem executable (h : s.Orderly w n) (hi : s.current? = some i) (hphase : s.phase = .decoded) :
    Executable s.machine i :=
  ⟨h.accepts hi, h.regular.holds hi hphase⟩

theorem next (h : s.Orderly w n) : (s.next .standard).Orderly w n := by
  refine ⟨h.regular.next, h.consistent.next .standard, ?_⟩
  rcases next_trace .standard s with htrace | ⟨i, hi, hphase, hnext⟩
  · rw [htrace]
    exact h.executed
  · rw [hnext]
    intro e he
    rcases List.mem_append.mp he with he | he
    · exact h.executed e he
    · obtain rfl := List.mem_singleton.mp he
      exact h.executable hi hphase

end Orderly

end Progress

namespace Computer

/-- Between calls, a computer whose machine is worked by its first program alone. -/
structure Tended (w n : Nat) (c : Computer) : Prop where
  calm : c.Calm w n .standard
  driven : c.Driven w n .standard 0 0 (Progress.Orderly w n)

variable {w n : Nat} {c d : Computer} {p : Program} {k : Nat} {l : PlayLoop}

namespace Tended

theorem recording (h : c.Tended w n) : c.Recording := h.calm.attended.recording

theorem orderly (h : c.Tended w n) (hp : c.programs[0]? = some p) :
    (p.progress c.machine).Orderly w n := by
  obtain ⟨q, hq, -, horderly⟩ := h.driven.program
  obtain rfl : p = q := Option.some.inj (hp.symm.trans hq)
  exact horderly

theorem stepping (h : c.Tended w n) (hp : c.programs[0]? = some p) : p.stepping = false :=
  h.calm.rest.steps p (List.mem_of_getElem? hp)

theorem perform (h : c.Tended w n) {command : Command} (hdrives : command.Drives 0 0) :
    (c.perform command).2.Tended w n :=
  ⟨h.calm.perform command,
    Routine.driven_perform (Sound.invariant.keeps_performWithin c.bound) (fun _ hs => hs.next)
      hdrives c h.driven⟩

theorem performAll (h : c.Tended w n) {commands : List Command}
    (hdrives : ∀ command ∈ commands, command.Drives 0 0) :
    (c.performAll commands).Tended w n := by
  induction commands generalizing c with
  | nil => exact h
  | cons command commands ih =>
    exact ih (h.perform (hdrives command List.mem_cons_self)) fun other hother =>
      hdrives other (List.mem_cons_of_mem command hother)

/-- What has happened may be forgotten. -/
theorem forget (h : c.Tended w n) : Tended w n { c with events := [], journal := [] } := by
  have hsound (B : Conduct → Prop) (hs : c.Sound w n .standard B) :
      Sound w n .standard B { c with events := [], journal := [] } :=
    ⟨hs.machine, fun _ he => (nomatch he), hs.table, hs.watched, hs.conduct⟩
  exact ⟨⟨⟨hsound _ h.calm.attended.sound, h.calm.attended.registered⟩,
    ⟨h.calm.rest.steps, h.calm.rest.loops⟩, h.calm.dated⟩,
    h.driven.of_eq (hsound _ h.driven.sound) rfl rfl rfl⟩

end Tended

/-- What is prepared is tended before the program begins. -/
theorem Prepared.tended {m : Machine} {is : List Instruction} (h : Prepared w n m is)
    (delay : Value) :
    (manned m { instructions := is, stepDelay := delay }).Tended w n := by
  have hsound := h.sound { instructions := is, stepDelay := delay }
  refine ⟨⟨⟨hsound, [], rfl⟩, ⟨fun p hp => ?_, fun _ hl => (nomatch hl)⟩, fun _ _ hl => nomatch hl⟩,
    hsound.imp fun _ hr => hr.quiet, fun _ _ _ hl => (nomatch hl), _, rfl, rfl, ?_⟩
  · obtain rfl := List.mem_singleton.mp hp
    rfl
  · refine ⟨⟨h.machine, h.addresses, Nat.zero_le _, fun hphase => nomatch hphase⟩,
      ⟨⟨fun hphase => (nomatch hphase), fun hdecoded => ?_⟩, fun hphase => nomatch hphase⟩,
      fun _ he => nomatch he⟩
    exact absurd (h.idle.symm.trans hdecoded) (by decide)

end Computer

namespace Routine

open Computer

variable {call : Caller} {w n index k : Nat} {c : Computer} {p : Program} {l : PlayLoop}

/-- A step of a program that alone works its machine is never refused. -/
theorem step_tells_orderly (hc : c.Attended w n .standard) (hp : c.programs[index]? = some p)
    (hstepping : p.stepping = false) (hs : (p.progress c.machine).Orderly w n) :
    let d := c.put index p ((p.progress c.machine).next .standard)
    (step call index).Tells c (.ok !p.isComplete) d
      (((p.progress c.machine).stepSources .standard index).flatMap d.fanOut) := by
  intro d
  rw [p.isComplete_eq, Progress.stepSources]
  cases hi : p.current? with
  | none =>
    have hcurrent : (p.progress c.machine).current? = none := hi
    have hd : d = c := by
      simp only [d, Progress.next_complete hcurrent, put_self hp]
    rw [hcurrent, hd]
    exact Tells.of_eq (step_complete hp hstepping hi) rfl
  | some i =>
    have hcurrent : (p.progress c.machine).current? = some i := hi
    rw [hcurrent]
    simp only [if_pos (hs.ready hcurrent)]
    exact step_tells hc hp hstepping hi (hs.ready hcurrent)

/-- A loop whose run is over ends when it is resumed, and tells of nothing. -/
theorem tick_tells_stale (hl : c.loops[k]? = some l)
    (hstage : l.stage = .fresh ∨ l.stage = .suspended) (hp : c.programs[l.program]? = some p)
    (hrun : p.run ≠ l.run) :
    (tick call k).Tells c (.ok .ended)
      { (c.resuming k) with
        awaited := false
        loops := (c.resuming k).loops.modify k fun l => { l with stage := .ended } } [] := by
  have hresume : (resume call k l).on { c with awaited := true } = _ :=
    resume_stale (k := k) (c := { c with awaited := true }) hp hrun
  have hon : (tick call k).on c =
      (ensuring (resume call k l) (setAwaited false)).on { c with awaited := true } := by
    rw [tick, on_get_bind, hl]
    rcases hstage with h | h <;> simp only [h] <;> rfl
  rw [on_ensuring, hresume] at hon
  exact ⟨by rw [hon]; rfl, by rw [hon]; exact ⟨_, _, _, rfl, rfl⟩, by rw [hon]; rfl⟩

end Routine

namespace Computer

open Routine

variable {call : Caller} {w n k : Nat} {c d : Computer} {p : Program} {l : PlayLoop}

/-- From `c` to `d` no more than the loop of a number may have changed, of what makes a run. -/
structure Passed (c : Computer) (k : Nat) (d : Computer) : Prop where
  machine : d.machine = c.machine
  programs : d.programs = c.programs
  watchers : d.machineWatchers = c.machineWatchers
  loops : ∀ j, j ≠ k → d.loops[j]? = c.loops[j]?

/-- The computer after a stop. -/
def halted (c : Computer) (p : Program) : Computer :=
  if p.playing then
    { c with
      programs := c.programs.modify 0 fun p => { p with run := p.run + 1, playing := false } }
  else c

/-- The computer after a play has begun. -/
def begun (c : Computer) (p : Program) (delay : Value) : Computer :=
  { c with
    programs := c.programs.modify 0 fun p => { p with run := p.run + 1, playing := true }
    loops := c.loops ++ [{ program := 0, run := p.run + 1, delay := delayOf p delay }] }

namespace Tended

variable (h : c.Tended w n) (hp : c.programs[0]? = some p)
include h hp

theorem step_tells :
    let d := c.put 0 p ((p.progress c.machine).next .standard)
    (Routine.perform call (.step 0)).Tells c (.ok (.flag !p.isComplete)) d
      (((p.progress c.machine).stepSources .standard 0).flatMap d.fanOut) :=
  (step_tells_orderly h.calm.attended hp (h.stepping hp) (h.orderly hp)).map Answer.flag

theorem stop_tells :
    let d := c.halted p
    (Routine.perform call (.stop 0)).Tells c (.ok .nothing) d
      ((if p.playing then [Source.program 0] else []).flatMap d.fanOut) := by
  intro d
  cases hplaying : p.playing with
  | true =>
    have hstop : (stop call 0).Tells c (.ok ()) _ _ := Routine.stop_tells h.recording hp hplaying
    simp only [d, halted, hplaying, if_true, List.flatMap_singleton]
    exact hstop.map fun _ => Answer.nothing
  | false =>
    have hstop : (stop call 0).Tells c (.ok ()) c [] := by
      refine Tells.of_eq ?_ rfl
      rw [stop, on_program_bind, hp]
      simp [hplaying]
    simp only [d, halted, hplaying, Bool.false_eq_true, if_false]
    exact hstop.map fun _ => Answer.nothing

theorem play_tells (hcomplete : p.isComplete = false) (hplaying : p.playing = false)
    (delay : Value) :
    let d := c.begun p delay
    (Routine.perform call (.play 0 delay)).Tells c (.ok (.loop c.loops.length)) d
      (d.fanOut (.program 0)) := by
  have hplay : (play call 0 delay).Tells c (.ok c.loops.length) _ _ :=
    Routine.play_tells h.recording hp hcomplete hplaying delay
  exact hplay.map Answer.loop

theorem program_loop (hl : c.loops[k]? = some l) : c.programs[l.program]? = some p := by
  rw [h.driven.loops k l (Nat.zero_le k) hl, hp]

/-- A loop that is resumed while its run is current takes a step if there is one left. -/
theorem tick_tells (hl : c.loops[k]? = some l) (hstage : l.stage = .fresh ∨ l.stage = .suspended)
    (hrun : p.run = l.run) :
    let s := (p.progress c.machine).next .standard
    let left := Except.ok (if s.current?.isSome then some l.delay else none)
    let e := (c.resuming k).put 0 p s
    let d := e.leftOff k l left
    (Routine.perform call (.tick k)).Tells c (handedOver left) { d with awaited := false }
      (((p.progress c.machine).stepSources .standard 0).flatMap e.fanOut ++
        (leavingSources l left).flatMap d.fanOut) := by
  have hc : (c.resuming k).Attended w n .standard :=
    ⟨Sound.invariant.keeps_setStage k .running _ (Sound.invariant.keeps_setAwaited true c
      h.calm.attended.sound), h.calm.attended.registered⟩
  have hstep : (step call l.program).Tells (c.resuming k) _ _ _ :=
    step_tells_orderly hc (h.program_loop hp hl) (h.stepping hp) (h.orderly hp)
  have htick : (tick call k).Tells c _ _ _ := Routine.tick_tells h.recording hl hstage
    (h.program_loop hp hl) (h.stepping hp) hrun hstep
  rw [h.driven.loops k l (Nat.zero_le k) hl] at htick
  exact htick

/-- To resume any other loop changes nothing but the loop. -/
theorem tick_tells_else (hother : ∀ l, c.loops[k]? = some l →
      l.stage = .fresh ∨ l.stage = .suspended → p.run ≠ l.run) :
    ∃ answer d, (Routine.perform call (.tick k)).Tells c (.ok answer) d [] ∧ c.Passed k d := by
  have hsame (answer : Answer) (hon : (tick call k).on c = (.ok answer, c)) :
      ∃ answer d, (Routine.perform call (.tick k)).Tells c (.ok answer) d [] ∧ c.Passed k d :=
    ⟨answer, c, Tells.of_eq hon rfl, rfl, rfl, rfl, fun _ _ => rfl⟩
  cases hl : c.loops[k]? with
  | none =>
    refine hsame .noSuchLoop ?_
    rw [tick, on_get_bind, hl]
    rfl
  | some l =>
    have hstale (hstage : l.stage = .fresh ∨ l.stage = .suspended) :
        ∃ answer d, (Routine.perform call (.tick k)).Tells c (.ok answer) d [] ∧ c.Passed k d :=
      ⟨.ended, _, tick_tells_stale hl hstage (h.program_loop hp hl) (hother l hl hstage),
        rfl, rfl, rfl, fun j hj => (List.getElem?_modify_ne _ _ hj.symm).trans
          (List.getElem?_modify_ne _ _ hj.symm)⟩
    cases hstage : l.stage with
    | fresh => exact hstale (.inl hstage)
    | running => exact absurd hstage (h.calm.rest.loops l (List.mem_of_getElem? hl))
    | suspended => exact hstale (.inr hstage)
    | ended =>
      refine hsame .alreadyEnded ?_
      rw [tick, on_get_bind, hl]
      simp only [hstage]
      rfl

theorem endRun_answers (hl : c.loops[k]? = some l) {d : Computer} (hd : d.Recording)
    (hprograms : d.programs = c.programs) : ((endRun call l).on d).1 = .ok () := by
  have hq : d.programs[l.program]? = some p := by rw [hprograms, h.program_loop hp hl]
  by_cases hrun : p.run = l.run
  · have htells : (endRun call l).Tells d _ _ _ := endRun_tells hd hq hrun
    exact htells.outcome
  · rw [endRun_stale hq hrun]

theorem cancel_answers (k : Nat) : ∃ answer, (c.perform (.cancel k)).1 = .ok answer := by
  show ∃ answer, ((cancel (performWithin c.bound) k).on c).1 = .ok answer
  rw [cancel, on_get_bind]
  cases hl : c.loops[k]? with
  | none => exact ⟨.noSuchLoop, rfl⟩
  | some l =>
    cases hstage : l.stage with
    | fresh =>
      simp only [hstage]
      exact ⟨.cancelled, rfl⟩
    | running => exact absurd hstage (h.calm.rest.loops l (List.mem_of_getElem? hl))
    | suspended =>
      simp only [hstage]
      have hend : ((endRun (performWithin c.bound) l).on ((setStage k .running).on c).2).1 = _ :=
        h.endRun_answers hp hl h.recording rfl
      refine ⟨.cancelled, ?_⟩
      rw [on_setStage_bind, on_bind_pure, on_ensuring, hend]
      rfl
    | ended =>
      simp only [hstage]
      exact ⟨.alreadyEnded, rfl⟩

end Tended

/-- Of the calls on a program and its loops only a play is refused, and only if there is nothing to
play or it plays already. The instruction at the counter is one that the machine accepts, and the
machine holds it once it is decoded, as it held those that were executed. -/
structure Serves (c : Computer) (p : Program) : Prop where
  step : (c.perform (.step 0)).1 = .ok (.flag !p.isComplete)
  run : ∃ executed, (c.perform (.run 0)).1 = .ok (.number executed)
  stop : (c.perform (.stop 0)).1 = .ok .nothing
  play : ∀ delay, (c.perform (.play 0 delay)).1 =
    if p.isComplete then .error .programComplete
    else if p.playing then .error .alreadyPlaying
    else .ok (.loop c.loops.length)
  tick : ∀ k, ∃ answer, (c.perform (.tick k)).1 = .ok answer
  cancel : ∀ k, ∃ answer, (c.perform (.cancel k)).1 = .ok answer
  accepts : ∀ i, p.current? = some i → c.machine.Accepts .standard i
  holds : ∀ i, p.current? = some i → p.phase = .decoded → c.machine.holds i = true
  executed : ∀ e ∈ p.trace, Progress.Executable e.pre e.instruction

theorem Tended.serves (h : c.Tended w n) (hp : c.programs[0]? = some p) : c.Serves p where
  step := (h.step_tells hp).outcome
  run := by
    have hs := (h.orderly hp).regular
    have hdriven : c.Driven w n .standard 0 0 (· = p.progress c.machine) :=
      ⟨h.driven.sound, h.driven.loops, p, hp, h.stepping hp, rfl⟩
    rw [hdriven.perform_run h.calm.attended.sound hs.sited hs.pending]
    exact ⟨_, rfl⟩
  stop := (h.stop_tells hp).outcome
  play delay := by
    rw [perform_play]
    cases hcomplete : p.isComplete with
    | true =>
      rw [play_complete hp hcomplete]
      rfl
    | false =>
      cases hplaying : p.playing with
      | true =>
        rw [play_again hp hcomplete hplaying]
        rfl
      | false =>
        rw [← perform_play]
        exact (h.play_tells hp hcomplete hplaying delay).outcome
  tick k := by
    by_cases hcurrent : ∃ l, c.loops[k]? = some l ∧ (l.stage = .fresh ∨ l.stage = .suspended) ∧
        p.run = l.run
    · obtain ⟨l, hl, hstage, hrun⟩ := hcurrent
      exact ⟨_, (h.tick_tells hp hl hstage hrun).outcome⟩
    · obtain ⟨answer, _, htells, -⟩ :
          ∃ answer d,
            (Routine.perform (performWithin c.bound) (.tick k)).Tells c (.ok answer) d [] ∧
              c.Passed k d :=
        h.tick_tells_else hp fun l hl hstage hrun => hcurrent ⟨l, hl, hstage, hrun⟩
      exact ⟨answer, htells.outcome⟩
  cancel := h.cancel_answers hp
  accepts i hi := (h.orderly hp).accepts hi
  holds i hi hphase := (h.orderly hp).regular.holds hi hphase
  executed := (h.orderly hp).executed

end Computer

end Accumulator
