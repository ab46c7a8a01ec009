import Accumulator.Proofs.Marked

/-! Steps and the calls made from inside them. While a step goes through its phase its program is
marked, and whoever is told of the phase, at whatever depth, finds the mark. So the phase is over
for everybody before the next one begins. The program gives its own notice only when the mark is
gone. -/

namespace Accumulator

/-- The program past the phase of an instruction, if it finds the machine to have gone through
it. -/
def Program.pass (p : Program) (i : Instruction) (pre post : Machine) : Program :=
  match p.phase with
  | .fetch => if post.holds i then { p with phase := .decoded } else p
  | .decoded => if post.isDecoded then p else p.advance i pre post

theorem Program.pass_with (p : Program) (i : Instruction) (pre post : Machine) (stepping : Bool) :
    pass { p with stepping } i pre post = { p.pass i pre post with stepping } := by
  obtain ⟨_, _, _, phase, _⟩ := p
  cases phase with
  | fetch =>
    simp only [pass]
    split <;> rfl
  | decoded =>
    simp only [pass]
    split <;> rfl

/-- The program of a number is `p`, edited, and past the phase of an instruction that the machine
began as `pre`. -/
structure Computer.Passes (B : Conduct → Prop) (index : Nat) (p : Program) (i : Instruction)
    (pre : Machine) (c : Computer) : Prop where
  program : ∃ q, p.Edited q ∧ c.programs[index]? = some (q.pass i pre c.machine)
  conduct : ∀ s ∈ c.subscribers, B s.react

namespace Routine

open Computer

variable {B : Conduct → Prop} {index : Nat} {p : Program} {call call' : Caller}

/-- A phase of a program, under the mark of being in a step. -/
def markedPhase (call : Caller) (index : Nat) (i : Instruction) (phase : Phase) : Routine Unit := do
  setStepping index true
  ensuring (doPhase call index i phase) (setStepping index false)

section
variable {c d : Computer} {i : Instruction} {pre : Machine}

/-- All notice of a phase has been given before the program looks at the machine, and then it goes
past the phase at most once. -/
theorem alike_phase {routine other : Routine Unit} {closing : Routine Unit}
    (record : Program → Record) (h : Alike (Has B index p) routine other) (hd : d.Has B index p)
    (hclosing : ∀ e, e.Has B index p → (closing.on e).2.Passes B index p i pre) :
    let phase := ensuring routine closing >>= fun _ => program index >>= fun p => log (record p)
    (ensuring other closing >>= fun _ => program index >>= fun p => log (record p)).on d =
        phase.on d ∧ (phase.on d).2.Passes B index p i pre := by
  intro phase
  obtain ⟨heq, hhas⟩ := h d hd
  have hother : (ensuring other closing).on d = (ensuring routine closing).on d := by
    rw [on_ensuring, on_ensuring, heq]
  refine ⟨by rw [on_bind, hother, ← on_bind], ?_⟩
  have hlog : Keeps (Passes B index p i pre) (program index >>= fun p => log (record p)) :=
    Keeps.program_bind fun _ _ he _ => ⟨he.program, he.conduct⟩
  have hafter := hclosing _ hhas
  rw [← on_ensuring_snd] at hafter
  rw [on_bind]
  rcases hout : (ensuring routine closing).on d with ⟨_ | _, e⟩ <;> rw [hout] at hafter
  · exact hafter
  · exact hlog e hafter

theorem alike_ownPhase
    (hcall : ∀ command, Alike (Has B index p) (call command) (call' command))
    (hd : d.Has B index p) (i : Instruction) :
    (doPhase call' index i p.phase).on d = (doPhase call index i p.phase).on d ∧
      ((doPhase call index i p.phase).on d).2.Passes B index p i d.machine := by
  cases hphase : p.phase with
  | fetch =>
    refine alike_phase (fun p => .stepDecoded p.counter i) (alike_decode hcall _) hd
      fun e he => ?_
    obtain ⟨q, hq, hedited⟩ := he.program
    rw [on_get_bind]
    cases hholds : e.machine.holds i with
    | true =>
      have hpass : q.pass i d.machine e.machine = { q with phase := .decoded } := by
        simp [Program.pass, hedited.phase, hphase, hholds]
      refine ⟨⟨q, hedited, ?_⟩, he.conduct⟩
      have hphased := modify_getElem? hq fun p => { p with phase := .decoded }
      exact hphased.trans (congrArg some hpass.symm)
    | false =>
      have hpass : q.pass i d.machine e.machine = q := by
        simp [Program.pass, hedited.phase, hphase, hholds]
      exact ⟨⟨q, hedited, hq.trans (congrArg some hpass.symm)⟩, he.conduct⟩
  | decoded =>
    have hon (call : Caller) : (doPhase call index i .decoded).on d = (do
        ensuring (execute call) do
          let post := (← get).machine
          if !post.isDecoded then modifyProgram index (·.advance i d.machine post)
        log (.stepExecuted ((← program index).counter - 1) i) : Routine Unit).on d := rfl
    rw [hon, hon]
    refine alike_phase (fun p => .stepExecuted (p.counter - 1) i) (alike_execute hcall) hd
      fun e he => ?_
    obtain ⟨q, hq, hedited⟩ := he.program
    rw [on_get_bind]
    simp only
    cases hdecoded : e.machine.isDecoded with
    | true =>
      have hpass : q.pass i d.machine e.machine = q := by
        simp [Program.pass, hedited.phase, hphase, hdecoded]
      rw [Bool.not_true, if_neg Bool.false_ne_true]
      exact ⟨⟨q, hedited, hq.trans (congrArg some hpass.symm)⟩, he.conduct⟩
    | false =>
      have hpass : q.pass i d.machine e.machine = q.advance i d.machine e.machine := by
        simp [Program.pass, hedited.phase, hphase, hdecoded]
      rw [Bool.not_false, if_pos rfl]
      refine ⟨⟨q, hedited, ?_⟩, he.conduct⟩
      exact (modify_getElem? hq (·.advance i d.machine e.machine)).trans (congrArg some hpass.symm)

/-- What a phase comes to does not depend on what calls do while the program is not marked, and at
its end the mark is gone. -/
theorem alike_markedPhase (hp : c.programs[index]? = some p) (hstepping : p.stepping = false)
    (hconduct : ∀ s ∈ c.subscribers, B s.react)
    (hcall : ∀ command, Alike (Has B index { p with stepping := true })
      (call command) (call' command)) (i : Instruction) :
    (markedPhase call' index i p.phase).on c = (markedPhase call index i p.phase).on c ∧
      ((markedPhase call index i p.phase).on c).2.Passes B index p i c.machine := by
  let d := { c with programs := c.programs.modify index fun p => { p with stepping := true } }
  have hd : d.Has B index { p with stepping := true } :=
    ⟨⟨_, modify_getElem? hp _, .refl _⟩, hconduct⟩
  obtain ⟨heq, ⟨q, hedited, hq⟩, hconduct⟩ := alike_ownPhase hcall hd i
  have hon (call : Caller) : (markedPhase call index i p.phase).on c =
      (ensuring (doPhase call index i p.phase) (setStepping index false)).on d := rfl
  rw [hon, hon, on_ensuring_snd, on_ensuring, on_ensuring, heq]
  refine ⟨rfl, ⟨{ q with stepping := false }, hstepping ▸ hedited.setStepping true, ?_⟩, hconduct⟩
  rw [Program.pass_with]
  exact modify_getElem? hq fun p => { p with stepping := false }

/-- The notice that a program gives of itself, when it is of concern to programs only. -/
theorem has_notifyProgram (depth j : Nat) : Keeps (Has Conduct.TellsPrograms index p)
    (notifyProgram (performWithin depth) j) := by
  have hC (react : Conduct) (h : react.TellsPrograms) (state : Nat) (notice : Notice)
      (hN : ∃ view, notice = .program view) :
      (react state notice).2.Calls Command.TellsPrograms := by
    obtain ⟨view, rfl⟩ := hN
    exact h state view
  have hcall (depth : Nat) : ∀ command : Command, command.TellsPrograms →
      Alike (Has Conduct.TellsPrograms index p) (performWithin depth command)
        (performWithin depth command) := by
    induction depth with
    | zero => exact fun _ _ => .of_keeps (Keeps.throw _)
    | succ depth ih => exact fun _ h => alike_tellsPrograms hC ih (fun view => ⟨view, rfl⟩) h
  exact fun c hc => (alike_notifyProgram hC (hcall depth) (fun view => ⟨view, rfl⟩) j c hc).2

end

end Routine

namespace Computer

open Routine

/-- A program is in a step, and nothing that is called then steps it. -/
structure RefusesSteps (depth index : Nat) (p : Program) (c : Computer) : Prop where
  step : (performWithin (depth + 1) (.step index)).on c = (.error .stepInProgress, c)
  run : (performWithin (depth + 1) (.run index)).on c = (.error .stepInProgress, c)
  tick : ∀ k l, c.loops[k]? = some l → l.program = index → l.run = p.run → p.isComplete = false →
    l.stage = .fresh ∨ l.stage = .suspended →
    let ended := (endRun (performWithin depth) l).on
      ((setStage k .running).on { c with awaited := true }).2
    (performWithin (depth + 1) (.tick k)).on c =
      (ended.1.bind fun _ => .error .stepInProgress,
        ((setAwaited false).on ((setStage k .ended).on ended.2).2).2)
  call : ∀ command, ∃ q, p.Edited q ∧
    ((performWithin depth command).on c).2.programs[index]? = some q

/-- A program with an instruction left is not in a step, and a step goes through one phase of it. -/
structure StepsOnce (depth index : Nat) (p : Program) (i : Instruction) (c : Computer) : Prop where
  step : (step (performWithin depth) index).on c = (do
    markedPhase (performWithin depth) index i p.phase
    notifyProgram (performWithin depth) index
    return true : Routine Bool).on c
  barred : (markedPhase (performWithin depth) index i p.phase).on c =
    (markedPhase (performBarred index depth) index i p.phase).on c
  passes : ((markedPhase (performWithin depth) index i p.phase).on c).2.Passes (fun _ => True)
    index p i c.machine
  told : (∀ s ∈ c.subscribers, Conduct.TellsPrograms s.react) →
    ∃ q r, p.Edited q ∧
      (q.pass i c.machine
        ((markedPhase (performWithin depth) index i p.phase).on c).2.machine).Edited r ∧
      ((Routine.step (performWithin depth) index).on c).2.programs[index]? = some r

variable {w n : Nat} {t : Dispatch} {c : Computer} {index : Nat} {p : Program}

theorem refusesSteps (hp : c.programs[index]? = some p) (h : p.stepping = true) (depth : Nat) :
    c.RefusesSteps depth index p where
  step := perform_marked hp h (by simp [Command.steps])
  run := perform_marked hp h (by simp [Command.steps])
  tick k l hl hprogram hrun hcomplete hstage := by
    subst hprogram
    exact tick_marked hl hstage hp h hrun hcomplete rfl
  call command := by
    have hc : c.Has (fun _ => True) index p := ⟨⟨p, hp, .refl p⟩, fun _ _ => trivial⟩
    obtain ⟨q, hq, hedited⟩ := (alike_performWithin h depth command c hc).2.program
    exact ⟨q, hedited, hq⟩

theorem stepsOnce (hp : c.programs[index]? = some p) (h : p.stepping = false) {i : Instruction}
    (hi : p.current? = some i) (depth : Nat) : c.StepsOnce depth index p i := by
  have hcall (B : Conduct → Prop) (command : Command) :
      Alike (Has B index { p with stepping := true }) (performWithin depth command)
        (performBarred index depth command) := alike_performWithin rfl depth command
  have hstep : (Routine.step (performWithin depth) index).on c = (do
      markedPhase (performWithin depth) index i p.phase
      notifyProgram (performWithin depth) index
      return true : Routine Bool).on c := on_step hp h hi
  have hphase := alike_markedPhase hp h (B := fun _ => True) (fun _ _ => trivial) (hcall _) i
  refine ⟨hstep, hphase.1.symm, hphase.2, fun hconduct => ?_⟩
  obtain ⟨-, ⟨q, hedited, hq⟩, hafter⟩ := alike_markedPhase hp h hconduct (hcall _) i
  let r := q.pass i c.machine ((markedPhase (performWithin depth) index i p.phase).on c).2.machine
  have hhas : Has Conduct.TellsPrograms index r
      ((markedPhase (performWithin depth) index i p.phase).on c).2 := ⟨⟨r, hq, .refl r⟩, hafter⟩
  have hlast : Has Conduct.TellsPrograms index r
      ((Routine.step (performWithin depth) index).on c).2 := by
    rw [hstep, on_bind]
    rcases hout : (markedPhase (performWithin depth) index i p.phase).on c with ⟨_ | _, d⟩ <;>
      rw [hout] at hhas
    · exact hhas
    · exact Keeps.bind (has_notifyProgram depth index) (fun _ => Keeps.pure true) d hhas
  obtain ⟨s, hs, hlater⟩ := hlast.program
  exact ⟨q, s, hedited, hlater, hs⟩

/-- Every call leaves each program marked as it was. -/
theorem stepping_performWithin (hw : c.Watched) (depth : Nat) (command : Command) :
    ((performWithin depth command).on c).2.programs.map Program.stepping =
      c.programs.map Program.stepping :=
  (nested_performWithin depth _ c.roster.Runs command c ⟨hw, rfl, fun _ => Iff.rfl⟩).steps

/-- No step of a program begins in the midst of a phase of it. While the program is marked, a step,
a run and the step of a play loop are refused, at whatever depth they are called, and change
nothing; other calls leave its trace, its phase and the mark, and change its instructions and its
counter by insertions only. So a phase comes to what it comes to when those calls are barred: it is
gone through once, after everybody has been told of it, whatever subscribers do and whoever fails.
Then the program gives its own notice, and it is left at that if those who hear of it tell nobody
but hearers of programs in their turn. Every call takes away the marks that it makes, so that
between calls no program is marked. -/
theorem one_phase_at_a_time (hn : 0 < n) :
    (∀ (c : Computer) depth index p, c.programs[index]? = some p → p.stepping = true →
      c.RefusesSteps depth index p) ∧
    (∀ (c : Computer) depth index p i, c.programs[index]? = some p → p.stepping = false →
      p.current? = some i → c.StepsOnce depth index p i) ∧
    (∀ (c : Computer) depth command, c.Watched →
      ((performWithin depth command).on c).2.programs.map Program.stepping =
        c.programs.map Program.stepping) ∧
    ∀ c, Reachable w n t (fun _ => True) c → c.Watched ∧ ∀ p ∈ c.programs, p.stepping = false :=
  ⟨fun _ depth _ _ hp h => refusesSteps hp h depth,
    fun _ depth _ _ _ hp h hi => stepsOnce hp h hi depth,
    fun _ depth command hw => stepping_performWithin hw depth command,
    fun _ hc => ⟨(hc.sound hn).watched, (hc.atRest hn).steps⟩⟩

/-- A subscriber of the memory and of the machine steps the program and runs it whenever it is told.
It is refused, and fails; two steps store the accumulator all the same, and not more than that. -/
theorem one_phase_at_a_time_stored :
    let again : Subscriber := { react := fun state _ => (state + 1,
      if state < 2 then .done else .call (.step 0) fun _ => .once (.run 0)) }
    let start := { idle (.zeros 4 2) .standard with subscribers := [again], bound := 9 }
    let p : Program := { instructions := [⟨.store, some 1⟩, ⟨.not, none⟩], stepDelay := .none }
    let c := (start.addProgram p).performAll [.observe .memory 0, .observe .machine 0]
    c.StepsOnce 9 0 p ⟨.store, some 1⟩ ∧ c.Watched ∧
      (c.perform (.step 0)).1 = .error .stepInProgress ∧
      (c.performAll [.step 0, .step 0]).programs.map (fun p => (p.counter, p.phase, p.stepping)) =
        [(1, .fetch, false)] := by
  intro again start p c
  have hstart : start.Reachable 4 2 .standard fun _ => True := .idle [again] 9 fun _ _ => trivial
  have hp : Program.ofEntries start.machine.memory
      (.list [.instruction ⟨.store, some 1⟩, .instruction ⟨.not, none⟩]) .none = .ok p := rfl
  have hc : c.Reachable 4 2 .standard fun _ => True := (Reachable.build _ _ hstart hp).performAll _
  have hall := one_phase_at_a_time (w := 4) (n := 2) (t := .standard) (by decide)
  exact ⟨hall.2.1 c 9 0 p _ rfl rfl rfl, (hall.2.2.2 c hc).1, rfl, by decide +kernel⟩

/-- When the program gives notice of a step it is not in that step any more. A subscriber that then
steps it begins the next phase, before others have been told of the first one: it is not refused,
and one step decodes the instruction and executes it. -/
theorem stepped_on_notice_of_step :
    let again : Subscriber := { react := fun state notice => (state, match notice with
      | .program view => if view.phase = .decoded then .once (.step 0) else .done
      | _ => .done) }
    let p : Program := { instructions := [⟨.not, none⟩], stepDelay := .none }
    let start := { idle (.zeros 4 2) .standard with subscribers := [again, .recorder], bound := 9 }
    let c := (start.addProgram p).performAll [.observe (.program 0) 0, .observe (.program 0) 1]
    let d := (c.perform (.step 0)).2
    c.Reachable 4 2 .standard (fun _ => True) ∧ (c.perform (.step 0)).1 = .ok (.flag true) ∧
      d.programs.map (fun p => (p.counter, p.phase, p.trace.length)) = [(1, .fetch, 1)] ∧
      (d.events.filter fun e => e.subscriber = 1).map (·.notice) =
        [.program ⟨[⟨.not, none⟩], 0, .decoded, false, false⟩,
          .program ⟨[⟨.not, none⟩], 1, .fetch, true, false⟩,
          .program ⟨[⟨.not, none⟩], 0, .fetch, false, false⟩] := by
  intro again p start c d
  have hstart : start.Reachable 4 2 .standard fun _ => True := .idle _ 9 fun _ _ => trivial
  have hp : Program.ofEntries start.machine.memory (.list [.instruction ⟨.not, none⟩]) .none =
      .ok p := rfl
  exact ⟨(Reachable.build _ _ hstart hp).performAll _, rfl, by decide +kernel⟩

end Computer

end Accumulator
