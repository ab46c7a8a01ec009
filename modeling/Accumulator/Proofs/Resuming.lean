import Accumulator.Proofs.Run

/-! Playing the one program of a computer whose subscribers only take note. Every part of a call
leaves a computer that is known up to what is noted aside. So a loop that is resumed is known to
take one step, and to sleep unless the program is complete then. -/

namespace Accumulator

namespace Computer

/-- The computer while the loop of a run of its program is at a stage, when that program and the
machine have come as far as `s`. -/
def during (c : Computer) (p : Program) (run : Nat) (delay : Value) (playing : Bool) (stage : Stage)
    (awaited : Bool) (s : Progress) : Computer :=
  { c with
    machine := s.machine
    programs := [{ p.put s with run, playing }]
    loops := [⟨0, run, delay, stage⟩]
    awaited }

end Computer

namespace Routine

open Computer

variable {α β : Type} {w n : Nat} {call : Caller}

/-- From `c`, whatever has been noted aside, the routine answers `a` and leaves `d`, whatever is
noted aside. -/
def Leaves (w n : Nat) (routine : Routine α) (c : Computer) (a : α) (d : Computer) : Prop :=
  ∀ c', c.Noted c' → c'.Sound w n .standard Conduct.Records →
    (routine.on c').1 = .ok a ∧ d.Noted (routine.on c').2 ∧
      (routine.on c').2.Sound w n .standard Conduct.Records

namespace Leaves

variable {routine : Routine α} {closing : Routine Unit} {next : α → Routine β}
  {c d e : Computer} {a : α} {b : β}

theorem on_eq (h : Leaves w n routine c a d) {c' : Computer} (hc : c.Noted c')
    (hs : c'.Sound w n .standard Conduct.Records) :
    routine.on c' = (.ok a, (routine.on c').2) := by
  rw [← (h c' hc hs).1]

theorem pure (a : α) (c : Computer) : Leaves w n (Pure.pure a) c a c :=
  fun _ hc hs => ⟨rfl, hc, hs⟩

theorem bind (h : Leaves w n routine c a d) (hn : Leaves w n (next a) d b e) :
    Leaves w n (routine >>= next) c b e := by
  intro c' hc hs
  obtain ⟨-, hd, hsound⟩ := h c' hc hs
  rw [on_bind, h.on_eq hc hs]
  exact hn _ hd hsound

theorem attempt (h : Leaves w n routine c a d) :
    Leaves w n (Routine.attempt routine) c (.ok a) d := by
  intro c' hc hs
  obtain ⟨ha, hd⟩ := h c' hc hs
  rw [on_attempt]
  exact ⟨congrArg Except.ok ha, hd⟩

theorem ensuring (h : Leaves w n routine c a d) (hc : Leaves w n closing d () e) :
    Leaves w n (Routine.ensuring routine closing) c a e :=
  h.attempt.bind (hc.bind (pure a e))

theorem modify {f : Computer → Computer} (hf : ∀ c', c.Noted c' → (f c).Noted (f c'))
    (hsound : Keeps (Computer.Sound w n .standard Conduct.Records) (modify f : Routine PUnit)) :
    Leaves w n (modify f : Routine PUnit) c ⟨⟩ (f c) :=
  fun c' hc hs => ⟨rfl, hf c' hc, hsound c' hs⟩

/-- A look at the computer may use what does not depend on what is noted aside. -/
theorem get_bind {next : Computer → Routine β}
    (h : ∀ c', c.Noted c' → Leaves w n (next c') c b d) : Leaves w n (get >>= next) c b d :=
  fun c' hc hs => h c' hc c' hc hs

theorem program_bind {index : Nat} {next : Program → Routine β} {p : Program}
    (hp : c.programs[index]? = some p) (h : Leaves w n (next p) c b d) :
    Leaves w n (program index >>= next) c b d := by
  intro c' hc hs
  rw [on_program_bind, hc.programs, hp]
  exact h c' hc hs

end Leaves

section

variable {c : Computer} {p : Program} {run : Nat} {delay : Value} {playing awaited : Bool}
  {stage first : Stage} {s : Progress}

theorem log_leaves (record : Record) (c : Computer) : Leaves w n (log record) c () c := by
  intro c' hc hs
  refine ⟨rfl, hc.trans ?_, Sound.invariant.keeps_log record c' hs⟩
  exact ⟨_, _, _, rfl, rfl⟩

theorem notifyProgram_leaves
    (hcall : ∀ command, Keeps (Computer.Sound w n .standard Conduct.Records) (call command))
    {index : Nat} {q : Program} (hq : c.programs[index]? = some q) :
    Leaves w n (notifyProgram call index) c () c := by
  intro c' hc hs
  have hquiet : c'.Quiet := fun r hr => (hs.conduct r hr).quiet
  have harrives : (notifyProgram call index).Arrives c' () c' :=
    notifyProgram_arrives hquiet (hc.programs ▸ hq)
  exact ⟨harrives.recorded hs.conduct, hc.trans harrives.state,
    Sound.invariant.keeps_notifyProgram hcall index c' hs⟩

theorem setStage_leaves (next : Stage) :
    Leaves w n (setStage 0 next) (c.during p run delay playing stage awaited s) ()
      (c.during p run delay playing next awaited s) := by
  refine .modify (fun c' hc => ?_) (Sound.invariant.keeps_setStage 0 next)
  obtain ⟨events, journal, subscribers, rfl, hr⟩ := hc
  exact ⟨events, journal, subscribers, rfl, hr⟩

theorem setAwaited_leaves (next : Bool) :
    Leaves w n (setAwaited next) (c.during p run delay playing stage awaited s) ()
      (c.during p run delay playing stage next s) := by
  refine .modify (fun c' hc => ?_) (Sound.invariant.keeps_setAwaited next)
  obtain ⟨events, journal, subscribers, rfl, hr⟩ := hc
  exact ⟨events, journal, subscribers, rfl, hr⟩

theorem finish_leaves :
    Leaves w n (modifyProgram 0 fun p => { p with playing := false })
      (c.during p run delay playing stage awaited s) ()
      (c.during p run delay false stage awaited s) := by
  refine .modify (fun c' hc => ?_) fun c' hs => hs.withPrograms _
  obtain ⟨events, journal, subscribers, rfl, hr⟩ := hc
  exact ⟨events, journal, subscribers, rfl, hr⟩

theorem sleep_leaves :
    Leaves w n (sleep delay) (c.during p run delay playing stage true s) delay
      (c.during p run delay playing stage true s) := by
  refine .get_bind fun c' hc => ?_
  obtain ⟨events, journal, subscribers, rfl, hr⟩ := hc
  exact .pure delay _

theorem isComplete_during :
    Program.isComplete { p.put s with run, playing } = !s.current?.isSome :=
  Program.isComplete_eq { p.put s with run, playing }

section

variable (hcall : ∀ command, Keeps (Computer.Sound w n .standard Conduct.Records) (call command))
include hcall

theorem step_leaves (hp : p.stepping = false) {i : Instruction} (hi : s.current? = some i)
    (hready : s.Ready .standard i) :
    Leaves w n (step call 0) (c.during p run delay playing stage awaited s) true
      (c.during p run delay playing stage awaited (s.next .standard)) := by
  intro c' hc hs
  have hquiet : c'.Quiet := fun r hr => (hs.conduct r hr).quiet
  have hprogram : c'.programs[0]? = some { p.put s with run, playing } := by
    rw [hc.programs]
    rfl
  have hmachine : c'.machine = s.machine := hc.machine
  have hprogress : Program.progress { p.put s with run, playing } c'.machine = s := by
    rw [hmachine]
    rfl
  have harrives : (step call 0).Arrives c' true _ :=
    step_arrives hquiet hs hprogram hp (i := i) hi (by rwa [hprogress])
  rw [hprogress] at harrives
  refine ⟨harrives.recorded hs.conduct, Noted.trans ?_ harrives.state,
    Sound.invariant.keeps_step hcall 0 c' hs⟩
  obtain ⟨events, journal, subscribers, rfl, hr⟩ := hc
  exact ⟨events, journal, subscribers, rfl, hr⟩

/-- A loop takes one step, and sleeps if the program is not complete then. -/
theorem loopStep_leaves (hp : p.stepping = false) {i : Instruction} (hi : s.current? = some i)
    (hready : s.Ready .standard i) :
    Leaves w n (loopStep call ⟨0, run, delay, first⟩)
      (c.during p run delay playing stage true s)
      (if (s.next .standard).current?.isSome then some delay else none)
      (c.during p run delay playing stage true (s.next .standard)) := by
  refine .program_bind rfl ?_
  rw [if_pos (by simp [isComplete_during, hi])]
  refine (step_leaves hcall hp hi hready).bind (.program_bind rfl ?_)
  rw [isComplete_during]
  cases (s.next .standard).current?.isSome with
  | true => exact sleep_leaves.bind (.pure _ _)
  | false => exact .pure _ _

theorem endRun_leaves :
    Leaves w n (endRun call ⟨0, run, delay, first⟩)
      (c.during p run delay playing stage awaited s) ()
      (c.during p run delay false stage awaited s) := by
  refine .program_bind rfl ?_
  rw [if_pos rfl]
  refine (finish_leaves (p := p)).bind (notifyProgram_leaves hcall rfl)

theorem endLoop_leaves {outcome : Option Value} :
    Leaves w n (endLoop call ⟨0, run, delay, first⟩ (.ok outcome))
      (c.during p run delay playing stage awaited s) ()
      (c.during p run delay false stage awaited s) :=
  (Leaves.ensuring (.pure outcome _) (endRun_leaves hcall)).bind
    (.program_bind rfl (log_leaves _ _))

variable (c p run delay playing awaited) in
/-- A loop that is resumed takes one step. It sleeps then if there is a next one, and ends
otherwise. -/
theorem tick_leaves (hp : p.stepping = false) {i : Instruction} (hi : s.current? = some i)
    (hready : s.Ready .standard i) (hstage : stage = .fresh ∨ stage = .suspended) :
    if (s.next .standard).current?.isSome then
      Leaves w n (tick call 0) (c.during p run delay playing stage awaited s) (.sleep delay)
        (c.during p run delay playing .suspended false (s.next .standard))
    else
      Leaves w n (tick call 0) (c.during p run delay playing stage awaited s) .ended
        (c.during p run delay false .ended false (s.next .standard)) := by
  have hstep : Leaves w n (loopStep call ⟨0, run, delay, stage⟩)
      (c.during p run delay playing .running true s) _ _ := loopStep_leaves hcall hp hi hready
  -- resuming is awaiting, whichever of the two stages the loop is at
  have hawait : ∀ {a d}, Leaves w n (resume call 0 ⟨0, run, delay, stage⟩)
      (c.during p run delay playing stage true s) a d →
      ∀ {e}, Leaves w n (setAwaited false) d () e →
      Leaves w n (tick call 0) (c.during p run delay playing stage awaited s) a e := by
    intro a d hresume e he
    refine .get_bind fun c' hc => ?_
    obtain ⟨events, journal, subscribers, rfl, hr⟩ := hc
    rcases hstage with rfl | rfl
    · exact (setAwaited_leaves true).bind (hresume.ensuring he)
    · exact (setAwaited_leaves true).bind (hresume.ensuring he)
  split
  · rename_i hmore
    rw [if_pos hmore] at hstep
    exact hawait ((setStage_leaves .running).bind
      (hstep.attempt.bind ((setStage_leaves .suspended).bind (.pure _ _))))
      (setAwaited_leaves false)
  · rename_i hmore
    rw [if_neg hmore] at hstep
    exact hawait ((setStage_leaves .running).bind (hstep.attempt.bind
      ((Leaves.ensuring (endLoop_leaves hcall) (setStage_leaves .ended)).bind (.pure _ _))))
      (setAwaited_leaves false)

variable (c p run delay playing awaited s) in
theorem cancel_leaves :
    Leaves w n (cancel call 0) (c.during p run delay playing .suspended awaited s) .cancelled
      (c.during p run delay false .ended awaited s) := by
  refine .get_bind fun c' hc => ?_
  obtain ⟨events, journal, subscribers, rfl, hr⟩ := hc
  exact (setStage_leaves .running).bind
    (((endRun_leaves hcall).ensuring (setStage_leaves .ended)).bind (.pure _ _))

omit hcall in
theorem stop_leaves :
    Leaves w n (stop call 0) (c.during p run delay false stage awaited s) ()
      (c.during p run delay false stage awaited s) :=
  .program_bind rfl (.pure _ _)

theorem play_leaves (hc : c.programs = [p]) (hl : c.loops = []) (hplaying : p.playing = false)
    (hcomplete : p.isComplete = false) :
    Leaves w n (play call 0 .none) c 0
      (c.during p (p.run + 1) p.stepDelay true .fresh c.awaited (p.progress c.machine)) := by
  let begun := { c with programs := [{ p with run := p.run + 1, playing := true }] }
  have hbegin : Leaves w n (modifyProgram 0 fun p => { p with run := p.run + 1, playing := true })
      c () begun := by
    have hbegun : begun = { c with
        programs :=
          c.programs.modify 0 fun p => { p with run := p.run + 1, playing := true } } := by
      simp only [begun, hc, List.modify_zero_cons]
    rw [hbegun]
    exact .modify (fun c' hc' => hc'.modifyProgram 0 _) fun c' hs => hs.withPrograms _
  have hmake : Leaves w n (makeLoop 0 .none) begun 0
      (c.during p (p.run + 1) p.stepDelay true .fresh c.awaited (p.progress c.machine)) := by
    intro c' hc' hs
    have hmade := Sound.invariant.keeps_makeLoop 0 .none c' hs
    obtain ⟨events, journal, subscribers, rfl, hr⟩ := hc'
    have hloops : begun.loops = [] := hl
    refine ⟨?_, ⟨events, journal, subscribers, ?_, hr⟩, hmade⟩
    · show Except.ok begun.loops.length = _
      rw [hloops]
      rfl
    · show Computer.mk _ _ _ (begun.loops ++ _) _ _ _ _ _ _ _ = _
      rw [hloops]
      rfl
  refine .program_bind (p := p) (by rw [hc]; rfl) ?_
  rw [hcomplete, hplaying]
  exact hbegin.bind ((log_leaves _ begun).bind ((notifyProgram_leaves hcall rfl).bind hmake))

end

end

end Routine

end Accumulator
