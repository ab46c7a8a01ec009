import Accumulator.Computer.Play
import Accumulator.Proofs.Roster
import Accumulator.Proofs.Routine

/-! What runs and play loops keep. They are made of steps, of notices to the watchers of a program,
and of marks on programs and loops; a property that all of these keep is kept by runs and loops as
well. -/

namespace Accumulator.Routine

/-- The parts of runs that are under way keep a property, as far as they step the programs in
`J`. -/
structure KeepsRuns (P : Computer → Prop) (call : Caller) (J : Nat → Prop) : Prop where
  step : ∀ {index : Nat}, J index → Keeps P (step call index)
  notify : ∀ index, Keeps P (notifyProgram call index)
  halt : ∀ {c : Computer} {index : Nat} {p : Program}, P c → c.programs[index]? = some p →
    p.playing = true →
    P { c with programs :=
      c.programs.modify index fun p => { p with run := p.run + 1, playing := false } }
  finish : ∀ {c : Computer} (index : Nat), P c →
    P { c with programs := c.programs.modify index fun p => { p with playing := false } }
  setAwaited : ∀ awaited, Keeps P (setAwaited awaited)
  log : ∀ record, record.isPhase = false → Keeps P (log record)

/-- The parts of runs and play loops keep a property, as far as they step the programs in `J`. -/
structure KeepsPlay (P : Computer → Prop) (call : Caller) (J : Nat → Prop) : Prop
    extends KeepsRuns P call J where
  begin : ∀ {c : Computer} {index : Nat} {p : Program}, P c → c.programs[index]? = some p →
    p.isComplete = false → p.playing = false →
    P { c with programs :=
      c.programs.modify index fun p => { p with run := p.run + 1, playing := true } }
  makeLoop : ∀ {index : Nat} (delay : Value), J index → Keeps P (makeLoop index delay)
  setStage : ∀ index stage, Keeps P (setStage index stage)

theorem keeps_sleep (P : Computer → Prop) (delay : Value) : Keeps P (sleep delay) := by
  refine Keeps.get_bind fun c hc => ?_
  split
  · exact hc
  · refine Keeps.bind (Keeps.conclude _) (fun atOnce => ?_) c hc
    split
    · exact Keeps.pure _
    · exact Keeps.throw _

section

variable {P : Computer → Prop} {call : Caller} {index : Nat}

theorem keeps_steps (hstep : Keeps P (step call index)) (limit : Nat) :
    Keeps P (steps call index limit) := by
  induction limit with
  | zero => exact Keeps.throw _
  | succ limit ih =>
    refine Keeps.bind hstep fun more => ?_
    cases more with
    | true => exact ih
    | false => exact Keeps.pure _

theorem keeps_run (hstep : Keeps P (step call index)) : Keeps P (run call index) := by
  refine Keeps.program_bind fun c p hc _ => ?_
  refine Keeps.get_bind (fun d hd => ?_) c hc
  refine Keeps.bind (keeps_steps hstep _) (fun _ => ?_) d hd
  exact Keeps.program_bind fun e _ he _ => he

/-- A loop that is resumed takes one step or none. -/
theorem on_loopStep {S : Computer → Prop} {l : PlayLoop} {c : Computer} (hnone : S c)
    (hstep : S ((step call l.program).on c).2) : S ((loopStep call l).on c).2 := by
  have hafter : ∀ d, S d → S ((program l.program >>= fun p =>
      if p.isComplete then pure none else return some (← sleep l.delay)).on d).2 := by
    refine Keeps.program_bind fun d q hd _ => ?_
    split
    · exact hd
    · exact Keeps.bind (keeps_sleep S l.delay) (fun _ => Keeps.pure _) d hd
  rw [loopStep, on_program_bind]
  split
  · split
    · rw [on_bind]
      rcases hout : (step call l.program).on c with ⟨_ | _, d⟩ <;> rw [hout] at hstep
      · exact hstep
      · exact hafter d hstep
    · exact hnone
  · exact hnone

theorem keeps_loopStep {l : PlayLoop} (hstep : Keeps P (step call l.program)) :
    Keeps P (loopStep call l) := fun c hc => on_loopStep hc (hstep c hc)

end

/-- A play that is not refused begins a run before it gives notice. -/
theorem on_play_begun {call : Caller} {index : Nat} {p : Program} {c : Computer}
    (hp : c.programs[index]? = some p) (hcomplete : p.isComplete = false)
    (hplaying : p.playing = false) (delay : Value) : (play call index delay).on c =
      (log (.playBegun p.counter) >>= fun _ => notifyProgram call index >>= fun _ =>
        makeLoop index delay).on { c with
          programs := c.programs.modify index fun p =>
            { p with run := p.run + 1, playing := true } } := by
  rw [play, on_program_bind, hp]
  simp only [hcomplete, hplaying, Bool.false_eq_true, if_false]
  rw [on_modifyProgram_bind]

/-- A play is refused, or its notice fails, or it comes to make its loop. -/
theorem on_play {P S : Computer → Prop} {call : Caller} {index : Nat} {delay : Value} {c : Computer}
    (hsame : P c)
    (hbegin : ∀ p, c.programs[index]? = some p → p.isComplete = false → p.playing = false →
      S { c with
        programs := c.programs.modify index fun p => { p with run := p.run + 1, playing := true } })
    (hlog : ∀ record, record.isPhase = false → Keeps S (log record))
    (hnotify : Keeps S (notifyProgram call index))
    (hfailed : ∀ d p fault, S d → c.programs[index]? = some p → p.isComplete = false →
      p.playing = false → (play call index delay).on c = (.error fault, d) → P d)
    (hmade : ∀ d p, S d → c.programs[index]? = some p → p.isComplete = false →
      p.playing = false → (play call index delay).on c = (makeLoop index delay).on d →
      P ((makeLoop index delay).on d).2) :
    P ((play call index delay).on c).2 := by
  have hrefused : ∀ fault, (play call index delay).on c = (.error fault, c) →
      P ((play call index delay).on c).2 := fun fault hon => by rwa [hon]
  rcases hp : c.programs[index]? with _ | p
  · exact hrefused (.noProgram index) (by rw [play, on_program_bind, hp])
  · cases hcomplete : p.isComplete with
    | true =>
      exact hrefused .programComplete (by rw [play, on_program_bind, hp]; simp [hcomplete])
    | false =>
      cases hplaying : p.playing with
      | true =>
        refine hrefused .alreadyPlaying ?_
        rw [play, on_program_bind, hp]
        simp [hcomplete, hplaying]
      | false =>
        have hnotified := Keeps.bind (hlog (.playBegun p.counter) rfl) (fun _ => hnotify) _
          (hbegin p hp hcomplete hplaying)
        have hon : (play call index delay).on c = _ := on_play_begun hp hcomplete hplaying delay
        rw [← bind_assoc, on_bind] at hon
        rcases hout : (log (.playBegun p.counter) >>= fun _ => notifyProgram call index).on
          { c with programs := c.programs.modify index fun p =>
            { p with run := p.run + 1, playing := true } } with ⟨fault | _, d⟩ <;>
          rw [hout] at hon hnotified <;> rw [hon]
        · exact hfailed d p fault hnotified hp hcomplete hplaying hon
        · exact hmade d p hnotified hp hcomplete hplaying hon

section

variable {P S E : Computer → Prop} {call : Caller} {k : Nat} {l : PlayLoop} {c : Computer}

theorem keeps_stop {index : Nat}
    (hhalt : ∀ {c : Computer} {p : Program}, P c → c.programs[index]? = some p →
      p.playing = true → P { c with
        programs :=
          c.programs.modify index fun p => { p with run := p.run + 1, playing := false } })
    (hlog : ∀ record, record.isPhase = false → Keeps P (log record))
    (hnotify : Keeps P (notifyProgram call index)) : Keeps P (stop call index) := by
  refine Keeps.program_bind fun c p hc hp => ?_
  split
  · rename_i hplaying
    rw [on_modifyProgram_bind]
    exact Keeps.bind (hlog _ rfl) (fun _ => hnotify) _ (hhalt hc hp hplaying)
  · exact hc

/-- The run of a loop is ended if it is the current one. -/
theorem on_endRun (hstale : (∀ p, c.programs[l.program]? = some p → p.run ≠ l.run) → E c)
    (hcurrent : ∀ p, c.programs[l.program]? = some p ∧ p.run = l.run → E { c with
      programs := c.programs.modify l.program fun p => { p with playing := false } })
    (hnotify : Keeps E (notifyProgram call l.program)) : E ((endRun call l).on c).2 := by
  rw [endRun, on_program_bind]
  split
  · rename_i p hp
    split
    · rename_i hrun
      rw [on_modifyProgram_bind]
      exact hnotify _ (hcurrent p ⟨hp, hrun⟩)
    · rename_i hrun
      refine hstale fun q hq => ?_
      obtain rfl : p = q := Option.some.inj (hp.symm.trans hq)
      exact hrun
  · rename_i hp
    exact hstale fun q hq => nomatch hp.symm.trans hq

theorem on_endLoop (hend : ∀ d, S d → E ((endRun call l).on d).2)
    (hlog : ∀ record, record.isPhase = false → Keeps E (log record))
    (outcome : Except Fault (Option Value)) (hc : S c) : E ((endLoop call l outcome).on c).2 := by
  have hE : E ((ensuring (conclude outcome) (endRun call l)).on c).2 := by
    rw [on_ensuring_snd, on_conclude]
    exact hend c hc
  rw [endLoop, on_bind]
  rcases hout : (ensuring (conclude outcome) (endRun call l)).on c with ⟨_ | _, e⟩ <;>
    rw [hout] at hE
  · exact hE
  · exact Keeps.program_bind (fun e p he _ => hlog _ rfl e he) e hE

/-- A loop that is resumed has one property of the computer when its step is over and another one
while it ends; whether it sleeps in between or ends, it comes to a third. -/
theorem on_resume (hstep : S ((loopStep call l).on ((setStage k .running).on c).2).2)
    (hsleep : ∀ d, S d → P ((setStage k .suspended).on d).2)
    (hend : ∀ d, S d → E ((endRun call l).on d).2)
    (hlog : ∀ record, record.isPhase = false → Keeps E (log record))
    (hclose : ∀ d, E d → P ((setStage k .ended).on d).2) :
    P ((resume call k l).on c).2 := by
  rw [resume, on_setStage_bind, on_bind, on_attempt]
  simp only
  split
  · exact hsleep _ hstep
  · rw [on_bind_pure, on_ensuring_snd]
    exact hclose _ (on_endLoop hend hlog _ hstep)

/-- A loop is resumed only where it sleeps. -/
theorem on_tick (hc : P c) (hsame : ∀ d, P d → S d)
    (hP : ∀ awaited, Keeps P (setAwaited awaited)) (hS : ∀ awaited, Keeps S (setAwaited awaited))
    (h : ∀ {d l}, P d → d.loops[k]? = some l → l.stage = .fresh ∨ l.stage = .suspended →
      S ((resume call k l).on d).2) : S ((tick call k).on c).2 := by
  rw [tick, on_get_bind]
  split
  · exact hsame c hc
  · rename_i l hl
    have hawait : l.stage = .fresh ∨ l.stage = .suspended → S ((await call k l).on c).2 := by
      intro hstage
      have hresume := h (hP true c hc) hl hstage
      show S ((ensuring (resume call k l) (setAwaited false)).on { c with awaited := true }).2
      rw [on_ensuring_snd]
      exact hS false _ hresume
    split
    · rename_i hstage
      exact hawait (.inl hstage)
    · rename_i hstage
      exact hawait (.inr hstage)
    · exact hsame c hc
    · exact hsame c hc

theorem keeps_tick (hset : ∀ awaited, Keeps P (setAwaited awaited))
    (h : ∀ {c l}, P c → c.loops[k]? = some l → l.stage = .fresh ∨ l.stage = .suspended →
      P ((resume call k l).on c).2) : Keeps P (tick call k) :=
  fun _ hc => on_tick hc (fun _ hd => hd) hset hset h

/-- A loop that is cancelled where it sleeps is resumed only to end, and one that has not taken a
step is not resumed at all. -/
theorem on_cancel (hsame : P c)
    (hfresh : ∀ l, c.loops[k]? = some l → l.stage = .fresh → P ((setStage k .ended).on c).2)
    (hsleeping : ∀ l, c.loops[k]? = some l → l.stage = .suspended →
      P ((setStage k .ended).on ((endRun call l).on ((setStage k .running).on c).2).2).2) :
    P ((cancel call k).on c).2 := by
  rw [cancel, on_get_bind]
  split
  · exact hsame
  · rename_i l hl
    split
    · rename_i hstage
      exact hfresh l hl hstage
    · rename_i hstage
      rw [on_setStage_bind, on_bind_pure, on_ensuring_snd]
      exact hsleeping l hl hstage
    · exact hsame
    · exact hsame

end

namespace KeepsRuns

variable {P : Computer → Prop} {call : Caller} {J : Nat → Prop} (h : KeepsRuns P call J)
include h

theorem run {index : Nat} (hJ : J index) : Keeps P (run call index) := keeps_run (h.step hJ)

theorem play {index : Nat} {delay : Value}
    (hbegin : ∀ {c : Computer} {p : Program}, P c → c.programs[index]? = some p →
      p.isComplete = false → p.playing = false →
      P { c with programs :=
        c.programs.modify index fun p => { p with run := p.run + 1, playing := true } })
    (hmake : Keeps P (makeLoop index delay)) : Keeps P (play call index delay) := fun _ hc =>
  on_play hc (fun _ hp hcomplete hplaying => hbegin hc hp hcomplete hplaying) h.log
    (h.notify index) (fun _ _ _ hd _ _ _ _ => hd) fun d _ hd _ _ _ _ => hmake d hd

theorem stop (index : Nat) : Keeps P (stop call index) :=
  keeps_stop h.halt h.log (h.notify index)

theorem endRun (l : PlayLoop) : Keeps P (endRun call l) := fun _ hc =>
  on_endRun (fun _ => hc) (fun _ _ => h.finish l.program hc) (h.notify l.program)

/-- For a loop that sleeps to be resumed, it is enough that its own stages may be set. -/
theorem tick {k : Nat}
    (hJ : ∀ {c : Computer} {l : PlayLoop}, P c → c.loops[k]? = some l → l.stage ≠ .ended →
      J l.program ∧ ∀ stage, Keeps P (setStage k stage)) :
    Keeps P (tick call k) := by
  refine keeps_tick h.setAwaited fun {c l} hc hl hstage => ?_
  obtain ⟨hprogram, hset⟩ := hJ hc hl (by rcases hstage with h | h <;> simp [h])
  exact on_resume (keeps_loopStep (h.step hprogram) _ (hset .running c hc)) (hset .suspended)
    (h.endRun l) h.log (hset .ended)

theorem cancel {k : Nat}
    (hset : ∀ {c : Computer} {l : PlayLoop}, P c → c.loops[k]? = some l → l.stage ≠ .ended →
      ∀ stage, Keeps P (setStage k stage)) :
    Keeps P (cancel call k) := by
  refine fun c hc => on_cancel hc (fun l hl hstage => ?_) fun l hl hstage => ?_
  · exact hset hc hl (by simp [hstage]) .ended c hc
  · have hstages := hset hc hl (by simp [hstage])
    exact hstages .ended _ (h.endRun l _ (hstages .running c hc))

end KeepsRuns

namespace KeepsPlay

variable {P : Computer → Prop} {call : Caller} {J : Nat → Prop} (h : KeepsPlay P call J)
include h

theorem play {index : Nat} (hJ : J index) (delay : Value) : Keeps P (play call index delay) :=
  h.toKeepsRuns.play h.begin (h.makeLoop delay hJ)

theorem tick {index : Nat}
    (hJ : ∀ {c : Computer} {l : PlayLoop}, P c → c.loops[index]? = some l → J l.program) :
    Keeps P (tick call index) :=
  h.toKeepsRuns.tick fun hc hl _ => ⟨hJ hc hl, h.setStage index⟩

theorem cancel (index : Nat) : Keeps P (cancel call index) :=
  h.toKeepsRuns.cancel fun _ _ _ => h.setStage index

end KeepsPlay

end Accumulator.Routine
