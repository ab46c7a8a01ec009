import Accumulator.Proofs.Nesting

/-! Loops that have expired: they have ended, or their program has gone on to another run. Such a
loop goes through no phase when it is resumed, and no call brings it back, however deep it is made
from inside notifications. Stopping a program that is playing and beginning another run make all its
loops expire. -/

namespace Accumulator

theorem Program.Change.run_le {N : Notice → Prop} {m : Machine} {p q : Program}
    (h : p.Change N m q) : p.run ≤ q.run := by
  cases h with
  | play _ _ => exact Nat.le_succ p.run
  | stop _ => exact Nat.le_succ p.run
  | _ => exact Nat.le_refl p.run

namespace Computer

/-- There is a loop of the number. -/
def Made (k : Nat) (c : Computer) : Prop := ∃ l, c.loops[k]? = some l

def Ended (k : Nat) (c : Computer) : Prop := ∃ l, c.loops[k]? = some l ∧ l.stage = .ended

/-- The run of the loop is not the current one of its program any more. -/
def Stale (k : Nat) (c : Computer) : Prop :=
  ∃ l p, c.loops[k]? = some l ∧ c.programs[l.program]? = some p ∧ l.run < p.run

/-- No loop belongs to a run that is still to come. -/
def Dated (c : Computer) : Prop := ∀ (k : Nat) (l : PlayLoop), c.loops[k]? = some l →
  ∃ p, c.programs[l.program]? = some p ∧ l.run ≤ p.run

/-- The machine watches its memory before any subscriber does. -/
def Watched (c : Computer) : Prop := ∃ rest, c.memoryWatchers = .dataRegister :: rest

variable {k : Nat} {c d : Computer}

theorem Change.loop {N : Notice → Prop} (h : c.Change N d) {l : PlayLoop}
    (hl : c.loops[k]? = some l) :
    ∃ m, d.loops[k]? = some m ∧ m.program = l.program ∧ m.run = l.run := by
  cases h with
  | makeLoop added p hp hrun hstage =>
    exact ⟨l, getElem?_append_of_some hl, rfl, rfl⟩
  | setStage j stage =>
    refine ⟨if j = k then { l with stage } else l, ?_, ?_, ?_⟩
    · show (c.loops.modify j _)[k]? = _
      rw [List.getElem?_modify, hl]
      rfl
    · split <;> rfl
    · split <;> rfl
  | _ => exact ⟨l, hl, rfl, rfl⟩

theorem Change.loop_origin {N : Notice → Prop} (h : c.Change N d) {m : PlayLoop}
    (hm : d.loops[k]? = some m) :
    (∃ l, c.loops[k]? = some l ∧ m.program = l.program ∧ m.run = l.run) ∨
      ∃ p, c.programs[m.program]? = some p ∧ m.run = p.run := by
  cases h with
  | makeLoop added p hp hrun hstage =>
    have happend : (c.loops ++ [added])[k]? = some m := hm
    rw [List.getElem?_append] at happend
    split at happend
    · exact .inl ⟨m, happend, rfl, rfl⟩
    · obtain rfl := List.mem_singleton.mp (List.mem_of_getElem? happend)
      exact .inr ⟨p, hp, hrun⟩
  | setStage j stage =>
    have hmodify : (c.loops.modify j fun l => { l with stage })[k]? = some m := hm
    rw [List.getElem?_modify] at hmodify
    obtain ⟨l, hl, rfl⟩ := Option.map_eq_some_iff.mp hmodify
    refine .inl ⟨l, hl, ?_, ?_⟩
    · split <;> rfl
    · split <;> rfl
  | _ => exact .inl ⟨m, hm, rfl, rfl⟩

theorem Change.program_run {N : Notice → Prop} (h : c.Change N d) {j : Nat} {p : Program}
    (hp : c.programs[j]? = some p) : ∃ q, d.programs[j]? = some q ∧ p.run ≤ q.run := by
  cases h with
  | program index f hf =>
    refine ⟨if index = j then f p else p, ?_, ?_⟩
    · show (c.programs.modify index f)[j]? = _
      rw [List.getElem?_modify, hp]
      rfl
    · split
      · rename_i hj
        subst hj
        exact (hf p hp).run_le
      · exact Nat.le_refl p.run
  | _ => exact ⟨p, hp, Nat.le_refl p.run⟩

theorem watched_invariant : Invariant (fun _ => True) Watched where
  watched h := h
  machine _ := trivial
  memory _ := trivial
  program _ _ := trivial
  change h hd := hd.watched h

/-- What every single change keeps is an invariant, whatever is shown in the notices. -/
theorem invariant_of_change {Q : Computer → Prop}
    (h : ∀ {c d : Computer}, Q c → c.Change (fun _ => True) d → Q d) :
    Invariant (fun _ => True) fun c => c.Watched ∧ Q c where
  watched hc := hc.1
  machine _ := trivial
  memory _ := trivial
  program _ _ := trivial
  change hc hd := ⟨hd.watched hc.1, h hc.2 hd⟩

theorem made_invariant (k : Nat) : Invariant (fun _ => True) fun c => c.Watched ∧ c.Made k := by
  refine invariant_of_change fun h hd => ?_
  obtain ⟨l, hl⟩ := h
  obtain ⟨m, hm, -⟩ := hd.loop hl
  exact ⟨m, hm⟩

/-- The run of a program only grows, and that of a loop stays the one that it was made for. -/
theorem Change.stale {N : Notice → Prop} (hd : c.Change N d) (h : c.Stale k) : d.Stale k := by
  obtain ⟨l, p, hl, hp, hlt⟩ := h
  obtain ⟨m, hm, hprogram, hrun⟩ := hd.loop hl
  obtain ⟨q, hq, hle⟩ := hd.program_run hp
  exact ⟨m, q, hm, hprogram ▸ hq, by omega⟩

theorem Change.dated {N : Notice → Prop} (hd : c.Change N d) (h : c.Dated) : d.Dated := by
  intro k m hm
  obtain ⟨p, hp, hle⟩ : ∃ p, c.programs[m.program]? = some p ∧ m.run ≤ p.run := by
    rcases hd.loop_origin hm with ⟨l, hl, hprogram, hrun⟩ | ⟨p, hp, hrun⟩
    · rw [hprogram, hrun]
      exact h k l hl
    · exact ⟨p, hp, hrun.le⟩
  obtain ⟨q, hq, hgrown⟩ := hd.program_run hp
  exact ⟨q, hq, hle.trans hgrown⟩

theorem stale_invariant (k : Nat) : Invariant (fun _ => True) fun c => c.Watched ∧ c.Stale k :=
  invariant_of_change fun h hd => hd.stale h

theorem dated_invariant : Invariant (fun _ => True) fun c => c.Watched ∧ c.Dated :=
  invariant_of_change fun h hd => hd.dated h

theorem ended_upheld (k : Nat) :
    Upheld (fun _ => True) (fun _ => True) fun c => c.Watched ∧ c.Ended k where
  watched h := h.1
  conduct _ _ _ _ _ _ := Reaction.calls_true _
  machine _ := trivial
  memory _ := trivial
  program _ _ := trivial
  change {c d} h hd hbeside := by
    have hloops : d.loops = c.loops := congrArg Roster.loops hbeside.roster
    obtain ⟨l, hl, hstage⟩ := h.2
    exact ⟨hd.watched h.1, l, by rw [hloops, hl], hstage⟩

/-- The loop has ended, or the run that it belongs to. -/
def Expired (k : Nat) (c : Computer) : Prop := c.Ended k ∨ c.Stale k

/-- From `c` to `d` neither the machine nor the programs change, no subscriber is told of anything,
and no program goes through a phase. -/
structure Spares (c d : Computer) : Prop where
  machine : d.machine = c.machine
  programs : d.programs = c.programs
  events : d.events = c.events
  phases : d.phases = c.phases

theorem Spares.refl (c : Computer) : c.Spares c := ⟨rfl, rfl, rfl, rfl⟩

theorem setStage_ended (h : c.Made k) : ((Routine.setStage k .ended).on c).2.Ended k := by
  obtain ⟨l, hl⟩ := h
  refine ⟨{ l with stage := .ended }, ?_, rfl⟩
  show (c.loops.modify k _)[k]? = _
  rw [List.getElem?_modify_eq, hl]
  rfl

end Computer

namespace Routine

open Computer

variable {call : Caller} {k : Nat} {c : Computer}

theorem ended_makeLoop (index : Nat) (delay : Value) :
    Keeps (fun c => c.Watched ∧ c.Ended k) (makeLoop index delay) := by
  refine Keeps.program_bind fun c p hc _ => ⟨hc.1, ?_⟩
  obtain ⟨l, hl, hstage⟩ := hc.2
  exact ⟨l, getElem?_append_of_some hl, hstage⟩

/-- The stage of another loop is set. -/
theorem ended_setStage {j : Nat} {l : PlayLoop} (hc : c.Ended k) (hl : c.loops[j]? = some l)
    (hstage : l.stage ≠ .ended) (stage : Stage) :
    Keeps (fun c => c.Watched ∧ c.Ended k) (setStage j stage) := by
  obtain ⟨m, hm, hended⟩ := hc
  have hne : j ≠ k := by
    rintro rfl
    obtain rfl : l = m := Option.some.inj (hl.symm.trans hm)
    exact hstage hended
  rintro d ⟨hwatched, m, hm, hended⟩
  refine ⟨hwatched, m, ?_, hended⟩
  exact (List.getElem?_modify_ne _ _ hne).trans hm

section
variable (hcall : ∀ command, Keeps (fun c => c.Watched ∧ c.Ended k) (call command))
include hcall

theorem ended_runs : KeepsRuns (fun c => c.Watched ∧ c.Ended k) call fun _ => True where
  step {index} _ := (ended_upheld k).keeps_step (fun command _ => hcall command) (fun _ _ hc => hc)
    (fun _ _ _ hc => hc) index
  notify := (ended_upheld k).keeps_notifyProgram fun command _ => hcall command
  halt hc _ _ := hc
  finish _ hc := hc
  setAwaited _ _ hc := hc
  log _ _ _ hc := hc

theorem ended_driving : KeepsDriving (fun c => c.Watched ∧ c.Ended k) call fun _ => True where
  step _ _ := (ended_runs hcall).step trivial
  run _ _ := (ended_runs hcall).run trivial
  play index delay _ := (ended_runs hcall).play (fun hc _ _ _ => hc) (ended_makeLoop index delay)
  stop index _ := (ended_runs hcall).stop index
  tick _ _ := (ended_runs hcall).tick fun hc hl hstage =>
    ⟨trivial, ended_setStage hc.2 hl hstage⟩
  cancel _ _ := (ended_runs hcall).cancel fun hc hl hstage => ended_setStage hc.2 hl hstage

end

theorem ended_performWithin (depth : Nat) (k : Nat) (command : Command) :
    Keeps (fun c => c.Watched ∧ c.Ended k) (performWithin depth command) := by
  induction depth generalizing command with
  | zero => exact Keeps.throw _
  | succ depth ih =>
    exact (ended_upheld k).keeps_perform (fun command _ => ih command) (ended_driving ih) trivial

/-- Nothing is left to do for a loop whose run is not the current one. -/
theorem loopStep_stale {l : PlayLoop} {p : Program} (hp : c.programs[l.program]? = some p)
    (h : p.run ≠ l.run) : (loopStep call l).on c = (.ok none, c) := by
  rw [loopStep, on_program_bind, hp]
  simp [h]

theorem endRun_stale {l : PlayLoop} {p : Program} (hp : c.programs[l.program]? = some p)
    (h : p.run ≠ l.run) : (endRun call l).on c = (.ok (), c) := by
  rw [endRun, on_program_bind, hp]
  simp [h]

/-- To resume such a loop ends it and passes everything else by. -/
theorem resume_stale {l : PlayLoop} {p : Program} (hp : c.programs[l.program]? = some p)
    (h : p.run ≠ l.run) : (resume call k l).on c = (.ok .ended, { c with
      loops := (c.loops.modify k fun l => { l with stage := .running }).modify k
        fun l => { l with stage := .ended }
      journal := .playEnded p.counter p.isComplete :: c.journal }) := by
  have hstep : (loopStep call l).on ((setStage k .running).on c).2 =
      (.ok none, ((setStage k .running).on c).2) := loopStep_stale hp h
  have hend : ∀ d, d.programs[l.program]? = some p → (endLoop call l (.ok none)).on d =
      (.ok (), { d with journal := .playEnded p.counter p.isComplete :: d.journal }) := by
    intro d hd
    rw [endLoop, on_bind, on_ensuring]
    simp only [on_conclude, endRun_stale hd h]
    rw [on_program_bind, hd]
    rfl
  rw [resume, on_setStage_bind, on_bind, on_attempt, hstep]
  simp only
  rw [on_bind_pure, on_ensuring, hend ((setStage k .running).on c).2 hp]
  rfl

theorem tick_stale {l : PlayLoop} {p : Program} (hl : c.loops[k]? = some l)
    (hp : c.programs[l.program]? = some p) (h : p.run ≠ l.run) :
    c.Spares ((tick call k).on c).2 := by
  have hawait : c.Spares ((await call k l).on c).2 := by
    let d := { c with awaited := true }
    have hresume : (resume call k l).on d = _ := resume_stale (k := k) (c := d) hp h
    show c.Spares ((ensuring (resume call k l) (setAwaited false)).on d).2
    rw [on_ensuring_snd, hresume]
    exact ⟨rfl, rfl, rfl, List.countP_cons_of_neg (by simp [Record.isPhase])⟩
  rw [tick, on_get_bind, hl]
  simp only
  split
  · exact hawait
  · exact hawait
  · exact .refl c
  · exact .refl c

/-- A loop that has expired goes through no phase, and its program and the machine stay as they are,
whatever stage it is in. -/
theorem tick_expired (h : c.Expired k) : c.Spares ((tick call k).on c).2 := by
  rcases h with ⟨l, hl, hstage⟩ | ⟨l, p, hl, hp, hlt⟩
  · rw [tick, on_get_bind, hl]
    simp only [hstage]
    exact .refl c
  · exact tick_stale hl hp hlt.ne'

section
variable {N : Notice → Prop} {P : Computer → Prop} {index : Nat} {p : Program}
  (I : Invariant N P) (hcall : ∀ command, Keeps P (call command))
include I hcall

/-- What holds once a run has been stopped holds after the notice of it. -/
theorem after_stop (hp : c.programs[index]? = some p) (hplaying : p.playing = true)
    (h : P { c with programs := c.programs.modify index fun p =>
      { p with run := p.run + 1, playing := false } }) : P ((stop call index).on c).2 := by
  rw [stop, on_program_bind, hp]
  simp only [hplaying, if_true]
  rw [on_modifyProgram_bind]
  exact Keeps.bind (I.keeps_log _) (fun _ => I.keeps_notifyProgram hcall index) _ h

theorem after_play (delay : Value) (hp : c.programs[index]? = some p)
    (hcomplete : p.isComplete = false) (hplaying : p.playing = false)
    (h : P { c with programs := c.programs.modify index fun p =>
      { p with run := p.run + 1, playing := true } }) : P ((play call index delay).on c).2 := by
  rw [on_play_begun hp hcomplete hplaying]
  refine Keeps.bind (I.keeps_log _) (fun _ => ?_) _ h
  exact Keeps.bind (I.keeps_notifyProgram hcall index) fun _ => I.keeps_makeLoop index delay

end

theorem cancel_ended (hw : c.Watched) {l : PlayLoop} (hl : c.loops[k]? = some l)
    (hidle : l.stage ≠ .running) (depth : Nat) :
    ((cancel (performWithin depth) k).on c).2.Ended k := by
  rw [cancel, on_get_bind, hl]
  simp only
  split
  · exact setStage_ended ⟨l, hl⟩
  · rw [on_setStage_bind, on_bind_pure, on_ensuring_snd]
    have hmade := (made_invariant k).keepsPlay ((made_invariant k).keeps_performWithin depth)
    exact setStage_ended (hmade.endRun l _ (hmade.setStage k .running c ⟨hw, l, hl⟩)).2
  · rename_i hstage
    exact absurd hstage hidle
  · rename_i hstage
    exact ⟨l, hl, hstage⟩

/-- A loop that is resumed sleeps then, or it has ended. -/
theorem resume_ended (hc : c.Watched ∧ c.Made k) (l : PlayLoop) (depth : Nat) :
    (∃ delay, ((resume (performWithin depth) k l).on c).1 = .ok (.sleep delay)) ∨
      ((resume (performWithin depth) k l).on c).2.Ended k := by
  have hmade := (made_invariant k).keepsPlay ((made_invariant k).keeps_performWithin depth)
  have hstep := keeps_loopStep (hmade.step trivial) (l := l) _ (hmade.setStage k .running c hc)
  rw [resume, on_setStage_bind, on_bind, on_attempt]
  simp only
  split
  · exact .inl ⟨_, rfl⟩
  · rw [on_bind_pure, on_ensuring_snd]
    exact .inr (setStage_ended (on_endLoop (S := fun c => c.Watched ∧ c.Made k)
      (E := fun c => c.Watched ∧ c.Made k) (hmade.endRun l) hmade.log _ hstep).2)

theorem tick_ended (hw : c.Watched) {l : PlayLoop} (hl : c.loops[k]? = some l)
    (hidle : l.stage ≠ .running) (depth : Nat)
    (h : ∀ delay, ((tick (performWithin depth) k).on c).1 ≠ .ok (.sleep delay)) :
    ((tick (performWithin depth) k).on c).2.Ended k := by
  have hawait : (∃ delay, ((await (performWithin depth) k l).on c).1 = .ok (.sleep delay)) ∨
      ((await (performWithin depth) k l).on c).2.Ended k := by
    have hon : (await (performWithin depth) k l).on c =
        (ensuring (resume (performWithin depth) k l) (setAwaited false)).on
          { c with awaited := true } := rfl
    rw [hon, on_ensuring]
    exact resume_ended (c := { c with awaited := true }) ⟨hw, l, hl⟩ l depth
  have hended : (∀ delay, ((await (performWithin depth) k l).on c).1 ≠ .ok (.sleep delay)) →
      ((await (performWithin depth) k l).on c).2.Ended k :=
    fun hawake => hawait.resolve_left fun ⟨delay, hsleep⟩ => hawake delay hsleep
  rw [tick, on_get_bind, hl] at h ⊢
  simp only at h ⊢
  split at h
  · exact hended h
  · exact hended h
  · rename_i hstage
    exact absurd hstage hidle
  · rename_i hstage
    exact ⟨l, hl, hstage⟩

end Routine

namespace Computer

variable {k : Nat} {c : Computer} {w n : Nat} {t : Dispatch} {B : Conduct → Prop}

/-- The call ends the loop of a number, or the run that it belongs to: it stops the program or
begins another run of it, or it cancels the loop, or resumes it and does not find it asleep then. -/
def Expires (c : Computer) (k : Nat) (command : Command) : Prop :=
  ∃ l p, c.loops[k]? = some l ∧ c.programs[l.program]? = some p ∧
    match command with
    | .stop index => index = l.program ∧ p.playing = true
    | .play index _ => index = l.program ∧ p.isComplete = false ∧ p.playing = false
    | .cancel j => j = k
    | .tick j => j = k ∧ ∀ delay, (c.perform command).1 ≠ .ok (.sleep delay)
    | _ => False

theorem Stale.of_begun (h : c.Dated) {l : PlayLoop} (hl : c.loops[k]? = some l)
    {f : Program → Program} (hf : ∀ p, (f p).run = p.run + 1) :
    Stale k { c with programs := c.programs.modify l.program f } := by
  obtain ⟨p, hp, hle⟩ := h k l hl
  refine ⟨l, f p, hl, ?_, ?_⟩
  · show (c.programs.modify l.program f)[l.program]? = _
    rw [List.getElem?_modify_eq, hp]
    rfl
  · rw [hf]
    omega

/-- To stop a program that is playing begins a run that none of its loops belongs to. -/
theorem stop_stale (h : c.Dated) (hw : c.Watched) {l : PlayLoop} {p : Program}
    (hl : c.loops[k]? = some l) (hp : c.programs[l.program]? = some p) (hplaying : p.playing = true)
    (depth : Nat) : ((Routine.performWithin (depth + 1) (.stop l.program)).on c).2.Stale k := by
  show Stale k ((Routine.stop (Routine.performWithin depth) l.program >>=
    fun _ => pure Answer.nothing).on c).2
  rw [Routine.on_bind_pure]
  exact (Routine.after_stop (stale_invariant k) ((stale_invariant k).keeps_performWithin depth) hp
    hplaying ⟨hw, .of_begun h hl fun _ => rfl⟩).2

theorem Expires.expired {command : Command} (h : c.Expires k command) (hrest : c.AtRest)
    (hw : c.Watched) (hdated : c.Dated) : (c.perform command).2.Expired k := by
  obtain ⟨l, p, hl, hp, h⟩ := h
  have hidle := hrest.loops l (List.mem_of_getElem? hl)
  cases command with
  | stop index =>
    obtain ⟨rfl, hplaying⟩ := h
    exact .inr (stop_stale hdated hw hl hp hplaying c.bound)
  | play index delay =>
    obtain ⟨rfl, hcomplete, hplaying⟩ := h
    show Expired k ((Routine.play (Routine.performWithin c.bound) l.program delay >>=
      fun m => pure (Answer.loop m)).on c).2
    rw [Routine.on_bind_pure]
    exact .inr (Routine.after_play (stale_invariant k)
      ((stale_invariant k).keeps_performWithin c.bound) delay hp hcomplete hplaying
      ⟨hw, .of_begun hdated hl fun _ => rfl⟩).2
  | cancel j =>
    obtain rfl : j = k := h
    exact .inl (Routine.cancel_ended hw hl hidle c.bound)
  | tick j =>
    obtain ⟨rfl, hanswer⟩ := h
    exact .inl (Routine.tick_ended hw hl hidle c.bound hanswer)
  | _ => exact h.elim

/-- No call brings back a loop that has expired, and none that subscribers make in its course. -/
theorem Expired.perform (h : c.Expired k) (hw : c.Watched) (command : Command) :
    (c.perform command).2.Expired k := by
  rcases h with h | h
  · exact .inl (Upheld.keeps_perform (ended_upheld k)
      (fun command _ => Routine.ended_performWithin c.bound k command)
      (Routine.ended_driving (Routine.ended_performWithin c.bound k)) trivial c ⟨hw, h⟩).2
  · exact .inr ((stale_invariant k).perform ⟨hw, h⟩ command).2

theorem Expired.performAll (h : c.Expired k) (hw : c.Watched) (commands : List Command) :
    (c.performAll commands).Expired k := by
  induction commands generalizing c with
  | nil => exact h
  | cons command commands ih =>
    exact ih (h.perform hw command) (watched_invariant.perform hw command)

theorem Reachable.dated (h : c.Reachable w n t B) (hn : 0 < n) : c.Dated := by
  induction h with
  | idle subscribers bound _ => exact fun k l hl => nomatch hl
  | build entries delay _ _ ih =>
    intro k l hl
    obtain ⟨p, hp, hle⟩ := ih k l hl
    exact ⟨p, getElem?_append_of_some hp, hle⟩
  | call command hc ih => exact (dated_invariant.perform ⟨(hc.sound hn).watched, ih⟩ command).2

end Computer

end Accumulator
