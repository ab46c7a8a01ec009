import Accumulator.Proofs.Telling

/-! What the calls on programs and play loops tell subscribers that only take note. A step tells of
what its phase changes before it tells of the program, and a loop that ends while its run is current
tells of the program once more; a call that is refused and a loop whose run is over tell of
nothing. -/

namespace Accumulator.Routine

open Computer

variable {call : Caller} {c : Computer} {w n : Nat} {t : Dispatch}
  {index : Nat} {i : Instruction} {p : Program}

theorem program_log_tells (record : Program → Record) {d : Computer} (hd : d.Noted c)
    (hp : d.programs[index]? = some p) :
    (program index >>= fun p => log (record p)).Tells c (.ok ()) d [] := by
  refine (Tells.of_on (log (record p)) c ?_ rfl (Tells.log _ c)).noted hd
  rw [on_program_bind, hd.programs, hp]

theorem fetchPhase_tells (hr : c.Recording) (hp : c.programs[index]? = some p)
    (hi : c.machine.Accepts c.table i) :
    let d := { c with
      machine := c.machine.decoded i
      programs := c.programs.modify index fun p => { p with phase := .decoded } }
    (fetchPhase call index i).Tells c (.ok ()) d (d.fanOut .machine) := by
  intro d
  have hdecode : (decode call (.instruction i)).Tells c (.ok ()) _ _ := decode_tells hr hi
  refine Tells.bind_silent (hdecode.ensuring_silent fun e he => ?_) fun e he =>
    program_log_tells _ he (modify_getElem? hp _)
  have hholds : e.machine.holds i = true := by
    rw [he.machine]
    exact c.machine.decoded_holds i
  refine ⟨?_, ?_, ?_⟩ <;> rw [on_get_bind, if_pos hholds]
  · rfl
  · exact he.modifyProgram index _
  · rfl

theorem executePhase_tells (hc : c.Attended w n t) (hp : c.programs[index]? = some p)
    (h : c.machine.isDecoded = true) :
    let d := { c with
      machine := c.machine.executed t
      programs := c.programs.modify index (·.advance i c.machine (c.machine.executed t)) }
    (executePhase call index i).Tells c (.ok ()) d
      ((c.machine.pendingSources t).flatMap d.fanOut) := by
  intro d
  have hexecute : (execute call).Tells c (.ok ()) _ _ := execute_tells hc h
  have hsources := pendingSources_programs (t := t) { c with machine := c.machine.executed t }
    c.machine d.programs
  refine Tells.of_on _ c (on_get_bind _ c) rfl ?_
  rw [hsources]
  refine Tells.bind_silent (hexecute.ensuring_silent fun e he => ?_) fun e he =>
    program_log_tells _ he (modify_getElem? hp _)
  have hidle : (!e.machine.isDecoded) = true := by
    rw [he.machine, Machine.executed_isDecoded]
    rfl
  refine ⟨?_, ?_, ?_⟩ <;> rw [on_get_bind] <;> simp only [if_pos hidle]
  · rfl
  · rw [he.machine]
    exact he.modifyProgram index _
  · rfl

theorem doPhase_tells (hc : c.Attended w n t) (hp : c.programs[index]? = some p)
    (hi : p.current? = some i) (hready : (p.progress c.machine).Ready t i) :
    let d := c.put index p ((p.progress c.machine).next t)
    (doPhase call index i p.phase).Tells c (.ok ()) d
      (((p.progress c.machine).sources t).flatMap d.fanOut) := by
  have hcurrent : (p.progress c.machine).current? = some i := hi
  unfold Progress.Ready at hready
  cases hphase : p.phase with
  | fetch =>
    have hphase' : (p.progress c.machine).phase = .fetch := hphase
    simp only [hphase'] at hready
    have hfetch : (fetchPhase call index i).Tells c (.ok ()) _ _ :=
      fetchPhase_tells hc.recording hp (hc.sound.table ▸ hready)
    rw [modify_eq_set hp] at hfetch
    have hsources : (p.progress c.machine).sources t = [.machine] := by
      rw [Progress.sources, hphase']
    rw [Progress.next_accepted hcurrent hphase' hready, hsources]
    intro d
    rw [List.flatMap_singleton]
    exact hfetch
  | decoded =>
    have hphase' : (p.progress c.machine).phase = .decoded := hphase
    simp only [hphase'] at hready
    have hexecute : (executePhase call index i).Tells c (.ok ()) _ _ :=
      executePhase_tells hc hp hready
    rw [modify_eq_set hp] at hexecute
    rw [Progress.next_decoded hcurrent hphase', Progress.sources, hphase']
    exact hexecute

/-- A step tells of what its phase changes, and then of the program. -/
theorem step_tells (hc : c.Attended w n t) (hp : c.programs[index]? = some p)
    (hstepping : p.stepping = false) (hi : p.current? = some i)
    (hready : (p.progress c.machine).Ready t i) :
    let d := c.put index p ((p.progress c.machine).next t)
    (step call index).Tells c (.ok true) d
      (((p.progress c.machine).sources t ++ [Source.program index]).flatMap d.fanOut) := by
  intro d
  let q : Program := { p with stepping := true }
  let b := { c with programs := c.programs.modify index fun p => { p with stepping := true } }
  have hb : b.Attended w n t := ⟨hc.sound.withPrograms _, hc.registered⟩
  have hq : b.programs[index]? = some q := modify_getElem? hp _
  have hphase : (doPhase call index i q.phase).Tells b (.ok ()) _ _ :=
    doPhase_tells hb hq hi hready
  have hd : d.programs[index]? = some (p.put ((p.progress c.machine).next t)) :=
    List.getElem?_set_self (List.getElem?_eq_some_iff.mp hp).1
  have hsources : ((q.progress b.machine).sources t).flatMap
      (b.put index q ((q.progress b.machine).next t)).fanOut =
        ((p.progress c.machine).sources t).flatMap d.fanOut :=
    (sources_programs d (p.progress c.machine) _).trans rfl
  rw [hsources] at hphase
  refine Tells.of_on _ b (on_step hp hstepping hi) rfl ?_
  rw [List.flatMap_append, List.flatMap_singleton]
  refine Tells.bind (hphase.ensuring_silent (e := d) fun e he => ⟨rfl, ?_, rfl⟩) fun e he => ?_
  · have hnoted : ((setStepping index false).on (b.put index q
        ((q.progress b.machine).next t))).2.Noted ((setStepping index false).on e).2 :=
      he.modifyProgram index _
    have hput : (setStepping index false).on (b.put index q ((q.progress b.machine).next t)) =
        (.ok (), d) := put_stepping hp hstepping _
    rwa [hput] at hnoted
  · have hnotify : (notifyProgram call index).Tells e (.ok ()) e (e.fanOut (.program index)) :=
      notifyProgram_tells (he.conduct hc.recording) (he.programs ▸ hd)
    rw [he.fanOut] at hnotify
    exact (hnotify.map fun _ => true).noted he

/-- Whatever becomes of a step, it arrives at the next progress. -/
theorem step_tells_any (hc : c.Attended w n t) (hp : c.programs[index]? = some p)
    (hstepping : p.stepping = false) :
    let d := c.put index p ((p.progress c.machine).next t)
    ∃ outcome, (step call index).Tells c outcome d
      (((p.progress c.machine).stepSources t index).flatMap d.fanOut) := by
  intro d
  unfold Progress.stepSources
  cases hi : p.current? with
  | none =>
    have hcurrent : (p.progress c.machine).current? = none := hi
    have hd : d = c := by
      simp only [d, Progress.next_complete hcurrent, put_self hp]
    have hon : (step call index).on c = (.ok false, c) := step_complete hp hstepping hi
    rw [hcurrent, hd]
    exact ⟨.ok false, Tells.of_eq hon rfl⟩
  | some i =>
    have hcurrent : (p.progress c.machine).current? = some i := hi
    rw [hcurrent]
    simp only
    split
    · rename_i hready
      exact ⟨.ok true, step_tells hc hp hstepping hi hready⟩
    · rename_i hready
      obtain ⟨fault, hon⟩ : ∃ fault, (step call index).on c = (.error fault, d) :=
        step_refused hc.sound.table hp hstepping hi hready
      exact ⟨.error fault, Tells.of_eq hon rfl⟩

theorem insert_tells (hr : c.Recording) (hp : c.programs[index]? = some p)
    {name args position : Value} {n : Nat}
    (h : insertion c p name args position = .ok (n, i)) :
    let d := { c with programs := c.programs.modify index (·.insertAt n i) }
    (insert call index name args position).Tells c (.ok i) d (d.fanOut (.program index)) := by
  intro d
  have hd : d.Recording := hr
  refine Tells.of_on (notifyProgram call index >>= fun _ => pure i) d ?_ rfl
    ((notifyProgram_tells hd (modify_getElem? hp (·.insertAt n i))).map fun _ => i)
  rw [on_insertion hp, h]

/-- A loop is made without a word. -/
theorem makeLoop_tells (hp : c.programs[index]? = some p) (delay : Value) :
    (makeLoop index delay).Tells c (.ok c.loops.length)
      { c with loops := c.loops ++ [{ program := index, run := p.run, delay := delayOf p delay }] }
      [] := by
  refine Tells.of_eq ?_ rfl
  rw [makeLoop, on_program_bind, hp]
  rfl

theorem play_complete (hp : c.programs[index]? = some p) (hcomplete : p.isComplete = true)
    (delay : Value) : (play call index delay).on c = (.error .programComplete, c) := by
  rw [play, on_program_bind, hp]
  simp only [hcomplete, if_true]
  rfl

theorem play_again (hp : c.programs[index]? = some p) (hcomplete : p.isComplete = false)
    (hplaying : p.playing = true) (delay : Value) :
    (play call index delay).on c = (.error .alreadyPlaying, c) := by
  rw [play, on_program_bind, hp]
  simp only [hcomplete, hplaying, Bool.false_eq_true, if_false, if_true]
  rfl

/-- A play tells of the program before it makes the loop. -/
theorem play_tells (hr : c.Recording) (hp : c.programs[index]? = some p)
    (hcomplete : p.isComplete = false) (hplaying : p.playing = false) (delay : Value) :
    let l : PlayLoop := { program := index, run := p.run + 1, delay := delayOf p delay }
    let d := { c with
      programs := c.programs.modify index fun p => { p with run := p.run + 1, playing := true }
      loops := c.loops ++ [l] }
    (play call index delay).Tells c (.ok c.loops.length) d (d.fanOut (.program index)) := by
  intro l d
  let b := { c with
    programs := c.programs.modify index fun p => { p with run := p.run + 1, playing := true } }
  have hb : b.Recording := hr
  have hq : b.programs[index]? = some { p with run := p.run + 1, playing := true } :=
    modify_getElem? hp _
  refine Tells.of_on _ b (on_play_begun hp hcomplete hplaying delay) rfl ?_
  refine Tells.log_bind fun e he => ?_
  have hnotify : (notifyProgram call index).Tells e (.ok ()) e (e.fanOut (.program index)) :=
    notifyProgram_tells (he.conduct hb) (he.programs ▸ hq)
  rw [he.fanOut] at hnotify
  refine hnotify.bind_silent fun f hf => ?_
  have hmake : (makeLoop index delay).Tells f (.ok f.loops.length) _ [] :=
    makeLoop_tells (hf.programs ▸ he.programs ▸ hq) delay
  obtain ⟨_, _, _, rfl, hreact⟩ := he.trans hf
  exact hmake.noted ⟨_, _, _, rfl, hreact⟩

theorem stop_tells (hr : c.Recording) (hp : c.programs[index]? = some p)
    (hplaying : p.playing = true) :
    let d := { c with
      programs := c.programs.modify index fun p => { p with run := p.run + 1, playing := false } }
    (stop call index).Tells c (.ok ()) d (d.fanOut (.program index)) := by
  intro d
  have hd : d.Recording := hr
  have hq : d.programs[index]? = some { p with run := p.run + 1, playing := false } :=
    modify_getElem? hp _
  refine Tells.of_on (log (.stopped p.counter) >>= fun _ => notifyProgram call index) d ?_ rfl ?_
  · rw [stop, on_program_bind, hp]
    simp only [hplaying, if_true]
    rfl
  · refine Tells.log_bind fun e he => ?_
    have hnotify : (notifyProgram call index).Tells e (.ok ()) e (e.fanOut (.program index)) :=
      notifyProgram_tells (he.conduct hd) (he.programs ▸ hq)
    rw [he.fanOut] at hnotify
    exact hnotify.noted he

theorem endRun_tells (hr : c.Recording) {l : PlayLoop} (hp : c.programs[l.program]? = some p)
    (hrun : p.run = l.run) :
    let d := { c with
      programs := c.programs.modify l.program fun p => { p with playing := false } }
    (endRun call l).Tells c (.ok ()) d (d.fanOut (.program l.program)) := by
  intro d
  have hd : d.Recording := hr
  refine Tells.of_on (notifyProgram call l.program) d ?_ rfl
    (notifyProgram_tells hd (modify_getElem? hp _))
  rw [endRun, on_program_bind, hp]
  simp only [hrun, if_true]
  rfl

theorem sleep_awaited (h : c.awaited = true) (delay : Value) :
    (sleep delay).on c = (.ok delay, c) := by
  rw [sleep, on_get_bind, if_pos h]
  rfl

/-- A loop whose run is current takes a step if there is one to take, and sleeps if another is left
then. -/
theorem loopStep_tells {l : PlayLoop} (hp : c.programs[l.program]? = some p)
    (hstepping : p.stepping = false) (hrun : p.run = l.run) (hawaited : c.awaited = true)
    {outcome : Except Fault Bool} {s : Progress} {es : List Event}
    (hstep : (step call l.program).Tells c outcome (c.put l.program p s) es) :
    (loopStep call l).Tells c
      (outcome.map fun _ => if s.current?.isSome then some l.delay else none)
      (c.put l.program p s) es := by
  have hlt := (List.getElem?_eq_some_iff.mp hp).1
  have hq : (c.put l.program p s).programs[l.program]? = some (p.put s) :=
    List.getElem?_set_self hlt
  have hisComplete : (p.put s).isComplete = !s.current?.isSome := (p.put s).isComplete_eq
  cases hcomplete : p.isComplete with
  | true =>
    have hi : p.current? = none := List.getElem?_eq_none (of_decide_eq_true hcomplete)
    have hon : (step call l.program).on c = (.ok false, c) := step_complete hp hstepping hi
    have hstay : (loopStep call l).on c = (.ok none, c) := by
      rw [loopStep, on_program_bind, hp]
      simp [hcomplete]
    obtain ⟨houtcome, hstate, hevents⟩ := hstep
    rw [hon] at houtcome hstate hevents
    -- The step changed nothing, so that the progress is still that of the program.
    have hsame : p.put s = p := by
      rw [← hstate.programs, hp] at hq
      exact (Option.some.inj hq).symm
    rw [hsame, hcomplete] at hisComplete
    have hnone : s.current?.isSome = false := by simpa using hisComplete.symm
    rw [← houtcome, hnone]
    exact ⟨congrArg Prod.fst hstay, by rw [hstay]; exact hstate, by rw [hstay]; exact hevents⟩
  | false =>
    have hon : (loopStep call l).on c = (do
        let _ ← step call l.program
        if (← program l.program).isComplete then return none
        else return some (← sleep l.delay)).on c := by
      rw [loopStep, on_program_bind, hp]
      simp only [hrun, hcomplete, decide_true, Bool.not_false, Bool.and_self, if_true]
    cases outcome with
    | error fault => exact Tells.of_on _ c hon rfl (hstep.bind_refused _)
    | ok b =>
      refine Tells.of_on _ c hon rfl (hstep.bind_silent fun e he => ?_)
      refine Tells.noted (Tells.of_eq ?_ rfl) he
      have hawake : e.awaited = true := by
        obtain ⟨_, _, _, rfl, -⟩ := he
        exact hawaited
      rw [on_program_bind, he.programs, hq]
      simp only [hisComplete]
      cases s.current?.isSome with
      | false => rfl
      | true =>
        simp only [Bool.not_true, Bool.false_eq_true, if_false]
        rw [on_bind_pure, sleep_awaited hawake]
        rfl

theorem endLoop_tells (hr : c.Recording) {l : PlayLoop} (hp : c.programs[l.program]? = some p)
    (hrun : p.run = l.run) (outcome : Except Fault (Option Value)) :
    let d := { c with
      programs := c.programs.modify l.program fun p => { p with playing := false } }
    (endLoop call l outcome).Tells c (outcome.map fun _ => ()) d
      (d.fanOut (.program l.program)) := by
  intro d
  have hconclude : (conclude outcome).Tells c outcome c [] :=
    Tells.of_eq (on_conclude c outcome) rfl
  have hend : (ensuring (conclude outcome) (endRun call l)).Tells c outcome d
      ([] ++ d.fanOut (.program l.program)) := by
    refine hconclude.ensuring_at ?_
    rw [on_conclude]
    exact endRun_tells hr hp hrun
  cases outcome with
  | error fault => exact hend.bind_refused _
  | ok delay =>
    exact hend.bind_silent fun e he =>
      program_log_tells (fun p => .playEnded p.counter p.isComplete) he
        (modify_getElem? hp _)

theorem setStage_tells (k : Nat) (stage : Stage) (c : Computer) :
    (setStage k stage).Tells c (.ok ()) ((setStage k stage).on c).2 [] := Tells.of_eq rfl rfl

/-- A loop that ends tells of its program, whether it has come to its end or was refused. -/
theorem close_tells (hr : c.Recording) {l : PlayLoop} (hp : c.programs[l.program]? = some p)
    (hrun : p.run = l.run) (k : Nat) (outcome : Except Fault (Option Value)) :
    let d := ((setStage k .ended).on { c with
      programs := c.programs.modify l.program fun p => { p with playing := false } }).2
    (do ensuring (endLoop call l outcome) (setStage k .ended); return Answer.ended).Tells c
      (outcome.map fun _ => .ended) d (d.fanOut (.program l.program)) := by
  intro d
  have hend : (endLoop call l outcome).Tells c _ _ _ := endLoop_tells hr hp hrun outcome
  have hclose : (ensuring (endLoop call l outcome) (setStage k .ended)).Tells c
      (outcome.map fun _ => ()) d (d.fanOut (.program l.program)) :=
    hend.ensuring_silent fun e he => (setStage_tells k .ended e).noted (he.setStage k .ended)
  have hmap := hclose.map fun _ => Answer.ended
  cases outcome <;> exact hmap

/-- A loop that is resumed while its run is current tells of what it does, and if it ends then, of
the program again. -/
theorem resume_tells {k : Nat} {l : PlayLoop} {outcome : Except Fault (Option Value)}
    {e : Computer} {es : List Event}
    (hstep : (loopStep call l).Tells ((setStage k .running).on c).2 outcome e es)
    (he : e.Recording) {q : Program} (hq : e.programs[l.program]? = some q) (hrun : q.run = l.run) :
    (resume call k l).Tells c (handedOver outcome) (e.leftOff k l outcome)
      (es ++ (leavingSources l outcome).flatMap (e.leftOff k l outcome).fanOut) := by
  have hclose (f : Computer) (hf : e.Noted f) :
      (do ensuring (endLoop call l outcome) (setStage k .ended); return Answer.ended).Tells f
        (outcome.map fun _ => .ended) (e.leftOff k l (.ok none))
        ([Source.program l.program].flatMap (e.leftOff k l (.ok none)).fanOut) := by
    have hnoted : (e.leftOff k l (.ok none)).Noted (f.leftOff k l (.ok none)) :=
      (hf.modifyProgram l.program _).setStage k .ended
    rw [List.flatMap_singleton, ← hnoted.fanOut]
    exact (close_tells (hf.conduct he) (hf.programs ▸ hq) hrun k outcome).noted hnoted
  refine Tells.of_on _ _ (on_setStage_bind k .running _ c) rfl ?_
  rcases outcome with fault | _ | delay
  · exact hstep.attempt.bind hclose
  · exact hstep.attempt.bind hclose
  · refine hstep.attempt.bind fun f hf => ?_
    have hsleep : (setStage k .suspended >>= fun _ => pure (Answer.sleep delay)).Tells f
        (.ok (.sleep delay)) ((setStage k .suspended).on f).2 [] := Tells.of_eq rfl rfl
    exact hsleep.noted (hf.setStage k .suspended)

/-- To tick a loop whose run is current is to resume it where it sleeps: it takes a step, if there
is one to take, and sleeps again or ends. -/
theorem tick_tells (hr : c.Recording) {k : Nat} {l : PlayLoop} (hl : c.loops[k]? = some l)
    (hstage : l.stage = .fresh ∨ l.stage = .suspended) (hp : c.programs[l.program]? = some p)
    (hstepping : p.stepping = false) (hrun : p.run = l.run) {outcome : Except Fault Bool}
    {s : Progress} {es : List Event}
    (hstep : (step call l.program).Tells (c.resuming k) outcome
      ((c.resuming k).put l.program p s) es) :
    let left := outcome.map fun _ => if s.current?.isSome then some l.delay else none
    let d := ((c.resuming k).put l.program p s).leftOff k l left
    (tick call k).Tells c (handedOver left) { d with awaited := false }
      (es ++ (leavingSources l left).flatMap d.fanOut) := by
  intro left d
  let c' := { c with awaited := true }
  have hloop : (loopStep call l).Tells (c.resuming k) left ((c.resuming k).put l.program p s) es :=
    loopStep_tells (c := c.resuming k) hp hstepping hrun rfl hstep
  have hq : ((c.resuming k).put l.program p s).programs[l.program]? = some (p.put s) :=
    List.getElem?_set_self (List.getElem?_eq_some_iff.mp hp).1
  have hresume : (resume call k l).Tells c' _ _ _ := resume_tells hloop hr hq hrun
  refine Tells.of_on (ensuring (resume call k l) (setAwaited false)) c' ?_ rfl
    (hresume.ensuring_silent fun f hf => ?_)
  · rw [tick, on_get_bind, hl]
    rcases hstage with h | h <;> simp only [h] <;> rfl
  · obtain ⟨_, _, _, rfl, hreact⟩ := hf
    exact ⟨rfl, ⟨_, _, _, rfl, hreact⟩, rfl⟩

/-- To tick a loop whose run is over tells of nothing. -/
theorem tick_silent {k : Nat} (h : ∀ l, c.loops[k]? = some l →
    l.stage = .fresh ∨ l.stage = .suspended → ∃ p, c.programs[l.program]? = some p ∧
      p.run ≠ l.run) :
    ((tick call k).on c).2.events = c.events ∧ c.SameAudience ((tick call k).on c).2 := by
  refine on_tick (P := fun d => d.programs = c.programs ∧ d.loops = c.loops ∧
      d.events = c.events ∧ c.SameAudience d) (S := fun d => d.events = c.events ∧ c.SameAudience d)
    ⟨rfl, rfl, rfl, fun _ => rfl⟩ (fun _ hd => hd.2.2) (fun _ _ hd => hd) (fun _ _ hd => hd)
    fun {d l} hd hl hstage => ?_
  obtain ⟨hprograms, hloops, hevents, haudience⟩ := hd
  obtain ⟨p, hp, hrun⟩ := h l (hloops ▸ hl) hstage
  have hresume : (resume call k l).on d = _ := resume_stale (hprograms ▸ hp) hrun
  rw [hresume]
  exact ⟨hevents, haudience⟩

/-- A loop that is cancelled where it sleeps tells of its program if its run is current. -/
theorem cancel_tells (hr : c.Recording) {k : Nat} {l : PlayLoop} (hl : c.loops[k]? = some l)
    (hstage : l.stage = .suspended) (hp : c.programs[l.program]? = some p)
    (hrun : p.run = l.run) :
    ∃ d, c.SameAudience d ∧
      (cancel call k).Tells c (.ok .cancelled) d (d.fanOut (.program l.program)) := by
  let c' := ((setStage k .running).on c).2
  let d := ((setStage k .ended).on { c' with
    programs := c'.programs.modify l.program fun p => { p with playing := false } }).2
  have hc' : c'.Recording := hr
  have hend : (endRun call l).Tells c' (.ok ()) _ _ := endRun_tells hc' hp hrun
  have hclose : (ensuring (endRun call l) (setStage k .ended)).Tells c' (.ok ()) d
      (d.fanOut (.program l.program)) :=
    hend.ensuring_silent fun e he => (setStage_tells k .ended e).noted (he.setStage k .ended)
  refine ⟨d, sameAudience_modify c l.program fun _ => rfl,
    Tells.of_on _ c' ?_ rfl (hclose.map fun _ => Answer.cancelled)⟩
  rw [cancel, on_get_bind, hl]
  simp only [hstage]
  rfl

/-- To cancel any other loop tells of nothing. -/
theorem cancel_silent {k : Nat} (h : ∀ l p, c.loops[k]? = some l → l.stage = .suspended →
    c.programs[l.program]? = some p → p.run ≠ l.run) :
    ((cancel call k).on c).2.events = c.events ∧ c.SameAudience ((cancel call k).on c).2 := by
  refine on_cancel (P := fun d => d.events = c.events ∧ c.SameAudience d) ⟨rfl, fun _ => rfl⟩
    (fun _ _ _ => ⟨rfl, fun _ => rfl⟩) fun l hl hstage => ?_
  rw [endRun, on_program_bind]
  split
  · rename_i p hp
    rw [if_neg (h l p hl hstage hp)]
    exact ⟨rfl, fun _ => rfl⟩
  · exact ⟨rfl, fun _ => rfl⟩

end Accumulator.Routine
