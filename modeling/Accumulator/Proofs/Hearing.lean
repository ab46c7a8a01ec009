import Accumulator.Proofs.Announcing

/-! What subscribers that only take note hear in the course of any calls. The changes that a call
makes follow from its outcome and from the computer before and after it, and each change is heard
once for every registration; beside that a subscriber hears of a source when it is registered with
it, and of nothing else. -/

namespace Accumulator

/-- The sources that a call changes in one go, if it is not refused, in the order in which they tell
of it. -/
def Command.sources (c : Computer) : Command → List Source
  | .write _ _ => [.machine, .memory]
  | .decode _ => [.machine]
  | .execute => c.machine.pendingSources c.table
  | .operate circuit => circuit.sources
  | .dispatch op => (c.table.lookup op).elim [] Operation.sources
  | .append index _ _ | .insert index _ _ _ | .play index _ => [.program index]
  | .stop index => if c.programs[index]?.any Program.playing then [.program index] else []
  | .step index =>
    match c.programs[index]? with
    | none => []
    | some p =>
      if p.isComplete then []
      else (p.progress c.machine).sources c.table ++ [.program index]
  | _ => []

/-- A call that makes its change in one go: it is no run, resumes no loop and registers nobody. -/
def Command.IsOne : Command → Prop
  | .run _ | .tick _ | .cancel _ | .observe _ _ | .unobserve _ _ => False
  | _ => True

namespace Computer

/-- A call that is not refused changes its sources, and one that is refused changes none. -/
def changesAtOnce (c : Computer) (command : Command) : List (Computer × Source) :=
  match c.perform command with
  | (.ok _, d) => (command.sources c).map fun source => (d, source)
  | (.error _, _) => []

/-- The changes of a run: those of its steps up to the first that is refused or finds nothing
left. -/
def runChanges (index : Nat) : Nat → Computer → List (Computer × Source)
  | 0, _ => []
  | limit + 1, c =>
    c.changesAtOnce (.step index) ++
      match c.perform (.step index) with
      | (.ok (.flag true), d) => runChanges index limit d
      | _ => []

/-- The program that a loop plays: the loop sleeps or has not taken a step, and its run is the
current one. -/
def playedBy? (c : Computer) (k : Nat) : Option Nat :=
  match c.loops[k]? with
  | none => none
  | some l =>
    if (l.stage = .fresh ∨ l.stage = .suspended) ∧
        c.programs[l.program]?.any (fun p => p.run = l.run) = true then some l.program
    else none

/-- The changes that a call makes, in their order: the computer right after each of them, and the
source that has changed. A loop that is resumed makes those of a step, and a loop that has taken a
step or takes one changes its program when it ends while its run is current. -/
def changes (c : Computer) : Command → List (Computer × Source)
  | .run index => (c.programs[index]?.map fun p =>
      runChanges index (Routine.runLimit c p) c).getD []
  | .tick k =>
    match c.playedBy? k with
    | none => []
    | some index =>
      let d := (c.perform (.tick k)).2
      c.changesAtOnce (.step index) ++
        if d.stage? k = some .ended then [(d, .program index)] else []
  | .cancel k =>
    match c.playedBy? k with
    | none => []
    | some index =>
      if c.stage? k = some .suspended then [((c.perform (.cancel k)).2, .program index)] else []
  | command => c.changesAtOnce command

/-- What is told in the course of a call: of each change, to everyone who is registered with the
source; and of a source, to the subscriber who is registered with it. -/
def told (c : Computer) : Command → List Event
  | .observe source k =>
    (c.shown? source).toList.map fun notice => ⟨k, source, notice, c.machine⟩
  | command => (c.changes command).flatMap fun x => x.1.fanOut x.2

/-- From `c` to `d` the events are told, and nobody is registered or removed. -/
structure Hears (c d : Computer) (es : List Event) : Prop where
  events : d.events = es.reverse ++ c.events
  audience : c.SameAudience d

end Computer

namespace Routine

open Computer

variable {α β : Type} {call : Caller} {c : Computer} {w n : Nat} {t : Dispatch}

/-- A routine that changes sources in one go, if it is not refused. -/
def Announces (routine : Routine α) (c : Computer) (sources : List Source) : Prop :=
  ∃ outcome d, c.SameAudience d ∧ routine.Tells c outcome d
    (match outcome with
    | .ok _ => sources.flatMap d.fanOut
    | .error _ => [])

namespace Announces

variable {routine : Routine α} {sources : List Source}

theorem tells {a : α} {d : Computer} (h : routine.Tells c (.ok a) d (sources.flatMap d.fanOut))
    (hd : c.SameAudience d) : routine.Announces c sources :=
  ⟨.ok a, d, hd, h⟩

theorem refused {fault : Fault} (h : routine.on c = (.error fault, c)) :
    routine.Announces c sources :=
  ⟨.error fault, c, fun _ => rfl, Tells.of_eq h rfl⟩

theorem silent (outcome : Except Fault α) (h : routine.on c = (outcome, c)) :
    routine.Announces c [] := by
  refine ⟨outcome, c, fun _ => rfl, ?_⟩
  cases outcome <;> exact Tells.of_eq h rfl

theorem map (f : α → β) (h : routine.Announces c sources) :
    (routine >>= fun a => pure (f a)).Announces c sources := by
  obtain ⟨outcome, d, hd, htells⟩ := h
  refine ⟨outcome.map f, d, hd, ?_⟩
  cases outcome <;> exact htells.map f

end Announces

theorem write_announces (hc : c.Attended w n t) (value address : Value) :
    (write call value address).Announces c [.machine, .memory] := by
  cases h : c.machine.memory.write value address with
  | error fault => exact .refused (write_refused h)
  | ok memory => exact .tells (write_tells hc h) fun _ => rfl

theorem operate_announces (hc : c.Attended w n t) (circuit : Operation) :
    (operate call circuit).Announces c circuit.sources :=
  .tells (operate_tells hc circuit) fun _ => rfl

theorem dispatch_announces (hc : c.Attended w n t) (op : Operation) :
    (dispatch call op).Announces c ((c.table.lookup op).elim [] Operation.sources) := by
  cases h : c.table.lookup op with
  | none => exact .refused (dispatch_refused h)
  | some circuit => exact .tells (dispatch_tells hc (hc.sound.table ▸ h)) fun _ => rfl

theorem decode_announces (hr : c.Recording) (v : Value) :
    (decode call v).Announces c [.machine] := by
  cases h : checkInstruction c v with
  | error fault => exact .refused (decode_rejected h)
  | ok i =>
    obtain ⟨rfl, hi⟩ := checkInstruction_eq_ok.mp h
    have htells : (decode call (.instruction i)).Tells c (.ok ()) _ _ := decode_tells hr hi
    rw [← List.flatMap_singleton (fanOut _)] at htells
    exact .tells htells fun _ => rfl

theorem execute_announces (hc : c.Attended w n t) :
    (execute call).Announces c (c.machine.pendingSources c.table) := by
  cases h : c.machine.isDecoded with
  | false => exact .refused (execute_refused h)
  | true =>
    rw [hc.sound.table]
    exact .tells (execute_tells hc h) fun _ => rfl

variable {index : Nat}

theorem program_missing {next : Program → Routine α} (hp : c.programs[index]? = none) :
    (program index >>= next).on c = (.error (.noProgram index), c) := by
  rw [on_program_bind, hp]

theorem insert_announces (hr : c.Recording) (name args position : Value) :
    (insert call index name args position).Announces c [.program index] := by
  cases hp : c.programs[index]? with
  | none => exact .refused (program_missing hp)
  | some p =>
    cases h : insertion c p name args position with
    | error fault => exact .refused (insert_refused hp h)
    | ok inserted =>
      have htells : (insert call index name args position).Tells c _ _ _ := insert_tells hr hp h
      rw [← List.flatMap_singleton (fanOut _)] at htells
      exact .tells htells (sameAudience_modify c index fun _ => rfl)

theorem append_announces (hr : c.Recording) (name args : Value) :
    (append call index name args).Announces c [.program index] := by
  cases hp : c.programs[index]? with
  | none => exact .refused (program_missing hp)
  | some p =>
    have hon : (append call index name args).on c =
        (insert call index name args (.int p.length)).on c := by
      rw [append, on_program_bind, hp]
    obtain ⟨outcome, d, hd, htells⟩ :
        (insert call index name args (.int p.length)).Announces c [.program index] :=
      insert_announces hr name args _
    exact ⟨outcome, d, hd, Tells.of_on _ c hon rfl htells⟩

theorem play_announces (hr : c.Recording) (delay : Value) :
    (play call index delay).Announces c [.program index] := by
  cases hp : c.programs[index]? with
  | none => exact .refused (program_missing hp)
  | some p =>
    cases hcomplete : p.isComplete with
    | true => exact .refused (play_complete hp hcomplete delay)
    | false =>
      cases hplaying : p.playing with
      | true => exact .refused (play_again hp hcomplete hplaying delay)
      | false =>
        have htells : (play call index delay).Tells c _ _ _ :=
          play_tells hr hp hcomplete hplaying delay
        rw [← List.flatMap_singleton (fanOut _)] at htells
        exact .tells htells (sameAudience_modify c index fun _ => rfl)

theorem stop_announces (hr : c.Recording) : (stop call index).Announces c
    (if c.programs[index]?.any Program.playing then [.program index] else []) := by
  cases hp : c.programs[index]? with
  | none => exact .refused (program_missing hp)
  | some p =>
    cases hplaying : p.playing with
    | true =>
      have htells : (stop call index).Tells c _ _ _ := stop_tells hr hp hplaying
      rw [← List.flatMap_singleton (fanOut _)] at htells
      simp only [Option.any_some, hplaying, if_true]
      exact .tells htells (sameAudience_modify c index fun _ => rfl)
    | false =>
      simp only [Option.any_some, hplaying, Bool.false_eq_true, if_false]
      refine .silent (.ok ()) ?_
      rw [stop, on_program_bind, hp]
      simp [hplaying]

theorem step_announces (hc : c.Attended w n t) (hrest : c.AtRest) :
    (step call index).Announces c (Command.sources c (.step index)) := by
  cases hp : c.programs[index]? with
  | none => exact .refused (program_missing hp)
  | some p =>
    have hstepping := hrest.steps p (List.mem_of_getElem? hp)
    simp only [Command.sources, hp]
    by_cases hcomplete : p.isComplete = true
    · have hi : p.current? = none := List.getElem?_eq_none (of_decide_eq_true hcomplete)
      rw [if_pos hcomplete]
      exact .silent (.ok false) (step_complete hp hstepping hi)
    · have hlt : p.counter < p.instructions.length :=
        Nat.lt_of_not_le fun hle => hcomplete (decide_eq_true hle)
      have hi : p.current? = some p.instructions[p.counter] := List.getElem?_eq_getElem hlt
      rw [if_neg hcomplete, hc.sound.table]
      by_cases hready : (p.progress c.machine).Ready t p.instructions[p.counter]
      · exact .tells (step_tells hc hp hstepping hi hready) (sameAudience_put hp _)
      · obtain ⟨fault, hon⟩ : ∃ fault, (step call index).on c = _ :=
          step_refused hc.sound.table hp hstepping hi hready
        exact ⟨.error fault, _, sameAudience_put hp _, Tells.of_eq hon rfl⟩

/-- A call that is over in one go announces the sources that it changes. -/
theorem perform_announces (hc : c.Attended w n t) (hrest : c.AtRest) {command : Command}
    (h : command.IsOne) : (perform call command).Announces c (command.sources c) := by
  have hr := hc.recording
  cases command with
  | step index => exact (step_announces hc hrest).map _
  | append index name args => exact (append_announces hr name args).map _
  | insert index name args position => exact (insert_announces hr name args position).map _
  | play index delay => exact (play_announces hr delay).map _
  | stop index => exact (stop_announces hr).map _
  | decode instruction => exact (decode_announces hr instruction).map _
  | execute => exact (execute_announces hc).map _
  | operate circuit => exact (operate_announces hc circuit).map _
  | dispatch op => exact (dispatch_announces hc op).map _
  | write value address => exact (write_announces hc value address).map _
  | read address =>
    exact .map _ (.silent _ ((on_get_bind _ c).trans (on_conclude c _)))
  | validate address =>
    exact .map _ (.silent _ ((on_get_bind _ c).trans (on_conclude c _)))
  | observeValue source value => exact .refused (on_throw c (.notCallable value))
  | _ => exact h.elim

end Routine

namespace Computer

variable {w n : Nat} {t : Dispatch} {c d e : Computer} {index : Nat}

theorem Hears.refl (c : Computer) : c.Hears c [] := ⟨rfl, fun _ => rfl⟩

theorem Hears.trans {es fs : List Event} (h : c.Hears d es) (h' : d.Hears e fs) :
    c.Hears e (es ++ fs) :=
  ⟨by rw [h'.events, h.events, List.reverse_append, List.append_assoc],
    h.audience.trans h'.audience⟩

theorem Hears.of_tells {routine : Routine Answer} {outcome : Except Fault Answer} {es : List Event}
    (h : routine.Tells c outcome d es) (hd : c.SameAudience d) : c.Hears (routine.on c).2 es :=
  ⟨h.events, hd.trans h.state.sameAudience⟩

theorem hears_atOnce (hc : c.Attended w n t) (hrest : c.AtRest) {command : Command}
    (h : command.IsOne) : c.Hears (c.perform command).2
      ((c.changesAtOnce command).flatMap fun x => x.1.fanOut x.2) := by
  obtain ⟨outcome, d, hd, htells⟩ :
      (Routine.perform (Routine.performWithin c.bound) command).Announces c (command.sources c) :=
    Routine.perform_announces hc hrest h
  have hhears := Hears.of_tells htells hd
  have hon : c.perform command = (outcome, (c.perform command).2) :=
    Prod.ext htells.outcome rfl
  have hfan : (c.perform command).2.fanOut = d.fanOut := funext htells.state.fanOut
  rw [changesAtOnce, hon]
  cases outcome with
  | error fault => exact hhears
  | ok answer =>
    simp only [List.flatMap_map]
    rw [hfan]
    exact hhears

/-- Between calls subscribers may be told: the computer is attended and at rest. -/
structure Calm (w n : Nat) (t : Dispatch) (c : Computer) : Prop where
  attended : c.Attended w n t
  rest : c.AtRest
  dated : c.Dated

theorem Reachable.calm (hn : 0 < n) (h : c.Reachable w n t Conduct.Records) : c.Calm w n t :=
  ⟨h.attended hn, h.atRest hn, h.dated hn⟩

theorem Calm.perform (h : c.Calm w n t) (command : Command) : (c.perform command).2.Calm w n t := by
  have hw := h.attended.sound.watched
  exact ⟨⟨h.attended.sound.perform command,
    (registered_invariant.perform ⟨hw, h.attended.registered⟩ command).2⟩,
    h.rest.perform hw command, (dated_invariant.perform ⟨hw, h.dated⟩ command).2⟩

/-- A run tells of its steps, one after the other. -/
theorem hears_steps (hc : c.Calm w n t) (index limit : Nat) :
    c.Hears ((Routine.steps (Routine.performWithin c.bound) index limit).on c).2
      ((runChanges index limit c).flatMap fun x => x.1.fanOut x.2) := by
  induction limit generalizing c with
  | zero => exact ⟨rfl, fun _ => rfl⟩
  | succ limit ih =>
    have hstep : c.Hears (c.perform (.step index)).2
        ((c.changesAtOnce (.step index)).flatMap fun x => x.1.fanOut x.2) :=
      hears_atOnce hc.attended hc.rest trivial
    have hcalm := hc.perform (.step index)
    have hbound := hc.attended.sound.perform_bound (.step index)
    rw [runChanges, List.flatMap_append]
    rw [perform_step] at hstep hcalm hbound ⊢
    rw [Routine.steps, Routine.on_bind]
    rcases hout : (Routine.step (Routine.performWithin c.bound) index).on c with ⟨fault | b, d⟩ <;>
      rw [hout] at hstep hcalm hbound
    · exact hstep.trans (.refl d)
    · cases b with
      | false => exact hstep.trans (.refl d)
      | true =>
        have hrest := ih hcalm
        rw [hbound] at hrest
        exact hstep.trans hrest

theorem hears_run (hc : c.Calm w n t) (index : Nat) : c.Hears (c.perform (.run index)).2
    ((c.changes (.run index)).flatMap fun x => x.1.fanOut x.2) := by
  have hon : (c.perform (.run index)).2 =
      ((Routine.run (Routine.performWithin c.bound) index).on c).2 :=
    congrArg Prod.snd (Routine.on_bind_pure Answer.number _ c)
  rw [hon, Routine.run, Routine.on_program_bind, changes]
  cases hp : c.programs[index]? with
  | none => exact .refl c
  | some p =>
    have hsteps := hears_steps hc index (Routine.runLimit c p)
    simp only [Option.map_some, Option.getD_some]
    rw [Routine.on_get_bind, Routine.on_bind]
    rcases hout : (Routine.steps (Routine.performWithin c.bound) index
      (Routine.runLimit c p)).on c with ⟨_ | _, d⟩ <;> rw [hout] at hsteps
    · exact hsteps
    · have hkeeps : Routine.Keeps (fun e => c.Hears e
          ((runChanges index (Routine.runLimit c p) c).flatMap fun x => x.1.fanOut x.2))
          (do return (← Routine.program index).trace.length) :=
        Routine.Keeps.program_bind fun _ _ h _ => h
      exact hkeeps d hsteps

theorem playedBy?_eq_some {k : Nat} (h : c.playedBy? k = some index) : ∃ l p,
    c.loops[k]? = some l ∧ (l.stage = .fresh ∨ l.stage = .suspended) ∧
      c.programs[l.program]? = some p ∧ p.run = l.run ∧ l.program = index := by
  unfold playedBy? at h
  split at h
  · cases h
  · rename_i l hl
    split at h
    · rename_i hcurrent
      obtain ⟨hstage, hany⟩ := hcurrent
      obtain ⟨p, hp, hrun⟩ := (Option.any_eq_true _ _).mp hany
      exact ⟨l, p, hl, hstage, hp, of_decide_eq_true hrun, Option.some.inj h⟩
    · cases h

theorem playedBy?_eq_none {k : Nat} (h : c.playedBy? k = none) {l : PlayLoop} {p : Program}
    (hl : c.loops[k]? = some l) (hstage : l.stage = .fresh ∨ l.stage = .suspended)
    (hp : c.programs[l.program]? = some p) : p.run ≠ l.run := by
  intro hrun
  simp [playedBy?, hl, hstage, hp, hrun] at h

/-- What a step tells, in terms of where it arrives. -/
theorem fanOut_step (hc : c.Calm w n t) {p : Program} (hp : c.programs[index]? = some p) :
    ((c.changesAtOnce (.step index)).flatMap fun x => x.1.fanOut x.2) =
      ((p.progress c.machine).stepSources t index).flatMap
        (c.put index p ((p.progress c.machine).next t)).fanOut := by
  have hhears : c.Hears (c.perform (.step index)).2 _ := hears_atOnce hc.attended hc.rest trivial
  obtain ⟨outcome, htells⟩ : ∃ outcome,
      (Routine.step (Routine.performWithin c.bound) index).Tells c outcome _ _ :=
    Routine.step_tells_any hc.attended hp (hc.rest.steps p (List.mem_of_getElem? hp))
  have hevents := hhears.events
  rw [perform_step, htells.events] at hevents
  exact (List.reverse_inj.mp (List.append_cancel_right hevents)).symm

theorem hears_tick (hc : c.Calm w n t) (k : Nat) : c.Hears (c.perform (.tick k)).2
    ((c.changes (.tick k)).flatMap fun x => x.1.fanOut x.2) := by
  rw [changes]
  cases hplayed : c.playedBy? k with
  | none =>
    obtain ⟨hevents, haudience⟩ : (c.perform (.tick k)).2.events = c.events ∧ _ :=
      Routine.tick_silent fun l hl hstage => by
        obtain ⟨p, hp, -⟩ := hc.dated k l hl
        exact ⟨p, hp, playedBy?_eq_none hplayed hl hstage hp⟩
    exact ⟨hevents, haudience⟩
  | some index =>
    obtain ⟨l, p, hl, hstage, hp, hrun, rfl⟩ := playedBy?_eq_some hplayed
    have hstepping := hc.rest.steps p (List.mem_of_getElem? hp)
    have hc' : (c.resuming k).Attended w n t :=
      ⟨Sound.invariant.keeps_setStage k .running _ (Sound.invariant.keeps_setAwaited true c
        hc.attended.sound), hc.attended.registered⟩
    let e := (c.resuming k).put l.program p ((p.progress c.machine).next t)
    obtain ⟨outcome, hstep⟩ : ∃ outcome,
        (Routine.step (Routine.performWithin c.bound) l.program).Tells (c.resuming k) outcome e
          (((p.progress c.machine).stepSources t l.program).flatMap e.fanOut) :=
      Routine.step_tells_any hc' hp hstepping
    -- What the step of the loop tells is told of as of a step by itself.
    have htold : ((p.progress c.machine).stepSources t l.program).flatMap e.fanOut =
        (c.changesAtOnce (.step l.program)).flatMap fun x => x.1.fanOut x.2 :=
      (fanOut_step hc hp).symm
    let left := outcome.map fun _ =>
      if ((p.progress c.machine).next t).current?.isSome then some l.delay else none
    have htells := Routine.tick_tells hc.attended.recording hl hstage hp hstepping hrun hstep
    have hleft : (c.perform (.tick k)).2.stage? k = (e.leftOff k l left).stage? k :=
      htells.state.stage? k
    have hfan : (c.perform (.tick k)).2.fanOut = (e.leftOff k l left).fanOut :=
      funext htells.state.fanOut
    have hput : c.SameAudience e := sameAudience_put (c := c.resuming k) hp _
    have hhears : c.Hears (c.perform (.tick k)).2 _ :=
      Hears.of_tells htells (hput.trans (sameAudience_leftOff e k l left))
    have hrunning : e.stage? k = some .running :=
      stage?_setStage (c := { c with awaited := true }) (by rw [stage?, hl]; rfl) .running
    rw [htold, leavingSources_eq hrunning, ← hleft, ← hfan] at hhears
    simp only [List.flatMap_append]
    split
    · rename_i hended
      rwa [if_pos hended] at hhears
    · rename_i hended
      rwa [if_neg hended] at hhears

theorem hears_cancel (hc : c.Calm w n t) (k : Nat) : c.Hears (c.perform (.cancel k)).2
    ((c.changes (.cancel k)).flatMap fun x => x.1.fanOut x.2) := by
  have hsilent (h : ∀ l p, c.loops[k]? = some l → l.stage = .suspended →
      c.programs[l.program]? = some p → p.run ≠ l.run) : c.Hears (c.perform (.cancel k)).2 [] := by
    obtain ⟨hevents, haudience⟩ : (c.perform (.cancel k)).2.events = c.events ∧ _ :=
      Routine.cancel_silent h
    exact ⟨hevents, haudience⟩
  rw [changes]
  cases hplayed : c.playedBy? k with
  | none =>
    exact hsilent fun l p hl hstage hp => playedBy?_eq_none hplayed hl (.inr hstage) hp
  | some index =>
    obtain ⟨l, p, hl, -, hp, hrun, rfl⟩ := playedBy?_eq_some hplayed
    have hstage? : c.stage? k = some l.stage := by rw [stage?, hl]; rfl
    simp only [hstage?, Option.some.injEq]
    by_cases hstage : l.stage = .suspended
    · obtain ⟨d, hd, htells⟩ : ∃ d, c.SameAudience d ∧
          (Routine.cancel (Routine.performWithin c.bound) k).Tells c (.ok .cancelled) d _ :=
        Routine.cancel_tells hc.attended.recording hl hstage hp hrun
      have hhears := Hears.of_tells htells hd
      have hnoted : d.Noted (c.perform (.cancel k)).2 := htells.state
      rw [← hnoted.fanOut] at hhears
      rw [if_pos hstage, List.flatMap_singleton]
      exact hhears
    · rw [if_neg hstage]
      refine hsilent fun m q hm hsleeps => absurd ?_ hstage
      rwa [Option.some.inj (hl.symm.trans hm)]

/-- Every call but that of registering or removing a subscriber is heard as its changes are. -/
theorem hears_perform (hc : c.Calm w n t) {command : Command}
    (h : ∀ source k, command ≠ .observe source k ∧ command ≠ .unobserve source k) :
    c.Hears (c.perform command).2 (c.told command) := by
  cases command with
  | observe source k => exact absurd rfl (h source k).1
  | unobserve source k => exact absurd rfl (h source k).2
  | run index => exact hears_run hc index
  | tick k => exact hears_tick hc k
  | cancel k => exact hears_cancel hc k
  | _ => exact hears_atOnce hc.attended hc.rest trivial

/-- Who is registered with a source after a call: whoever registers comes last, and whoever is
removed is removed from every place. -/
def enrolled (c : Computer) (source : Source) : Command → List Nat
  | .observe s k =>
    if s = source ∧ (c.shown? s).isSome then c.audience source ++ [k] else c.audience source
  | .unobserve s k =>
    if s = source then (c.audience source).filter (· ≠ k) else c.audience source
  | _ => c.audience source

theorem audience_register {source : Source} (hs : (c.shown? source).isSome = true) (k : Nat)
    (other : Source) : (c.register source k).audience other =
      if source = other then c.audience other ++ [k] else c.audience other := by
  cases source with
  | memory =>
    cases other with
    | memory => simp [register, audience, Watcher.subscriber?]
    | _ => rfl
  | machine =>
    cases other with
    | machine => simp [register, audience]
    | _ => rfl
  | program index =>
    cases other with
    | program j =>
      simp only [register, audience, List.getElem?_modify, Source.program.injEq]
      by_cases hj : index = j
      · subst hj
        obtain ⟨p, hp⟩ : ∃ p, c.programs[index]? = some p := by
          simpa [shown?, Option.isSome_iff_exists] using hs
        simp [hp]
      · simp [hj]
    | _ => rfl

theorem subscribers_filter (watchers : List Watcher) (k : Nat) :
    (watchers.filter (· ≠ .subscriber k)).filterMap Watcher.subscriber? =
      (watchers.filterMap Watcher.subscriber?).filter (· ≠ k) := by
  rw [List.filterMap_filter, List.filter_filterMap]
  congr 1
  funext watcher
  cases watcher with
  | dataRegister => rfl
  | subscriber j => by_cases hj : j = k <;> simp [Watcher.subscriber?, Option.filter, hj]

theorem audience_unobserve (c : Computer) (source other : Source) (k : Nat) :
    ((Routine.unobserve source k).on c).2.audience other =
      if source = other then (c.audience other).filter (· ≠ k) else c.audience other := by
  cases source with
  | memory =>
    cases other with
    | memory => exact subscribers_filter c.memoryWatchers k
    | _ => rfl
  | machine =>
    cases other with
    | machine => rfl
    | _ => rfl
  | program index =>
    rw [Routine.unobserve, Routine.on_program_bind]
    cases hp : c.programs[index]? with
    | none =>
      simp only
      split
      · rename_i hother
        subst hother
        simp [audience, hp]
      · rfl
    | some p =>
      cases other with
      | program j =>
        show ((c.programs.modify index _)[j]?.map Program.watchers).getD [] = _
        simp only [audience, List.getElem?_modify, Source.program.injEq]
        by_cases hj : index = j
        · subst hj
          simp [hp]
        · simp [hj]
      | _ => rfl

theorem observe_missing {source : Source} (hs : c.shown? source = none) (call : Caller) (k : Nat) :
    ((Routine.observe call source k).on c).2 = c := by
  cases source with
  | program index =>
    rw [Routine.observe, Routine.on_program_bind, Option.map_eq_none_iff.mp hs]
  | _ => cases hs

theorem perform_observe_snd (c : Computer) (source : Source) (k : Nat) :
    (c.perform (.observe source k)).2 =
      ((Routine.observe (Routine.performWithin c.bound) source k).on c).2 :=
  congrArg Prod.snd (Routine.on_bind_pure (fun _ => Answer.nothing) _ c)

theorem perform_observe (hc : c.Calm w n t) (source : Source) (k : Nat) :
    (c.perform (.observe source k)).2.events =
        (c.told (.observe source k)).reverse ++ c.events ∧
      ∀ other, (c.perform (.observe source k)).2.audience other =
        c.enrolled other (.observe source k) := by
  rw [perform_observe_snd, told]
  cases hs : c.shown? source with
  | none =>
    rw [observe_missing hs]
    exact ⟨rfl, fun other => by simp [enrolled, hs]⟩
  | some notice =>
    have htells : (Routine.observe (Routine.performWithin c.bound) source k).Tells c (.ok ()) _ _ :=
      Routine.observe_tells hc.attended.recording hs k
    refine ⟨htells.events, fun other => ?_⟩
    rw [htells.state.sameAudience other, audience_register (by rw [hs]; rfl)]
    simp only [enrolled, hs, Option.isSome_some, and_true]

/-- What a call tells, and who is registered after it. -/
theorem perform_told (hc : c.Calm w n t) (command : Command) :
    (c.perform command).2.events = (c.told command).reverse ++ c.events ∧
      ∀ source, (c.perform command).2.audience source = c.enrolled source command := by
  have hother (h : ∀ source k, command ≠ .observe source k ∧ command ≠ .unobserve source k) :
      (c.perform command).2.events = (c.told command).reverse ++ c.events ∧
        ∀ source, (c.perform command).2.audience source = c.audience source :=
    ⟨(hears_perform hc h).events, (hears_perform hc h).audience⟩
  cases command with
  | observe source k => exact perform_observe hc source k
  | unobserve source k =>
    have hon : (c.perform (.unobserve source k)).2 = ((Routine.unobserve source k).on c).2 :=
      congrArg Prod.snd (Routine.on_bind_pure (fun _ => Answer.nothing) _ c)
    have htold : c.told (.unobserve source k) = [] := by
      show (c.changesAtOnce (.unobserve source k)).flatMap _ = []
      rw [changesAtOnce]
      split <;> rfl
    rw [hon, htold]
    refine ⟨?_, fun other => audience_unobserve c source other k⟩
    cases source with
    | program index =>
      have hkeeps : Routine.Keeps (fun d => d.events = c.events)
          (Routine.unobserve (.program index) k) :=
        Routine.Keeps.program_bind fun _ _ h _ => h
      exact hkeeps c rfl
    | _ => rfl
  | _ => exact hother fun _ _ => ⟨nofun, nofun⟩

/-- What comes of calls, one after the other. -/
def along {α : Type} (f : Computer → Command → List α) (c : Computer) : List Command → List α
  | [] => []
  | command :: commands => f c command ++ along f (c.perform command).2 commands

/-- The notices of a source to a subscriber, among events in their order. -/
def noticesTo (k : Nat) (source : Source) (es : List Event) : List Notice :=
  (es.filter fun e => e.subscriber = k ∧ e.source = source).map Event.notice

/-- What a subscriber has been shown of a source, in order. -/
def received (c : Computer) (k : Nat) (source : Source) : List Notice :=
  noticesTo k source c.events.reverse

/-- What a source shows a subscriber of itself: its state, once for each registration. -/
def shows (c : Computer) (k : Nat) (source : Source) : List Notice :=
  (c.shown? source).toList.flatMap (List.replicate ((c.audience source).count k))

/-- What a subscriber is to be shown of a source in the course of a call: its state when it is
registered with it, and its state after each change. -/
def due (k : Nat) (source : Source) (c : Computer) : Command → List Notice
  | .observe s j => if j = k ∧ s = source then (c.shown? s).toList else []
  | command => (c.changes command).flatMap fun x => if x.2 = source then x.1.shows k source else []

theorem noticesTo_append (k : Nat) (source : Source) (es fs : List Event) :
    noticesTo k source (es ++ fs) = noticesTo k source es ++ noticesTo k source fs := by
  rw [noticesTo, List.filter_append, List.map_append]
  rfl

theorem noticesTo_flatMap {α : Type} (k : Nat) (source : Source) (f : α → List Event)
    (items : List α) :
    noticesTo k source (items.flatMap f) = items.flatMap fun x => noticesTo k source (f x) := by
  rw [noticesTo, List.filter_flatMap, List.map_flatMap]
  rfl

theorem noticesTo_fanOut (c : Computer) (k : Nat) (source other : Source) :
    noticesTo k source (c.fanOut other) = if other = source then c.shows k source else [] := by
  cases hs : c.shown? other with
  | none =>
    split
    · rename_i h
      simp [← h, fanOut, hs, shows, noticesTo]
    · simp [fanOut, hs, noticesTo]
  | some notice =>
    simp only [fanOut, hs, noticesTo, List.filter_map, List.map_map]
    split
    · rename_i h
      subst h
      have hcount : ((c.audience other).filter fun j => decide (j = k)).length =
          (c.audience other).count k := List.countP_eq_length_filter.symm
      simp [Function.comp_def, shows, hs, List.map_const', ← hcount]
    · rename_i h
      simp [Function.comp_def, h]

theorem noticesTo_told (k : Nat) (source : Source) (c : Computer) (command : Command) :
    noticesTo k source (c.told command) = c.due k source command := by
  have hother : noticesTo k source ((c.changes command).flatMap fun x => x.1.fanOut x.2) =
      (c.changes command).flatMap fun x => if x.2 = source then x.1.shows k source else [] := by
    rw [noticesTo_flatMap]
    simp only [noticesTo_fanOut]
  cases command with
  | observe s j =>
    rw [told, due]
    cases c.shown? s with
    | none => simp [noticesTo]
    | some notice => by_cases h : j = k ∧ s = source <;> simp [noticesTo, h]
  | _ => exact hother

theorem noticesTo_along (k : Nat) (source : Source) (c : Computer) (commands : List Command) :
    noticesTo k source (c.along told commands) = c.along (due k source) commands := by
  induction commands generalizing c with
  | nil => rfl
  | cons command commands ih => rw [along, noticesTo_append, noticesTo_told, ih, along]

theorem events_along (hc : c.Calm w n t) (commands : List Command) :
    (c.performAll commands).events = (c.along told commands).reverse ++ c.events := by
  induction commands generalizing c with
  | nil => rfl
  | cons command commands ih =>
    rw [along, List.reverse_append, List.append_assoc, ← (perform_told hc command).1]
    exact ih (hc.perform command)

/-- What subscribers that only take note are told of in the course of any calls: of each change,
right after it and in the order of the registrations, once for each of them. So a subscriber has
been shown a source when it was registered with it, and then after each change of it, as often as it
was registered at the time. -/
theorem heard_once_in_order (hn : 0 < n) (h : c.Reachable w n t Conduct.Records) :
    (∀ command source, (c.perform command).2.audience source = c.enrolled source command) ∧
    ∀ commands, (c.performAll commands).events = (c.along told commands).reverse ++ c.events ∧
      ∀ k source, (c.performAll commands).received k source =
        c.received k source ++ c.along (due k source) commands := by
  have hc := h.calm hn
  refine ⟨fun command => (perform_told hc command).2, fun commands => ?_⟩
  have hevents := events_along hc commands
  refine ⟨hevents, fun k source => ?_⟩
  rw [received, hevents, List.reverse_append, List.reverse_reverse, noticesTo_append,
    noticesTo_along]
  rfl

/-- A subscriber that is registered twice with the memory and once with the program is shown the
memory twice when the accumulator is stored, and not at all after it has been removed; the play loop
takes the first step, and ends when the program is stopped. -/
theorem heard_once_in_order_removed :
    let c := { idle (.zeros 4 2) .standard with subscribers := [Subscriber.recorder] }
    let p : Program :=
      { instructions := [⟨.not, none⟩, ⟨.store, some 1⟩], stepDelay := .none }
    let commands : List Command := [.observe .memory 0, .observe .memory 0,
      .observe (.program 0) 0, .play 0 .none, .tick 0, .stop 0, .stop 0, .tick 0, .run 0,
      .unobserve .memory 0, .write (.int 3) (.int 0), .write (.int 3) (.int 2), .step 0]
    let d := (c.addProgram p).performAll commands
    d.received 0 .memory =
        [.memory ⟨4, [0, 0]⟩, .memory ⟨4, [0, 0]⟩, .memory ⟨4, [0, 15]⟩, .memory ⟨4, [0, 15]⟩] ∧
      (d.received 0 (.program 0)).length = 7 := by
  intro c p commands d
  have hp : Program.ofEntries (.zeros 4 2)
      (.list [.instruction ⟨.not, none⟩, .instruction ⟨.store, some 1⟩]) .none =
      .ok { instructions := [⟨.not, none⟩, ⟨.store, some 1⟩], stepDelay := .none } := rfl
  have hc : c.Reachable 4 2 .standard Conduct.Records :=
    .idle _ 0 (List.forall_mem_singleton.mpr fun _ _ => rfl)
  have hheard := (heard_once_in_order (by decide) (hc.build _ _ hp)).2 commands
  refine ⟨(hheard.2 0 .memory).trans ?_, ?_⟩
  · decide +kernel
  · rw [hheard.2 0 (.program 0)]
    decide +kernel

end Computer

end Accumulator
