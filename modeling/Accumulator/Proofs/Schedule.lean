import Accumulator.Proofs.Driving
import Accumulator.Proofs.Expiry
import Mathlib

/-! The number of phases decides. While subscribers only take note, a program and its machine are
after any calls that drive the program where as many steps would have brought them as there were
phases, whoever went through them: a step, a run or any of the loops. -/

namespace Accumulator

namespace Progress

variable {w n : Nat} {t : Dispatch} {s : Progress} {i : Instruction}

/-- The machine is sound, and an instruction that the program has decoded is pending. -/
structure Held (w n : Nat) (t : Dispatch) (s : Progress) : Prop where
  machine : s.machine.Sound w n t
  pending : s.phase = .decoded → s.machine.isDecoded = true

/-- A step that has no phase to go through leaves everything as it is. -/
theorem Held.next_of_not_ready (h : s.Held w n t) (hi : s.current? = some i)
    (hready : ¬ s.Ready t i) : s.next t = s := by
  unfold Ready at hready
  split at hready
  · rename_i hphase
    rw [next_refused hi hphase hready, fetched,
      if_neg fun hholds => hready (h.machine.accepts hholds)]
  · rename_i hphase
    exact absurd (h.pending hphase) hready

theorem Held.next (h : s.Held w n t) : (s.next t).Held w n t := by
  cases hi : s.current? with
  | none => rwa [next_complete hi]
  | some i =>
    by_cases hready : s.Ready t i
    · cases hphase : s.phase with
      | fetch =>
        have haccepts : s.machine.Accepts t i := by simpa [Ready, hphase] using hready
        rw [next_accepted hi hphase haccepts]
        exact ⟨h.machine.decoded haccepts, fun _ => rfl⟩
      | decoded =>
        rw [next_decoded hi hphase]
        exact ⟨h.machine.executed, fun hdecoded => nomatch hdecoded⟩
    · rwa [h.next_of_not_ready hi hready]

theorem Held.iterate (h : s.Held w n t) (k : Nat) : ((Progress.next t)^[k] s).Held w n t :=
  Function.Iterate.rec (Held w n t) h (fun _ h => h.next) k

theorem gone_next_of_ready (hi : s.current? = some i) (hready : s.Ready t i) :
    (s.next t).gone = s.gone + 1 := by
  refine gone_next hi fun hphase => ?_
  simpa [Ready, hphase] using hready

/-- No more phases are gone through than there are. -/
theorem gone_next_le (hi : s.current? = some i) (hready : s.Ready t i) :
    (s.next t).gone ≤ 2 * s.instructions.length := by
  have hlt := (List.getElem?_eq_some_iff.mp hi).1
  rw [gone_next_of_ready hi hready]
  unfold gone
  split <;> omega

end Progress

namespace Computer

variable {w n : Nat} {t : Dispatch} {index first k : Nat} {s : Progress} {c d : Computer}

/-- The subscribers take note, and the programs have gone through a number of phases. -/
structure Counted (k : Nat) (c : Computer) : Prop where
  watched : c.Watched
  recording : c.Recording
  phases : c.phases = k

theorem Counted.upheld : Upheld (fun _ => True) (fun _ => False) (Counted k) where
  watched h := h.watched
  conduct h s hs state notice _ := by
    rw [h.recording s hs state notice]
    trivial
  machine _ := trivial
  memory _ := trivial
  program _ _ := trivial
  change h hd hbeside :=
    ⟨hd.watched h.watched, hd.conduct h.recording, hbeside.phases.trans h.phases⟩

/-- The program is between steps and has come to `s`, and the programs have gone through `k`
phases. -/
structure Still (w n : Nat) (t : Dispatch) (index first : Nat) (s : Progress) (k : Nat)
    (c : Computer) : Prop where
  driven : c.Driven w n t index first (· = s)
  counted : c.Counted k

/-- The program is still at `s`, or it has gone through the next phase. -/
def Onward (w n : Nat) (t : Dispatch) (index first : Nat) (s : Progress) (k : Nat)
    (c : Computer) : Prop :=
  c.Still w n t index first s k ∨
    (∃ i, s.current? = some i ∧ s.Ready t i) ∧ c.Still w n t index first (s.next t) (k + 1)

/-- The program has gone on from `s`, and each phase has taken it to the next progress. -/
def Paced (w n : Nat) (t : Dispatch) (index first : Nat) (s : Progress) (k : Nat)
    (c : Computer) : Prop :=
  ∃ j, c.Still w n t index first ((Progress.next t)^[j] s) (k + j) ∧
    ((Progress.next t)^[j] s).gone = s.gone + j ∧
    ((Progress.next t)^[j] s).gone ≤ 2 * s.instructions.length

end Computer

namespace Routine

open Computer

variable {w n : Nat} {t : Dispatch} {index first k : Nat} {s : Progress} {c : Computer}
  {call : Caller}

theorem no_calls {P : Computer → Prop} (command : Command) (h : False) : Keeps P (call command) :=
  h.elim

theorem still_of {α : Type} {routine : Routine α}
    (hdriven : Keeps (Driven w n t index first (· = s)) routine)
    (hcounted : Keeps (Counted k) routine) :
    Keeps (Still w n t index first s k) routine :=
  fun c hc => ⟨hdriven c hc.driven, hcounted c hc.counted⟩

theorem counted_modifyProgram (index : Nat) (f : Program → Program) :
    Keeps (Counted k) (modifyProgram index f) := fun _ hc => ⟨hc.watched, hc.recording, hc.phases⟩

theorem counted_phase {c : Computer} (hc : c.Counted k) {record : Record}
    (h : record.isPhase = true) : Counted (k + 1) { c with journal := record :: c.journal } :=
  ⟨hc.watched, hc.recording, (List.countP_cons_of_pos h).trans (congrArg (· + 1) hc.phases)⟩

/-- What comes before the record of a phase is refused, or the phase is counted. -/
theorem counted_record {routine : Routine Unit} (hroutine : Keeps (Counted k) routine)
    (hc : c.Counted k) (index : Nat) (record : Program → Record)
    (hphase : ∀ p, (record p).isPhase = true) :
    ((routine >>= fun _ => program index >>= fun p => log (record p)).on c).2.Counted (k +
      ((routine >>= fun _ => program index >>= fun p => log (record p)).on c).1.isOk.toNat) := by
  have hafter := hroutine c hc
  rw [on_bind]
  rcases hout : routine.on c with ⟨_ | _, d⟩ <;> rw [hout] at hafter
  · exact hafter
  · simp only
    rw [on_program_bind]
    cases hp : d.programs[index]? with
    | none => exact hafter
    | some p => exact counted_phase hafter (hphase p)

theorem counted_doPhase (hc : c.Counted k) (index : Nat) (i : Instruction) (phase : Phase) :
    ((doPhase call index i phase).on c).2.Counted
      (k + ((doPhase call index i phase).on c).1.isOk.toNat) := by
  cases phase with
  | fetch =>
    have hdecode : Keeps (Counted k) (ensuring (decode call (.instruction i)) (get >>= fun c =>
        if c.machine.holds i then modifyProgram index fun p => { p with phase := .decoded }
        else pure ())) := by
      refine Keeps.ensuring (Counted.upheld.keeps_decode no_calls _)
        (Keeps.get_bind fun d hd => ?_)
      split
      · exact counted_modifyProgram index _ d hd
      · exact hd
    exact counted_record hdecode hc index (fun p => .stepDecoded p.counter i) fun _ => rfl
  | decoded =>
    have hexecute : Keeps (Counted k) (ensuring (execute call) (get >>= fun post =>
        if !post.machine.isDecoded then
          modifyProgram index (·.advance i c.machine post.machine)
        else pure ())) := by
      refine Keeps.ensuring (Counted.upheld.keeps_execute no_calls)
        (Keeps.get_bind fun d hd => ?_)
      split
      · exact counted_modifyProgram index _ d hd
      · exact hd
    exact counted_record hexecute hc index (fun p => .stepExecuted (p.counter - 1) i) fun _ => rfl

theorem counted_step (hc : c.Counted k) {p : Program} (hp : c.programs[index]? = some p)
    (hstepping : p.stepping = false) {i : Instruction} (hi : p.current? = some i) :
    ((step call index).on c).2.Counted (k + ((doPhase call index i p.phase).on { c with
      programs :=
        c.programs.modify index fun p => { p with stepping := true } }).1.isOk.toNat) := by
  rw [on_step hp hstepping hi, on_bind, on_ensuring]
  generalize hd : { c with
    programs := c.programs.modify index fun p => { p with stepping := true } } = d
  have hbegun : d.Counted k := hd ▸ counted_modifyProgram index _ c hc
  have hphase : ((doPhase call index i p.phase).on d).2.Counted _ :=
    counted_doPhase hbegun index i p.phase
  rcases hout : (doPhase call index i p.phase).on d with ⟨_ | _, e⟩ <;> rw [hout] at hphase
  · exact counted_modifyProgram index _ e hphase
  · exact Keeps.bind (Counted.upheld.keeps_notifyProgram no_calls index) (fun _ => Keeps.pure true)
      _ (counted_modifyProgram index _ e hphase)

theorem still_modifyProgram (hc : c.Still w n t index first s k) {j : Nat} {f : Program → Program}
    (hstepping : ∀ p, (f p).stepping = p.stepping)
    (hf : ∀ p m, (f p).progress m = p.progress m) :
    Still w n t index first s k { c with programs := c.programs.modify j f } :=
  ⟨hc.driven.modifyProgram j hstepping hf, counted_modifyProgram j f c hc.counted⟩

section
variable (hcall : ∀ command, Keeps (Computer.Sound w n t Conduct.Quiet) (call command))
include hcall

/-- A step goes through the next phase, or there is none that the machine accepts and nothing
changes. -/
theorem onward_step (h : c.Still w n t index first s k) (hheld : s.Held w n t) :
    ((step call index).on c).2.Onward w n t index first s k := by
  have hdriven := driven_step_next hcall h.driven
  obtain ⟨p, hp, hstepping, rfl⟩ := h.driven.program
  cases hi : p.current? with
  | none =>
    rw [step_complete hp hstepping hi]
    exact .inl h
  | some i =>
    have hcurrent : (p.progress c.machine).current? = some i := hi
    have hcounted : ((step call index).on c).2.Counted _ :=
      counted_step h.counted hp hstepping hi
    let d := { c with programs := c.programs.modify index fun p => { p with stepping := true } }
    have hq := modify_getElem? hp fun p => { p with stepping := true }
    let q : Program := { p with stepping := true }
    by_cases hready : (p.progress c.machine).Ready t i
    · have harrives : (doPhase call index i q.phase).Arrives d () _ :=
        doPhase_arrives (t := t) (c := d) h.driven.sound.conduct
          (h.driven.sound.withPrograms _) hq hi hready
      have hok : ((doPhase call index i p.phase).on d).1 = .ok () :=
        harrives.recorded h.counted.recording
      rw [hok] at hcounted
      exact .inr ⟨⟨i, hcurrent, hready⟩, hdriven, hcounted⟩
    · obtain ⟨fault, hrefused⟩ : ∃ fault, (doPhase call index i q.phase).on d = (.error fault, _) :=
        doPhase_refused (c := d) (p := q) h.driven.sound.table hq hi hready
      rw [hrefused] at hcounted
      rw [hheld.next_of_not_ready hcurrent hready] at hdriven
      exact .inl ⟨hdriven, hcounted⟩

theorem still_runs : KeepsRuns (Still w n t index first s k) call fun _ => False where
  step h := h.elim
  notify j := still_of (driven_notifyProgram hcall j)
    (Counted.upheld.keeps_notifyProgram no_calls j)
  halt hc _ _ := still_modifyProgram hc (fun _ => rfl) fun _ _ => rfl
  finish _ hc := still_modifyProgram hc (fun _ => rfl) fun _ _ => rfl
  setAwaited awaited := still_of (driven_setAwaited awaited)
    fun _ hc => ⟨hc.watched, hc.recording, hc.phases⟩
  log record hrecord := still_of (driven_log record) (Counted.upheld.keeps_log hrecord)

end

theorem still_setStage (j : Nat) (stage : Stage) :
    Keeps (Still w n t index first s k) (setStage j stage) :=
  still_of (driven_setStage j stage) fun _ hc => ⟨hc.watched, hc.recording, hc.phases⟩

theorem still_makeLoop (delay : Value) :
    Keeps (Still w n t index first s k) (makeLoop index delay) :=
  still_of (driven_makeLoop delay)
    (Keeps.program_bind fun _ _ hc _ => ⟨hc.watched, hc.recording, hc.phases⟩)

theorem onward_of {α : Type} {routine : Routine α}
    (h : ∀ s k, Keeps (Still w n t index first s k) routine) :
    Keeps (Onward w n t index first s k) routine :=
  fun c hc => hc.imp (h s k c) fun hnext => ⟨hnext.1, h (s.next t) (k + 1) c hnext.2⟩

section
variable (hcall : ∀ command, Keeps (Computer.Sound w n t Conduct.Quiet) (call command))
include hcall

/-- A loop that is resumed takes a step of its program, or none. -/
theorem onward_tick (h : c.Still w n t index first s k) (hheld : s.Held w n t) {j : Nat}
    (hj : first ≤ j) : ((tick call j).on c).2.Onward w n t index first s k := by
  have hset : ∀ stage, Keeps (Onward w n t index first s k) (setStage j stage) :=
    fun stage => onward_of fun _ _ => still_setStage j stage
  refine on_tick h (fun d hd => .inl hd) (fun awaited => (still_runs hcall).setAwaited awaited)
    (fun awaited => onward_of fun s k => (still_runs hcall).setAwaited awaited) ?_
  intro d l hd hl _
  obtain rfl := hd.driven.loops j l hj hl
  have hbegun := still_setStage j .running d hd
  refine on_resume (on_loopStep (.inl hbegun) (onward_step hcall hbegun hheld)) (hset .suspended)
    (onward_of fun s k => (still_runs hcall).endRun l)
    (fun record hrecord => onward_of fun s k => (still_runs hcall).log record hrecord) (hset .ended)

theorem paced_step (hheld : s.Held w n t) :
    Keeps (Paced w n t index first s k) (step call index) := by
  rintro c ⟨j, h, hgone, hle⟩
  rcases onward_step hcall h (hheld.iterate j) with h | ⟨⟨i, hi, hready⟩, h⟩
  · exact ⟨j, h, hgone, hle⟩
  · refine ⟨j + 1, ?_, ?_, ?_⟩
    · rw [Function.iterate_succ_apply']
      exact h
    · rw [Function.iterate_succ_apply', Progress.gone_next_of_ready hi hready, hgone, Nat.add_assoc]
    · rw [Function.iterate_succ_apply', ← Progress.instructions_iterate t s j]
      exact Progress.gone_next_le hi hready

omit hcall in
theorem paced_of {α : Type} {routine : Routine α}
    (h : ∀ s k, Keeps (Still w n t index first s k) routine) :
    Keeps (Paced w n t index first s k) routine :=
  fun c ⟨j, hc, hgone⟩ => ⟨j, h _ _ c hc, hgone⟩

theorem paced_keepsPlay (hheld : s.Held w n t) :
    KeepsPlay (Paced w n t index first s k) call (· = index) where
  step hi := hi ▸ paced_step hcall hheld
  notify j := paced_of fun _ _ => (still_runs hcall).notify j
  halt := fun ⟨j, hc, hgone⟩ hp hplaying => ⟨j, (still_runs hcall).halt hc hp hplaying, hgone⟩
  finish i := fun ⟨j, hc, hgone⟩ => ⟨j, (still_runs hcall).finish i hc, hgone⟩
  setAwaited awaited := paced_of fun _ _ => (still_runs hcall).setAwaited awaited
  log record hrecord := paced_of fun _ _ => (still_runs hcall).log record hrecord
  begin := fun ⟨j, hc, hgone⟩ _ _ _ =>
    ⟨j, still_modifyProgram hc (fun _ => rfl) fun _ _ => rfl, hgone⟩
  makeLoop delay hi := hi ▸ paced_of fun _ _ => still_makeLoop delay
  setStage j stage := paced_of fun _ _ => still_setStage j stage

theorem paced_perform (hheld : s.Held w n t) {command : Command}
    (hdrives : command.Drives index first) :
    Keeps (Paced w n t index first s k) (perform call command) :=
  keeps_drives (paced_keepsPlay hcall hheld)
    (fun source subscriber => paced_of fun _ _ => still_of (driven_observe hcall source subscriber)
      (Counted.upheld.keeps_observe no_calls source subscriber))
    (fun source subscriber => paced_of fun _ _ => still_of (driven_unobserve source subscriber)
      (Counted.upheld.keeps_unobserve source subscriber))
    (fun ⟨_, hc, _⟩ => hc.driven.loops) hdrives

end

end Routine

namespace Computer

variable {w n : Nat} {t : Dispatch} {B : Conduct → Prop} {index first k : Nat}
  {s : Progress} {c : Computer}

theorem Paced.performAll (h : c.Paced w n t index first s k) (hheld : s.Held w n t)
    {commands : List Command} (hdrive : ∀ command ∈ commands, command.Drives index first) :
    (c.performAll commands).Paced w n t index first s k := by
  induction commands generalizing c with
  | nil => exact h
  | cons command commands ih =>
    refine ih ?_ fun other hother => hdrive other (List.mem_cons_of_mem command hother)
    exact Routine.paced_perform (Sound.invariant.keeps_performWithin c.bound) hheld
      (hdrive command List.mem_cons_self) c h

theorem Onward.phases_le (h : c.Onward w n t index first s k) : c.phases ≤ k + 1 := by
  rcases h with h | ⟨-, h⟩
  · exact h.counted.phases.le.trans (Nat.le_succ k)
  · exact h.counted.phases.le

theorem Still.onward_tick (h : c.Still w n t index first s k) (hheld : s.Held w n t) {j : Nat}
    (hj : first ≤ j) : (c.perform (.tick j)).2.Onward w n t index first s k :=
  Routine.onward_tick (Sound.invariant.keeps_performWithin c.bound) h hheld hj

theorem Still.onward_step (h : c.Still w n t index first s k) (hheld : s.Held w n t) :
    (c.perform (.step index)).2.Onward w n t index first s k := by
  rw [perform_step]
  exact Routine.onward_step (Sound.invariant.keeps_performWithin c.bound) h hheld

/-- A loop that is resumed when the program is complete leaves it to itself. -/
theorem Still.tick_complete (h : c.Still w n t index first s k) (hheld : s.Held w n t)
    (hcomplete : s.current? = none) {j : Nat} (hj : first ≤ j) :
    (c.perform (.tick j)).2.Still w n t index first s k := by
  rcases h.onward_tick hheld hj with hsame | ⟨⟨i, hi, -⟩, -⟩
  · exact hsame
  · rw [hcomplete] at hi
    cases hi

theorem Still.machine (h : c.Still w n t index first s k) : c.machine = s.machine := by
  obtain ⟨p, -, -, hp⟩ := h.driven.program
  exact congrArg Progress.machine hp

theorem Held.ofEntries (h : c.Sound w n t B) {entries delay : Value} {p : Program}
    (hp : Program.ofEntries c.machine.memory entries delay = .ok p) :
    (p.progress c.machine).Held w n t := by
  refine ⟨h.machine, fun hdecoded => ?_⟩
  have hphase : p.phase = .decoded := hdecoded
  rw [(Program.ofEntries_eq_ok hp).1] at hphase
  cases hphase

theorem gone_ofEntries {m : Machine} {entries delay : Value} {p : Program}
    (hp : Program.ofEntries m.memory entries delay = .ok p) : (p.progress m).gone = 0 := by
  rw [(Program.ofEntries_eq_ok hp).1]
  rfl

/-- A program that is new has not gone through any phase. -/
theorem Sound.still (h : c.Sound w n t Conduct.Records) {entries delay : Value} {p : Program}
    (hp : Program.ofEntries c.machine.memory entries delay = .ok p) :
    (c.addProgram p).Still w n t c.programs.length c.loops.length (p.progress c.machine)
      c.phases := by
  have hstepping : p.stepping = false := by rw [(Program.ofEntries_eq_ok hp).1]
  have hquiet := h.imp fun react => Conduct.Records.quiet
  exact ⟨hquiet.driven hstepping, h.watched, h.conduct, rfl⟩

theorem Still.paced (h : c.Still w n t index first s k) (hgone : s.gone = 0) :
    c.Paced w n t index first s k :=
  ⟨0, h, rfl, hgone.le.trans (Nat.zero_le _)⟩

theorem Expired.of_expires (hn : 0 < n) (h : c.Reachable w n t B) {command : Command}
    (hexpires : c.Expires k command) (after : List Command) :
    (c.performAll (command :: after)).Expired k := by
  have hexpired := hexpires.expired (h.atRest hn) (h.sound hn).watched (h.dated hn)
  exact hexpired.performAll ((h.call command).sound hn).watched after

/-- The calls `commands`, from `start` to `d`, have driven the program `p`. They have gone through
some phases of it, and that many steps take it to the same state; a further step, or a loop that is
resumed, goes through one phase at most. A loop that some of the calls made expire goes through
none and changes neither the machine nor a program; nor does any loop go through one, or change the
machine, when the program is complete. -/
structure Scheduled (index first : Nat) (p : Program) (start : Computer) (commands : List Command)
    (d : Computer) : Prop where
  state : ∃ k q r, d.phases = start.phases + k ∧ k ≤ 2 * p.length ∧ d.programs[index]? = some q ∧
    (start.performAll (List.replicate k (.step index))).programs[index]? = some r ∧
    q.progress d.machine =
      r.progress (start.performAll (List.replicate k (.step index))).machine
  step : (d.perform (.step index)).2.phases ≤ d.phases + 1
  tick : ∀ j, first ≤ j → (d.perform (.tick j)).2.phases ≤ d.phases + 1
  expired : ∀ before command after j, commands = before ++ command :: after →
    (start.performAll before).Expires j command → d.Spares (d.perform (.tick j)).2
  complete : ∀ q j, d.programs[index]? = some q → q.isComplete = true → first ≤ j →
    (d.perform (.tick j)).2.phases = d.phases ∧ (d.perform (.tick j)).2.machine = d.machine

/-- Whoever steps, runs, plays, stops, resumes and cancels in whatever order, it is the number of
phases that decides how far a program and its machine have come. -/
theorem phases_decide (hn : 0 < n) (h : c.Reachable w n t Conduct.Records) {entries delay : Value}
    {p : Program} (hp : Program.ofEntries c.machine.memory entries delay = .ok p)
    {commands : List Command}
    (hcommands : ∀ command ∈ commands, command.Drives c.programs.length c.loops.length) :
    Scheduled c.programs.length c.loops.length p (c.addProgram p) commands
      ((c.addProgram p).performAll commands) := by
  have hsound := h.sound hn
  have hheld := Held.ofEntries hsound hp
  have hstart := hsound.still hp
  obtain ⟨k, hstill, hphases, hle⟩ :=
    (hstart.paced (gone_ofEntries hp)).performAll hheld hcommands
  have hcounted := hstill.counted.phases
  have hheld' := hheld.iterate k
  obtain ⟨q, hq, -, hprogress⟩ := hstill.driven.program
  obtain ⟨r, hr, -, hafter⟩ := (hstart.driven.performAll_step k).program
  refine ⟨⟨k, q, r, hcounted, ?_, hq, hr, hprogress.trans hafter.symm⟩, ?_, ?_, ?_, ?_⟩
  · rw [hphases, gone_ofEntries hp, Nat.zero_add] at hle
    exact hle
  · rw [hcounted]
    exact (hstill.onward_step hheld').phases_le
  · intro j hj
    rw [hcounted]
    exact (hstill.onward_tick hheld' hj).phases_le
  · rintro before command after j rfl hexpires
    have hbefore := (h.build entries delay hp).performAll before
    refine Routine.tick_expired ?_
    rw [performAll, List.foldl_append]
    exact .of_expires hn hbefore hexpires after
  · intro q' j hq' hcomplete hj
    obtain rfl : q = q' := Option.some.inj (hq.symm.trans hq')
    have hnone : ((Progress.next t)^[k] (p.progress c.machine)).current? = none := by
      rw [← hprogress]
      exact List.getElem?_eq_none (of_decide_eq_true hcomplete)
    have hsame := hstill.tick_complete hheld' hnone hj
    exact ⟨hsame.counted.phases.trans hcounted.symm, hsame.machine.trans hstill.machine.symm⟩

/-- The first loop goes through one phase before its run is stopped, and is resumed again in the
course of the next run. A step and the second loop share the rest of the phases. -/
theorem phases_decide_stopped :
    let c := { idle (.zeros 4 2) .standard with subscribers := [.recorder] }
    let p : Program :=
      { instructions := [⟨.not, none⟩, ⟨.store, some 1⟩], stepDelay := .none }
    let start := c.addProgram p
    let commands : List Command := [.observe (.program 0) 0, .play 0 .none, .tick 0, .stop 0,
      .play 0 .none, .tick 0, .tick 1, .step 0, .tick 1]
    Program.ofEntries c.machine.memory
      (.list [.instruction ⟨.not, none⟩, .instruction ⟨.store, some 1⟩]) .none = .ok p ∧
    (start.performAll commands).phases = 4 ∧
    (start.performAll (commands.take 3)).Expires 0 (.stop 0) ∧
    Scheduled 0 0 p start commands (start.performAll commands) := by
  intro c p start commands
  have hp : Program.ofEntries c.machine.memory
      (.list [.instruction ⟨.not, none⟩, .instruction ⟨.store, some 1⟩]) .none = .ok p := rfl
  have hdrives : ∀ command ∈ commands, command.Drives 0 0 := by
    simp [commands, Command.Drives]
  have hrecords : ∀ s ∈ [Subscriber.recorder], Conduct.Records s.react :=
    List.forall_mem_singleton.mpr fun _ _ => rfl
  refine ⟨hp, by cbv, ⟨_, _, rfl, rfl, rfl, rfl⟩, ?_⟩
  exact phases_decide (by decide) (.idle [.recorder] 0 hrecords) hp hdrives

end Computer

end Accumulator
