import Accumulator.Proofs.Driving
import Accumulator.Proofs.Reference

/-! Runs of a program. While subscribers only take note, a run goes through the phases that are left
of the program and no others, and what it makes of the machine is what the instructions that are
left make of its core. -/

namespace Accumulator

namespace Progress

/-- The program is on a sound machine with the standard table, and its addresses are those of
cells. -/
structure Sited (w n : Nat) (s : Progress) : Prop where
  machine : s.machine.Sound w n .standard
  addresses : ∀ i ∈ s.instructions, ∀ a, i.address = some a → a < n

/-- The program is on a sound machine with the standard table, its addresses are those of cells, and
an instruction that it has decoded is held by the machine. -/
structure Regular (w n : Nat) (s : Progress) : Prop where
  machine : s.machine.Sound w n .standard
  addresses : ∀ i ∈ s.instructions, ∀ a, i.address = some a → a < n
  counter : s.counter ≤ s.instructions.length
  held : s.phase = .decoded → ∃ i, s.current? = some i ∧ s.machine.holds i = true

/-- The number of phases that are left. -/
def remaining (s : Progress) : Nat :=
  2 * (s.instructions.length - s.counter) - if s.phase = .decoded then 1 else 0

def rest (s : Progress) : List Instruction := s.instructions.drop s.counter

variable {w n : Nat} {s : Progress} {i : Instruction}

theorem current?_lt (hi : s.current? = some i) : s.counter < s.instructions.length :=
  (List.getElem?_eq_some_iff.mp hi).1

theorem rest_eq_cons (hi : s.current? = some i) :
    s.rest = i :: s.instructions.drop (s.counter + 1) := by
  obtain ⟨hlt, rfl⟩ := List.getElem?_eq_some_iff.mp hi
  exact List.drop_eq_getElem_cons hlt

namespace Sited

theorem accepts (h : s.Sited w n) (hi : s.current? = some i) :
    s.machine.Accepts .standard i := by
  refine ⟨Machine.contains_standard _, fun a ha => ?_⟩
  have hsize := h.machine.memory.size
  have hlt := h.addresses i (List.mem_of_getElem? hi) a ha
  omega

theorem ready (h : s.Sited w n) (hi : s.current? = some i)
    (hpending : s.phase = .decoded → s.machine.isDecoded = true) : s.Ready .standard i := by
  unfold Ready
  split
  · exact h.accepts hi
  · rename_i hphase
    exact hpending hphase

theorem next (h : s.Sited w n) : (s.next .standard).Sited w n := by
  cases hi : s.current? with
  | none => rwa [next_complete hi]
  | some i =>
    cases hphase : s.phase with
    | fetch =>
      have haccepts := h.accepts hi
      rw [next_accepted hi hphase haccepts]
      exact ⟨h.machine.decoded haccepts, h.addresses⟩
    | decoded =>
      rw [next_decoded hi hphase]
      exact ⟨h.machine.executed, h.addresses⟩

theorem iterate (h : s.Sited w n) (k : Nat) : ((Progress.next .standard)^[k] s).Sited w n :=
  Function.Iterate.rec (Sited w n) h (fun _ h => h.next) k

/-- What a step has decoded is pending after it. -/
theorem pending_next (h : s.Sited w n) (hi : s.current? = some i)
    (hdecoded : (s.next .standard).phase = .decoded) :
    (s.next .standard).machine.isDecoded = true := by
  cases hphase : s.phase with
  | fetch =>
    rw [next_accepted hi hphase (h.accepts hi)]
    rfl
  | decoded =>
    rw [next_decoded hi hphase] at hdecoded
    cases hdecoded

theorem remaining_next (h : s.Sited w n) (hi : s.current? = some i) :
    (s.next .standard).remaining + 1 = s.remaining := by
  have hlt := current?_lt hi
  cases hphase : s.phase with
  | fetch =>
    rw [next_accepted hi hphase (h.accepts hi)]
    simp only [remaining, hphase, if_true, reduceCtorEq, if_false]
    omega
  | decoded =>
    rw [next_decoded hi hphase]
    simp only [remaining, finished, hphase, if_true, reduceCtorEq, if_false]
    omega

theorem current?_eq_none (h : s.Sited w n) : s.current? = none ↔ s.remaining = 0 := by
  constructor
  · intro hi
    have hle := List.getElem?_eq_none_iff.mp hi
    simp only [remaining]
    omega
  · intro hremaining
    cases hi : s.current? with
    | none => rfl
    | some i =>
      have := h.remaining_next hi
      omega

theorem isSome_current? (h : s.Sited w n) : s.current?.isSome = decide (0 < s.remaining) := by
  cases hi : s.current? with
  | none => rw [h.current?_eq_none.mp hi]; rfl
  | some i =>
    have := h.remaining_next hi
    exact (decide_eq_true (by omega)).symm

theorem remaining_iterate (h : s.Sited w n) (k : Nat) :
    ((Progress.next .standard)^[k] s).remaining = s.remaining - k := by
  induction k generalizing s with
  | zero => rfl
  | succ k ih =>
    rw [Function.iterate_succ_apply, ih h.next]
    cases hi : s.current? with
    | none =>
      have := h.current?_eq_none.mp hi
      rw [next_complete hi]
      omega
    | some i =>
      have := h.remaining_next hi
      omega

theorem rest_finish (h : s.Sited w n) :
    ((Progress.next .standard)^[s.remaining] s).instructions.length ≤
      ((Progress.next .standard)^[s.remaining] s).counter := by
  have hnone := (h.iterate s.remaining).current?_eq_none.mpr (by
    rw [h.remaining_iterate, Nat.sub_self])
  exact List.getElem?_eq_none_iff.mp hnone

end Sited

namespace Regular

theorem sited (h : s.Regular w n) : s.Sited w n := ⟨h.machine, h.addresses⟩

theorem holds (h : s.Regular w n) (hi : s.current? = some i) (hphase : s.phase = .decoded) :
    s.machine.holds i = true := by
  obtain ⟨j, hj, hholds⟩ := h.held hphase
  obtain rfl : i = j := Option.some.inj (hi.symm.trans hj)
  exact hholds

theorem pending (h : s.Regular w n) (hphase : s.phase = .decoded) :
    s.machine.isDecoded = true := by
  obtain ⟨i, -, hholds⟩ := h.held hphase
  exact (Machine.holds_iff.mp hholds).1

theorem next (h : s.Regular w n) : (s.next .standard).Regular w n := by
  cases hi : s.current? with
  | none => rwa [next_complete hi]
  | some i =>
    cases hphase : s.phase with
    | fetch =>
      have haccepts := h.sited.accepts hi
      rw [next_accepted hi hphase haccepts]
      exact ⟨h.machine.decoded haccepts, h.addresses, h.counter, fun _ =>
        ⟨i, hi, s.machine.decoded_holds i⟩⟩
    | decoded =>
      rw [next_decoded hi hphase]
      exact ⟨h.machine.executed, h.addresses, current?_lt hi, fun hdecoded => nomatch hdecoded⟩

theorem iterate (h : s.Regular w n) (k : Nat) : ((Progress.next .standard)^[k] s).Regular w n :=
  Function.Iterate.rec (Regular w n) h (fun _ h => h.next) k

/-- A step leaves the outcome of the rest as it is. -/
theorem exec_next (h : s.Regular w n) :
    (s.next .standard).machine.core.exec w (s.next .standard).rest =
      s.machine.core.exec w s.rest := by
  cases hi : s.current? with
  | none => rw [next_complete hi]
  | some i =>
    have hrest := rest_eq_cons hi
    cases hphase : s.phase with
    | fetch =>
      rw [next_accepted hi hphase (h.sited.accepts hi)]
      show Core.exec w (s.machine.core.select i.address) s.rest = _
      rw [hrest, Core.exec_cons, Core.step_select, Core.exec_cons]
    | decoded =>
      rw [next_decoded hi hphase, hrest, Core.exec_cons,
        ← h.machine.core_executed (h.holds hi hphase)]
      rfl

theorem exec_iterate (h : s.Regular w n) (k : Nat) :
    ((Progress.next .standard)^[k] s).machine.core.exec w ((Progress.next .standard)^[k] s).rest =
      s.machine.core.exec w s.rest := by
  induction k generalizing s with
  | zero => rfl
  | succ k ih => rw [Function.iterate_succ_apply, ih h.next, h.exec_next]

/-- The core comes to the outcome of the rest. -/
theorem core_finish (h : s.Regular w n) :
    ((Progress.next .standard)^[s.remaining] s).machine.core = s.machine.core.exec w s.rest := by
  have hexec := h.exec_iterate s.remaining
  rw [rest, List.drop_eq_nil_of_le h.sited.rest_finish] at hexec
  exact hexec

/-- The entries that a program still adds to its trace tell how the rest of it is gone through. -/
theorem explains (h : s.Regular w n) : ∃ added,
    ((Progress.next .standard)^[s.remaining] s).trace = s.trace ++ added ∧
      Core.Explains w s.machine.core s.trace.length s.counter s.rest added := by
  -- On the phases that are left: to decode adds no entry and selects the address, and to execute
  -- adds the entry of the first instruction.
  induction hk : s.remaining generalizing s with
  | zero =>
    have hrest : s.rest = [] :=
      List.drop_eq_nil_iff.mpr (List.getElem?_eq_none_iff.mp (h.sited.current?_eq_none.mpr hk))
    exact ⟨[], by simp, by rw [hrest]; rfl⟩
  | succ k ih =>
    cases hi : s.current? with
    | none =>
      have := h.sited.current?_eq_none.mp hi
      omega
    | some i =>
      have hnext := h.sited.remaining_next hi
      obtain ⟨added, htrace, hexplains⟩ := ih h.next (by omega)
      rw [Function.iterate_succ_apply, htrace]
      have hrest := rest_eq_cons hi
      cases hphase : s.phase with
      | fetch =>
        rw [next_accepted hi hphase (h.sited.accepts hi)] at hexplains ⊢
        refine ⟨added, rfl, ?_⟩
        have hselected : Core.Explains w (s.machine.core.select i.address) s.trace.length s.counter
          s.rest added := hexplains
        rw [hrest] at hselected ⊢
        exact hselected.of_select
      | decoded =>
        have hholds := h.holds hi hphase
        rw [next_decoded hi hphase] at hexplains ⊢
        refine ⟨_ :: added, List.append_assoc _ [_] _, ?_⟩
        rw [hrest]
        have hcore := h.machine.core_executed hholds
        refine ⟨⟨rfl, rfl, rfl, hholds, (h.machine.core_select hholds).symm,
          Machine.executed_isDecoded _ _, hcore⟩, ?_⟩
        have hlength : (s.finished .standard i).trace.length = s.trace.length + 1 :=
          List.length_append
        rw [← hcore, ← hlength]
        exact hexplains

end Regular

end Progress

namespace Computer

open Routine

variable {w n index first : Nat} {B : Conduct → Prop} {s : Progress} {c : Computer}

theorem Driven.step_flag (h : c.Driven w n .standard index first (· = s)) (hr : c.Recording)
    (hs : s.Sited w n) (hpending : s.phase = .decoded → s.machine.isDecoded = true)
    (call : Caller) : ((step call index).on c).1 = .ok s.current?.isSome := by
  obtain ⟨p, hp, hstepping, rfl⟩ := h.program
  cases hi : p.current? with
  | none =>
    have hcomplete : (p.progress c.machine).current? = none := hi
    rw [step_complete hp hstepping hi, hcomplete]
    rfl
  | some i =>
    have hcurrent : (p.progress c.machine).current? = some i := hi
    rw [hcurrent]
    exact (step_arrives h.sound.conduct h.sound hp hstepping hi
      (hs.ready hi hpending)).recorded hr

/-- The steps of a run are those that are left, and one that finds the end. -/
theorem Driven.on_steps (h : c.Driven w n .standard index first (· = s))
    (hr : c.Sound w n .standard Conduct.Records) (hs : s.Sited w n)
    (hpending : s.phase = .decoded → s.machine.isDecoded = true) {limit : Nat}
    (hlimit : s.remaining < limit) :
    (steps (performWithin c.bound) index limit).on c =
      (.ok (), c.performAll (List.replicate s.remaining (.step index))) := by
  -- The step that finds the end changes nothing, and any other is the first of those left.
  induction limit generalizing c s with
  | zero => omega
  | succ limit ih =>
    have hflag := h.step_flag hr.conduct hs hpending (performWithin c.bound)
    have hstate : ((step (performWithin c.bound) index).on c).2 = (c.perform (.step index)).2 := by
      rw [Computer.perform_step]
    rw [steps, on_bind, ← Prod.eta ((step (performWithin c.bound) index).on c), hflag, hstate]
    cases hi : s.current? with
    | none =>
      obtain ⟨p, hp, hstepping, rfl⟩ := h.program
      rw [hs.current?_eq_none.mp hi, Computer.perform_step, step_complete hp hstepping hi]
      rfl
    | some i =>
      have hnext := hs.remaining_next hi
      have hrun := ih h.perform_step (hr.perform (.step index)) hs.next (hs.pending_next hi)
        (by omega)
      rw [hr.perform_bound] at hrun
      show (steps (performWithin c.bound) index limit).on _ = _
      rw [hrun, ← hnext]
      rfl

/-- A run is answered the number of instructions gone through so far, and does what the steps do
that are left. -/
theorem Driven.perform_run (h : c.Driven w n .standard index first (· = s))
    (hr : c.Sound w n .standard Conduct.Records) (hs : s.Sited w n)
    (hpending : s.phase = .decoded → s.machine.isDecoded = true) : c.perform (.run index) =
      (.ok (.number ((Progress.next .standard)^[s.remaining] s).trace.length),
        c.performAll (List.replicate s.remaining (.step index))) := by
  have hend := h.performAll_step s.remaining
  obtain ⟨p, hp, -, hprogress⟩ := h.program
  obtain ⟨q, hq, -, hfinish⟩ := hend.program
  have hlimit : s.remaining < runLimit c p := by
    rw [← hprogress]
    simp only [Progress.remaining, Program.progress, runLimit, Program.length]
    omega
  have hrun : (run (performWithin c.bound) index).on c =
      (.ok q.trace.length, c.performAll (List.replicate s.remaining (.step index))) := by
    rw [run, on_program_bind, hp]
    simp only
    rw [on_get_bind, on_bind, h.on_steps hr hs hpending hlimit]
    simp only
    rw [on_program_bind, hq]
    rfl
  rw [← hfinish]
  show ((run (performWithin c.bound) index) >>= fun k => pure (Answer.number k)).on c = _
  rw [on_bind_pure, hrun]
  rfl

/-- A run of the program `q`, which leaves it as `r`, is what the instruction set says: it goes
through two phases for each instruction left, but one for an instruction that is decoded, each of
them as a step of its own would; the core comes to what the instructions left make of it; and the
trace tells how. -/
structure Runs (w index : Nat) (c : Computer) (q r : Program) : Prop where
  answer : (c.perform (.run index)).1 = .ok (.number r.trace.length)
  phases : (c.perform (.run index)).2 = c.performAll (List.replicate
    (2 * (q.length - q.counter) - if q.phase = .decoded then 1 else 0) (.step index))
  steps : ∀ k, ((c.performAll (List.replicate k (.step index))).perform (.step index)).1 =
    .ok (.flag (decide (k < 2 * (q.length - q.counter) - if q.phase = .decoded then 1 else 0)))
  core : (c.perform (.run index)).2.machine.core =
    c.machine.core.exec w (q.instructions.drop q.counter)
  instructions : r.instructions = q.instructions
  complete : r.isComplete = true
  trace : ∃ added, r.trace = q.trace ++ added ∧ Core.Explains w c.machine.core q.trace.length
    q.counter (q.instructions.drop q.counter) added

theorem Driven.runs (h : c.Driven w n .standard index first (· = s))
    (hr : c.Sound w n .standard Conduct.Records) (hs : s.Regular w n) :
    ∃ q r, c.programs[index]? = some q ∧ q.progress c.machine = s ∧
      (c.perform (.run index)).2.programs[index]? = some r ∧ Runs w index c q r := by
  obtain ⟨q, hq, hstepping, rfl⟩ := h.program
  have hrun := h.perform_run hr hs.sited hs.pending
  obtain ⟨r, hr', -, hfinish⟩ := (h.performAll_step (q.progress c.machine).remaining).program
  refine ⟨q, r, hq, rfl, by rw [hrun]; exact hr', ?_⟩
  have hcounter := hs.sited.rest_finish
  have hinstructions := Progress.instructions_iterate .standard (q.progress c.machine)
    (q.progress c.machine).remaining
  have hcore := hs.core_finish
  have htrace := hs.explains
  rw [← hfinish] at hcounter hinstructions hcore htrace
  exact {
    answer := by
      rw [hrun, ← hfinish]
      rfl
    phases := by rw [hrun]; rfl
    steps := fun k => by
      have hk := h.performAll_step k
      have hrecording := (hr.performAll (List.replicate k (.step index))).conduct
      have hiterate := hs.iterate k
      rw [Computer.perform_step, hk.step_flag hrecording hiterate.sited hiterate.pending _,
        hiterate.sited.isSome_current?, hs.sited.remaining_iterate k]
      refine congrArg (fun b => Except.ok (Answer.flag b)) (decide_eq_decide.mpr ?_)
      show 0 < (q.progress c.machine).remaining - k ↔ k < (q.progress c.machine).remaining
      omega
    core := by rw [hrun]; exact hcore
    instructions := hinstructions
    complete := decide_eq_true hcounter
    trace := htrace }

theorem Sound.regular (h : c.Sound w n .standard B) {entries delay : Value} {p : Program}
    (hp : Program.ofEntries c.machine.memory entries delay = .ok p) :
    (p.progress c.machine).Regular w n := by
  obtain ⟨heq, haddresses⟩ := Program.ofEntries_eq_ok hp
  have hphase : p.phase = .fetch := by rw [heq]
  have hcounter : p.counter = 0 := by rw [heq]
  refine ⟨h.machine, fun i hi a ha => ?_, ?_, fun hdecoded => ?_⟩
  · rw [← h.machine.memory.size]
    exact haddresses i hi a ha
  · show p.counter ≤ _
    omega
  · have hdecoded' : p.phase = .decoded := hdecoded
    rw [hphase] at hdecoded'
    cases hdecoded'

/-- Build a program on any machine with the standard table, and step, run and play it in any order:
a run is then what the instruction set says, as long as the subscribers only take note. -/
theorem run_exec (hn : 0 < n) {c : Computer} (h : c.Reachable w n .standard Conduct.Records)
    {entries delay : Value} {p : Program}
    (hp : Program.ofEntries c.machine.memory entries delay = .ok p) {commands : List Command}
    (hcommands : ∀ command ∈ commands, command.Drives c.programs.length c.loops.length) :
    let index := c.programs.length
    let driven := (c.addProgram p).performAll commands
    ∃ q r, driven.programs[index]? = some q ∧ q.instructions = p.instructions ∧
      q.counter ≤ q.length ∧ (driven.perform (.run index)).2.programs[index]? = some r ∧
      Runs w index driven q r := by
  have hsound := h.sound hn
  have hstepping : p.stepping = false := by rw [(Program.ofEntries_eq_ok hp).1]
  have hquiet := hsound.imp fun react => Conduct.Records.quiet
  obtain ⟨k, hdriven⟩ := (hquiet.driven hstepping).performAll hcommands
  have hregular := (hsound.regular hp).iterate k
  obtain ⟨q, r, hq, hprogress, hr, hruns⟩ :=
    hdriven.runs ((hsound.addProgram p).performAll commands) hregular
  have hinstructions := Progress.instructions_iterate .standard (p.progress c.machine) k
  have hcounter := hregular.counter
  rw [← hprogress] at hinstructions hcounter
  exact ⟨q, r, hq, hinstructions, hcounter, hr, hruns⟩

/-- Four bits, two cells and a watched machine: the complement is decoded, and the run goes on from
there. -/
theorem run_exec_decoded :
    let c := { idle (.zeros 4 2) .standard with subscribers := [.recorder] }
    let p : Program :=
      { instructions := [⟨.not, none⟩, ⟨.store, some 1⟩], stepDelay := .none }
    let driven := (c.addProgram p).performAll [.observe .machine 0, .step 0]
    Program.ofEntries c.machine.memory
      (.list [.instruction ⟨.not, none⟩, .instruction ⟨.store, some 1⟩]) .none = .ok p ∧
    ∃ q r, driven.programs[0]? = some q ∧ q.instructions = p.instructions ∧
      q.counter ≤ q.length ∧ (driven.perform (.run 0)).2.programs[0]? = some r ∧
      Runs 4 0 driven q r := by
  have hp : Program.ofEntries (.zeros 4 2)
      (.list [.instruction ⟨.not, none⟩, .instruction ⟨.store, some 1⟩]) .none =
      .ok { instructions := [⟨.not, none⟩, ⟨.store, some 1⟩], stepDelay := .none } := rfl
  refine ⟨hp, run_exec (by decide) (.idle [.recorder] 0 ?_) hp ?_⟩
  · exact List.forall_mem_singleton.mpr fun _ _ => rfl
  · exact List.forall_mem_cons.mpr ⟨trivial, List.forall_mem_singleton.mpr rfl⟩

end Computer

end Accumulator
