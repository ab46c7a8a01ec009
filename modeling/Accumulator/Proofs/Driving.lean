import Accumulator.Proofs.Stepping

/-! Driving a program of a quiet computer. Steps, runs and play loops drive it in any order, and
some of them fail on the way; still the program only goes from one progress to the next, and
between calls it is never in the midst of a step. -/

namespace Accumulator

/-- A call drives a program by its steps and its loops, which are those from `first` on, or looks
on: it makes the machine decode and execute nothing else, and changes no instructions. -/
def Command.Drives (index first : Nat) : Command → Prop
  | .step i | .run i | .play i _ | .stop i => i = index
  | .tick k | .cancel k => first ≤ k
  | .read _ | .validate _ | .observe _ _ | .unobserve _ _ | .observeValue _ _ => True
  | _ => False

namespace Computer

/-- On a quiet computer a program is between steps, and has come as far as `Q` says. The loops from
`first` on are its own. -/
structure Driven (w n : Nat) (t : Dispatch) (index first : Nat) (Q : Progress → Prop)
    (c : Computer) : Prop where
  sound : c.Sound w n t Conduct.Quiet
  loops : ∀ k l, first ≤ k → c.loops[k]? = some l → l.program = index
  program : ∃ p, c.programs[index]? = some p ∧ p.stepping = false ∧ Q (p.progress c.machine)

namespace Driven

variable {w n : Nat} {t : Dispatch} {index first : Nat} {Q : Progress → Prop} {c d : Computer}

theorem imp {R : Progress → Prop} (h : c.Driven w n t index first Q) (hR : ∀ s, Q s → R s) :
    c.Driven w n t index first R := by
  obtain ⟨p, hp, hstepping, hQ⟩ := h.program
  exact ⟨h.sound, h.loops, p, hp, hstepping, hR _ hQ⟩

theorem of_eq (h : c.Driven w n t index first Q) (hs : d.Sound w n t Conduct.Quiet)
    (hm : d.machine = c.machine) (hp : d.programs = c.programs) (hl : d.loops = c.loops) :
    d.Driven w n t index first Q :=
  ⟨hs, hl ▸ h.loops, by rw [hp, hm]; exact h.program⟩

theorem noted (h : c.Driven w n t index first Q) (hd : c.Noted d)
    (hs : d.Sound w n t Conduct.Quiet) : d.Driven w n t index first Q := by
  obtain ⟨_, _, _, rfl, -⟩ := hd
  exact h.of_eq hs rfl rfl rfl

/-- The program changes only beside its progress. -/
theorem modifyProgram (h : c.Driven w n t index first Q) (j : Nat) {f : Program → Program}
    (hstepping : ∀ p, (f p).stepping = p.stepping)
    (hf : ∀ p m, (f p).progress m = p.progress m) :
    Driven w n t index first Q { c with programs := c.programs.modify j f } := by
  obtain ⟨p, hp, hidle, hQ⟩ := h.program
  refine ⟨h.sound.withPrograms _, h.loops, ?_⟩
  by_cases hj : j = index
  · subst hj
    refine ⟨f p, modify_getElem? hp f, (hstepping p).trans hidle, ?_⟩
    rw [hf]
    exact hQ
  · refine ⟨p, ?_, hidle, hQ⟩
    show (c.programs.modify j f)[index]? = _
    rw [List.getElem?_modify_ne f _ hj, hp]

theorem put {R : Progress → Prop} {s : Progress} {p : Program} (h : c.Driven w n t index first Q)
    (hp : c.programs[index]? = some p) (hstepping : p.stepping = false) (hR : R s)
    (hd : (c.put index p s).Noted d) (hs : d.Sound w n t Conduct.Quiet) :
    d.Driven w n t index first R := by
  obtain ⟨_, _, _, rfl, -⟩ := hd
  refine ⟨hs, h.loops, p.put s, ?_, hstepping, hR⟩
  exact List.getElem?_set_self (List.getElem?_eq_some_iff.mp hp).1

end Driven

end Computer

namespace Routine

open Computer

variable {w n : Nat} {t : Dispatch} {index first : Nat} {Q : Progress → Prop} {call : Caller}

/-- The calls that drive a program keep what the parts of its runs and play loops keep, and the
registering of subscribers. -/
theorem keeps_drives {P : Computer → Prop} (h : KeepsPlay P call (· = index))
    (hobserve : ∀ source subscriber, Keeps P (observe call source subscriber))
    (hunobserve : ∀ source subscriber, Keeps P (unobserve source subscriber))
    (hloops : ∀ {c}, P c → ∀ k l, first ≤ k → c.loops[k]? = some l → l.program = index)
    {command : Command} (hdrives : command.Drives index first) :
    Keeps P (perform call command) := by
  cases command with
  | step i =>
    obtain rfl : i = index := hdrives
    exact Keeps.bind (h.step rfl) fun _ => Keeps.pure _
  | run i =>
    obtain rfl : i = index := hdrives
    exact Keeps.bind (h.run rfl) fun _ => Keeps.pure _
  | play i delay =>
    obtain rfl : i = index := hdrives
    exact Keeps.bind (h.play rfl delay) fun _ => Keeps.pure _
  | stop i => exact Keeps.bind (h.stop i) fun _ => Keeps.pure _
  | tick k => exact h.tick fun hc hl => hloops hc k _ hdrives hl
  | cancel k => exact h.cancel k
  | observe source subscriber =>
    exact Keeps.bind (hobserve source subscriber) fun _ => Keeps.pure _
  | unobserve source subscriber =>
    exact Keeps.bind (hunobserve source subscriber) fun _ => Keeps.pure _
  | observeValue source value => exact Keeps.throw _
  | read address =>
    exact Keeps.get_bind fun c hc => Keeps.bind (Keeps.conclude _) (fun _ => Keeps.pure _) c hc
  | validate address =>
    exact Keeps.get_bind fun c hc => Keeps.bind (Keeps.conclude _) (fun _ => Keeps.pure _) c hc
  | _ => exact hdrives.elim

theorem driven_log (record : Record) : Keeps (Driven w n t index first Q) (log record) :=
  fun c hc => hc.of_eq (Sound.invariant.keeps_log record c hc.sound) rfl rfl rfl

theorem driven_setAwaited (awaited : Bool) :
    Keeps (Driven w n t index first Q) (setAwaited awaited) :=
  fun c hc => hc.of_eq (Sound.invariant.keeps_setAwaited awaited c hc.sound) rfl rfl rfl

theorem driven_setStage (k : Nat) (stage : Stage) :
    Keeps (Driven w n t index first Q) (setStage k stage) := by
  intro c hc
  refine ⟨Sound.invariant.keeps_setStage k stage c hc.sound, fun j l hj hl => ?_, hc.program⟩
  have hmodify : (c.loops.modify k fun l => { l with stage })[j]? = some l := hl
  rw [List.getElem?_modify] at hmodify
  obtain ⟨l', hl', rfl⟩ := Option.map_eq_some_iff.mp hmodify
  have hprogram := hc.loops j l' hj hl'
  split
  · exact hprogram
  · exact hprogram

theorem driven_makeLoop (delay : Value) :
    Keeps (Driven w n t index first Q) (makeLoop index delay) := by
  intro c hc
  obtain ⟨p, hp, hstepping, hQ⟩ := hc.program
  have hsound := Sound.invariant.keeps_makeLoop index delay c hc.sound
  rw [makeLoop, on_program_bind, hp] at hsound ⊢
  refine ⟨hsound, fun j l hj hl => ?_, p, hp, hstepping, hQ⟩
  have happend : (c.loops ++ [⟨index, p.run, delayOf p delay, .fresh⟩])[j]? = some l := hl
  rw [List.getElem?_append] at happend
  split at happend
  · exact hc.loops j l hj happend
  · obtain rfl := List.mem_singleton.mp (List.mem_of_getElem? happend)
    rfl

section
variable (hcall : ∀ command, Keeps (Computer.Sound w n t Conduct.Quiet) (call command))
include hcall

theorem driven_deliver (notice : Notice) (h : notice.Sound w n t) (source : Source)
    (subscriber : Nat) :
    Keeps (Driven w n t index first Q) (deliver call source notice subscriber) :=
  fun c hc => hc.noted (deliver_arrives hc.sound.conduct source notice subscriber).state
    (Sound.invariant.keeps_deliver hcall h source subscriber c hc.sound)

theorem driven_notifyProgram (j : Nat) :
    Keeps (Driven w n t index first Q) (notifyProgram call j) := by
  intro c hc
  have hsound := Sound.invariant.keeps_notifyProgram hcall j c hc.sound
  cases hp : c.programs[j]? with
  | none =>
    rw [notifyProgram, on_program_bind, hp]
    exact hc
  | some p => exact hc.noted (notifyProgram_arrives hc.sound.conduct hp).state hsound

theorem driven_observe (source : Source) (subscriber : Nat) :
    Keeps (Driven w n t index first Q) (observe call source subscriber) := by
  cases source with
  | memory =>
    intro c hc
    have hsound := Sound.invariant.change hc.sound (.watchMemory subscriber)
    exact driven_deliver hcall (.memory c.machine.memory) hc.sound.machine.memory _
      subscriber _ (hc.of_eq hsound rfl rfl rfl)
  | machine =>
    intro c hc
    have hsound := Sound.invariant.change hc.sound (.watchMachine subscriber)
    exact driven_deliver hcall (.machine c.machine) hc.sound.machine _ subscriber _
      (hc.of_eq hsound rfl rfl rfl)
  | program j =>
    refine Keeps.program_bind fun c p hc _ => ?_
    rw [on_modifyProgram_bind]
    exact driven_deliver hcall (.program p.view) trivial _ subscriber _
      (hc.modifyProgram j (fun _ => rfl) fun _ _ => rfl)

omit hcall in
theorem driven_unobserve (source : Source) (subscriber : Nat) :
    Keeps (Driven w n t index first Q) (unobserve source subscriber) := by
  intro c hc
  have hsound := Sound.invariant.keeps_unobserve source subscriber c hc.sound
  cases source with
  | memory => exact hc.of_eq hsound rfl rfl rfl
  | machine => exact hc.of_eq hsound rfl rfl rfl
  | program j =>
    exact Keeps.program_bind (fun c p hc _ =>
      hc.modifyProgram j (fun _ => rfl) fun _ _ => rfl) c hc

/-- A step takes the program to its next progress, whether it succeeds or fails. -/
theorem driven_step_next {c : Computer} {s : Progress} (h : c.Driven w n t index first (· = s)) :
    ((step call index).on c).2.Driven w n t index first (· = s.next t) := by
  obtain ⟨p, hp, hstepping, rfl⟩ := h.program
  have hsound := Sound.invariant.keeps_step hcall index c h.sound
  cases hi : p.current? with
  | none =>
    have hcomplete : (p.progress c.machine).current? = none := hi
    rw [step_complete hp hstepping hi, Progress.next_complete hcomplete]
    exact h
  | some i =>
    by_cases hready : (p.progress c.machine).Ready t i
    · exact h.put hp hstepping rfl
        (step_arrives h.sound.conduct h.sound hp hstepping hi hready).state hsound
    · obtain ⟨fault, hon⟩ := step_refused h.sound.table hp hstepping hi hready
      rw [hon] at hsound ⊢
      exact h.put hp hstepping rfl (.refl _) hsound

variable (hQ : ∀ s, Q s → Q (s.next t))
include hQ

theorem driven_step : Keeps (Driven w n t index first Q) (step call index) := by
  intro c hc
  obtain ⟨p, hp, hstepping, hq⟩ := hc.program
  have hnext := driven_step_next hcall
    (s := p.progress c.machine) ⟨hc.sound, hc.loops, p, hp, hstepping, rfl⟩
  refine hnext.imp fun s' hs' => ?_
  rw [hs']
  exact hQ _ hq

/-- The parts of the runs and play loops of the program drive it. -/
theorem driven_keepsPlay : KeepsPlay (Driven w n t index first Q) call (· = index) where
  step hi := hi ▸ driven_step hcall hQ
  notify := driven_notifyProgram hcall
  begin hc _ _ _ := hc.modifyProgram _ (fun _ => rfl) fun _ _ => rfl
  halt hc _ _ := hc.modifyProgram _ (fun _ => rfl) fun _ _ => rfl
  finish j hc := hc.modifyProgram j (fun _ => rfl) fun _ _ => rfl
  makeLoop delay hi := hi ▸ driven_makeLoop delay
  setStage := driven_setStage
  setAwaited := driven_setAwaited
  log record _ := driven_log record

theorem driven_perform {command : Command} (h : command.Drives index first) :
    Keeps (Driven w n t index first Q) (perform call command) :=
  keeps_drives (driven_keepsPlay hcall hQ) (driven_observe hcall) driven_unobserve
    (fun hc => hc.loops) h

end

end Routine

namespace Computer

variable {w n : Nat} {t : Dispatch} {index first : Nat} {s : Progress} {c : Computer}

/-- The calls that drive a program take it some steps further. -/
theorem Driven.perform (h : c.Driven w n t index first (· = s)) {command : Command}
    (hdrives : command.Drives index first) :
    ∃ k, (c.perform command).2.Driven w n t index first (· = (Progress.next t)^[k] s) := by
  have hstart : c.Driven w n t index first fun s' => ∃ k, s' = (Progress.next t)^[k] s :=
    h.imp fun s' hs => ⟨0, hs⟩
  have hkeeps := Routine.driven_perform (Q := fun s' => ∃ k, s' = (Progress.next t)^[k] s)
    (Sound.invariant.keeps_performWithin c.bound) (fun s' ⟨k, hk⟩ => ⟨k + 1, by
      rw [Function.iterate_succ_apply', hk]⟩) hdrives c hstart
  obtain ⟨p, hp, hstepping, k, hk⟩ := hkeeps.program
  exact ⟨k, hkeeps.sound, hkeeps.loops, p, hp, hstepping, hk⟩

theorem Driven.performAll (h : c.Driven w n t index first (· = s)) {commands : List Command}
    (hdrive : ∀ command ∈ commands, command.Drives index first) :
    ∃ k, (c.performAll commands).Driven w n t index first (· = (Progress.next t)^[k] s) := by
  induction commands generalizing c s with
  | nil => exact ⟨0, h⟩
  | cons command commands ih =>
    obtain ⟨j, hj⟩ := h.perform (hdrive command List.mem_cons_self)
    obtain ⟨k, hk⟩ := ih hj fun other hother => hdrive other (List.mem_cons_of_mem command hother)
    rw [← Function.iterate_add_apply] at hk
    exact ⟨k + j, hk⟩

theorem perform_step (c : Computer) (index : Nat) : c.perform (.step index) =
    (((Routine.step (Routine.performWithin c.bound) index).on c).1.map .flag,
      ((Routine.step (Routine.performWithin c.bound) index).on c).2) :=
  Routine.on_bind_pure _ _ c

theorem Driven.perform_step (h : c.Driven w n t index first (· = s)) :
    (c.perform (.step index)).2.Driven w n t index first (· = s.next t) := by
  rw [Computer.perform_step]
  exact Routine.driven_step_next (Sound.invariant.keeps_performWithin c.bound) h

theorem Driven.performAll_step (h : c.Driven w n t index first (· = s)) (k : Nat) :
    (c.performAll (List.replicate k (.step index))).Driven w n t index first
      (· = (Progress.next t)^[k] s) := by
  induction k generalizing c s with
  | zero => exact h
  | succ k ih => exact ih h.perform_step

theorem Sound.driven (h : c.Sound w n t Conduct.Quiet) {p : Program} (hp : p.stepping = false) :
    (c.addProgram p).Driven w n t c.programs.length c.loops.length
      (· = p.progress c.machine) where
  sound := h.addProgram p
  loops k l hk hl := by
    have hlt : k < c.loops.length := (List.getElem?_eq_some_iff.mp hl).1
    omega
  program := ⟨p, List.getElem?_concat_length, hp, rfl⟩

end Computer

end Accumulator
