import Accumulator.Proofs.Expiry
import Accumulator.Proofs.Stepping

/-! Calls made while a program is marked as being in a step. Its steps are refused then and change
nothing, so that such calls come to the same as calls that are barred from stepping it, however deep
they nest; of the program they leave all but what insertions and runs change. -/

namespace Accumulator

/-- The call steps a program at once. -/
def Command.steps (index : Nat) : Command → Bool
  | .step j | .run j => j = index
  | _ => false

/-- Notice of nothing but programs is given by the call. -/
def Command.TellsPrograms : Command → Prop
  | .append .. | .insert .. | .play .. | .stop _ | .cancel _ | .read _ | .validate _
  | .observe (.program _) _ | .unobserve .. | .observeValue .. => True
  | _ => False

/-- On a notice of a program nothing is told of but programs. -/
def Conduct.TellsPrograms (react : Conduct) : Prop :=
  ∀ state view, (react state (.program view)).2.Calls Command.TellsPrograms

/-- What a call does when calls that step the program from inside it are refused out of hand. -/
def Routine.performBarred (index : Nat) : Nat → Caller
  | 0, _ => throw .nestedTooDeep
  | depth + 1, command =>
    if command.steps index then throw .stepInProgress
    else perform (performBarred index depth) command

namespace Program

/-- The program after insertions, one after the other. -/
def insertAll (p : Program) (edits : List (Nat × Instruction)) : Program :=
  edits.foldl (fun p edit => p.insertAt edit.1 edit.2) p

/-- The program differs by insertions at most, by its runs and by those who hear of it. -/
def Edited (p q : Program) : Prop :=
  ∃ edits run playing watchers, q = { p.insertAll edits with run, playing, watchers }

variable {p q : Program}

theorem insertAll_concat (p : Program) (edits : List (Nat × Instruction)) (n : Nat)
    (i : Instruction) : p.insertAll (edits ++ [(n, i)]) = (p.insertAll edits).insertAt n i := by
  rw [insertAll, List.foldl_append]
  rfl

theorem insertAll_with (p : Program) (edits : List (Nat × Instruction)) (stepping : Bool) :
    insertAll { p with stepping } edits = { p.insertAll edits with stepping } := by
  induction edits generalizing p with
  | nil => rfl
  | cons edit edits ih => exact ih (p.insertAt edit.1 edit.2)

theorem insertAll_phase (p : Program) (edits : List (Nat × Instruction)) :
    (p.insertAll edits).phase = p.phase := by
  induction edits generalizing p with
  | nil => rfl
  | cons edit edits ih => exact ih (p.insertAt edit.1 edit.2)

theorem insertAll_stepping (p : Program) (edits : List (Nat × Instruction)) :
    (p.insertAll edits).stepping = p.stepping := by
  induction edits generalizing p with
  | nil => rfl
  | cons edit edits ih => exact ih (p.insertAt edit.1 edit.2)

namespace Edited

theorem refl (p : Program) : p.Edited p := ⟨[], p.run, p.playing, p.watchers, rfl⟩

theorem insertAt (h : p.Edited q) (n : Nat) (i : Instruction) : p.Edited (q.insertAt n i) := by
  obtain ⟨edits, run, playing, watchers, rfl⟩ := h
  refine ⟨edits ++ [(n, i)], run, playing, watchers, ?_⟩
  simp only [insertAll_concat]
  rfl

theorem mark (h : p.Edited q) (run : Nat) (playing : Bool) (watchers : List Nat) :
    p.Edited { q with run, playing, watchers } := by
  obtain ⟨edits, _, _, _, rfl⟩ := h
  exact ⟨edits, run, playing, watchers, rfl⟩

theorem phase (h : p.Edited q) : q.phase = p.phase := by
  obtain ⟨edits, _, _, _, rfl⟩ := h
  exact p.insertAll_phase edits

theorem stepping (h : p.Edited q) : q.stepping = p.stepping := by
  obtain ⟨edits, _, _, _, rfl⟩ := h
  exact p.insertAll_stepping edits

/-- The mark of being in a step has no part in it. -/
theorem setStepping (b : Bool) (h : Edited { p with stepping := b } q) :
    p.Edited { q with stepping := p.stepping } := by
  obtain ⟨edits, run, playing, watchers, rfl⟩ := h
  refine ⟨edits, run, playing, watchers, ?_⟩
  rw [insertAll_with]
  simp [p.insertAll_stepping]

end Edited

end Program

/-- The program of a number is `p`, edited, and the subscribers act as `B` allows. -/
structure Computer.Has (B : Conduct → Prop) (index : Nat) (p : Program) (c : Computer) : Prop where
  program : ∃ q, c.programs[index]? = some q ∧ p.Edited q
  conduct : ∀ s ∈ c.subscribers, B s.react

theorem Computer.Has.marked {B : Conduct → Prop} {index : Nat} {p : Program} {c : Computer}
    (h : c.Has B index p) (hp : p.stepping = true) :
    ∃ q, c.programs[index]? = some q ∧ q.stepping = true := by
  obtain ⟨q, hq, hedited⟩ := h.program
  exact ⟨q, hq, hedited.stepping.trans hp⟩

open Computer in
theorem Computer.Has.modifyProgram {B : Conduct → Prop} {index : Nat} {p : Program} {c : Computer}
    (h : c.Has B index p) (j : Nat) {f : Program → Program}
    (hf : j = index → ∀ q, p.Edited q → p.Edited (f q)) :
    Has B index p { c with programs := c.programs.modify j f } := by
  obtain ⟨q, hq, hedited⟩ := h.program
  refine ⟨?_, h.conduct⟩
  by_cases hj : j = index
  · subst hj
    exact ⟨f q, modify_getElem? hq f, hf rfl q hedited⟩
  · refine ⟨q, ?_, hedited⟩
    show (c.programs.modify j f)[index]? = _
    rw [List.getElem?_modify_ne f _ hj, hq]

namespace Routine

open Computer

variable {α β : Type}

/-- From a computer with a property both routines come to the same, and the property is kept. -/
def Alike (P : Computer → Prop) (routine other : Routine α) : Prop :=
  ∀ c, P c → other.on c = routine.on c ∧ P (routine.on c).2

namespace Alike

variable {P : Computer → Prop} {routine other : Routine α}

theorem of_keeps (h : Keeps P routine) : Alike P routine routine := fun c hc => ⟨rfl, h c hc⟩

theorem bind {next next' : α → Routine β} (h : Alike P routine other)
    (hn : ∀ a, Alike P (next a) (next' a)) : Alike P (routine >>= next) (other >>= next') := by
  intro c hc
  obtain ⟨heq, hP⟩ := h c hc
  rw [on_bind, on_bind, heq]
  rcases hout : routine.on c with ⟨_ | a, d⟩ <;> rw [hout] at hP
  · exact ⟨rfl, hP⟩
  · exact hn a d hP

theorem get_bind {next next' : Computer → Routine β}
    (h : ∀ c, P c → (next' c).on c = (next c).on c ∧ P ((next c).on c).2) :
    Alike P (get >>= next) (get >>= next') := h

theorem program_bind {index : Nat} {next next' : Program → Routine β}
    (h : ∀ c p, P c → c.programs[index]? = some p →
      (next' p).on c = (next p).on c ∧ P ((next p).on c).2) :
    Alike P (program index >>= next) (program index >>= next') := by
  intro c hc
  rw [on_program_bind, on_program_bind]
  split
  · rename_i p hp
    exact h c p hc hp
  · exact ⟨rfl, hc⟩

theorem conclude (outcome : Except Fault α) :
    Alike P (Routine.conclude outcome) (Routine.conclude outcome) :=
  of_keeps (Keeps.conclude outcome)

theorem attempt (h : Alike P routine other) :
    Alike P (Routine.attempt routine) (Routine.attempt other) := by
  intro c hc
  obtain ⟨heq, hP⟩ := h c hc
  rw [on_attempt, on_attempt, heq]
  exact ⟨rfl, hP⟩

theorem ensuring {closing closing' : Routine Unit} (h : Alike P routine other)
    (hc : Alike P closing closing') :
    Alike P (Routine.ensuring routine closing) (Routine.ensuring other closing') :=
  bind (attempt h) fun outcome => bind hc fun _ => conclude outcome

theorem forM {items : List β} {action action' : β → Routine PUnit}
    (h : ∀ x, Alike P (action x) (action' x)) :
    Alike P (items.forM action) (items.forM action') := by
  induction items with
  | nil => exact of_keeps (Keeps.pure _)
  | cons x items ih => exact bind (h x) fun _ => ih

end Alike

variable {B : Conduct → Prop} {index : Nat} {p : Program} {call call' : Caller}

theorem has_log (record : Record) : Keeps (Has B index p) (log record) :=
  fun _ hc => ⟨hc.program, hc.conduct⟩

theorem has_setAwaited (awaited : Bool) : Keeps (Has B index p) (setAwaited awaited) :=
  fun _ hc => ⟨hc.program, hc.conduct⟩

theorem has_setStage (k : Nat) (stage : Stage) : Keeps (Has B index p) (setStage k stage) :=
  fun _ hc => ⟨hc.program, hc.conduct⟩

theorem has_modifyMachine (f : Machine → Machine) : Keeps (Has B index p) (modifyMachine f) :=
  fun _ hc => ⟨hc.program, hc.conduct⟩

theorem has_makeLoop (j : Nat) (delay : Value) : Keeps (Has B index p) (makeLoop j delay) :=
  Keeps.program_bind fun _ _ hc _ => ⟨hc.program, hc.conduct⟩

theorem has_modifyProgram (j : Nat) {f : Program → Program}
    (hf : j = index → ∀ q, p.Edited q → p.Edited (f q)) :
    Keeps (Has B index p) (modifyProgram j f) := fun _ hc => hc.modifyProgram j hf

theorem has_unobserve (source : Source) (k : Nat) :
    Keeps (Has B index p) (unobserve source k) := by
  cases source with
  | memory => exact fun _ hc => ⟨hc.program, hc.conduct⟩
  | machine => exact fun _ hc => ⟨hc.program, hc.conduct⟩
  | program j =>
    exact Keeps.program_bind fun c _ hc _ => hc.modifyProgram j fun _ q hq =>
      hq.mark q.run q.playing _

section
variable {N : Notice → Prop} {C : Command → Prop}
  (hC : ∀ react, B react → ∀ state notice, N notice → (react state notice).2.Calls C)
  (hcall : ∀ command, C command → Alike (Has B index p) (call command) (call' command))
include hcall

theorem alike_react {reaction : Reaction} (h : reaction.Calls C) :
    Alike (Has B index p) (react call reaction) (react call' reaction) := by
  induction reaction with
  | done => exact .of_keeps (Keeps.pure _)
  | fail fault => exact .of_keeps (Keeps.throw fault)
  | call command next ih =>
    exact .bind (.attempt (hcall command h.1)) fun outcome => ih outcome (h.2 outcome)

include hC

theorem alike_deliver {notice : Notice} (h : N notice) (source : Source) (k : Nat) :
    Alike (Has B index p) (deliver call source notice k) (deliver call' source notice k) := by
  refine .bind (.of_keeps fun c hc => ⟨hc.program, hc.conduct⟩) fun _ => .get_bind fun c hc => ?_
  split
  · exact ⟨rfl, hc⟩
  · rename_i s hs
    have hcalls := hC s.react (hc.conduct s (List.mem_of_getElem? hs)) s.state notice h
    refine Alike.bind (.of_keeps fun c hc => ⟨hc.program, ?_⟩)
      (fun _ => alike_react hcall hcalls) c hc
    exact conduct_of_react (react_modify c.subscribers k _) hc.conduct

section
variable (hprogram : ∀ view, N (.program view))
include hprogram

theorem alike_notifyProgram (j : Nat) :
    Alike (Has B index p) (notifyProgram call j) (notifyProgram call' j) :=
  .program_bind fun c q hc _ =>
    Alike.forM (fun k => alike_deliver hC hcall (hprogram q.view) _ k) c hc

theorem alike_insert (j : Nat) (name args position : Value) :
    Alike (Has B index p) (insert call j name args position)
      (insert call' j name args position) := by
  refine .program_bind fun c q hc _ => ?_
  refine Alike.bind (.conclude _) (fun n => .bind (.conclude _) fun i => .get_bind ?_) c hc
  refine fun c hc => Alike.bind (.conclude _) (fun _ => .bind (.of_keeps ?_) fun _ => ?_) c hc
  · exact has_modifyProgram j fun _ q hq => hq.insertAt n i
  · exact .bind (alike_notifyProgram hC hcall hprogram j) fun _ => .of_keeps (Keeps.pure i)

theorem alike_append (j : Nat) (name args : Value) :
    Alike (Has B index p) (append call j name args) (append call' j name args) :=
  .program_bind fun c _ hc _ => alike_insert hC hcall hprogram j name args _ c hc

theorem alike_play (j : Nat) (delay : Value) :
    Alike (Has B index p) (play call j delay) (play call' j delay) := by
  refine .program_bind fun c q hc _ => ?_
  split
  · exact ⟨rfl, hc⟩
  · split
    · exact ⟨rfl, hc⟩
    · refine Alike.bind (.of_keeps (has_modifyProgram j fun _ q hq => ?_)) (fun _ => ?_) c hc
      · exact hq.mark _ _ q.watchers
      · refine .bind (.of_keeps (has_log _)) fun _ => ?_
        exact .bind (alike_notifyProgram hC hcall hprogram j) fun _ =>
          .of_keeps (has_makeLoop j delay)

theorem alike_stop (j : Nat) : Alike (Has B index p) (stop call j) (stop call' j) := by
  refine .program_bind fun c q hc _ => ?_
  split
  · refine Alike.bind (.of_keeps (has_modifyProgram j fun _ q hq => ?_)) (fun _ => ?_) c hc
    · exact hq.mark _ _ q.watchers
    · exact .bind (.of_keeps (has_log _)) fun _ => alike_notifyProgram hC hcall hprogram j
  · exact ⟨rfl, hc⟩

theorem alike_endRun (l : PlayLoop) : Alike (Has B index p) (endRun call l) (endRun call' l) := by
  refine .program_bind fun c q hc _ => ?_
  split
  · refine Alike.bind (.of_keeps (has_modifyProgram l.program fun _ q hq => ?_)) (fun _ => ?_) c hc
    · exact hq.mark q.run _ q.watchers
    · exact alike_notifyProgram hC hcall hprogram l.program
  · exact ⟨rfl, hc⟩

theorem alike_cancel (k : Nat) : Alike (Has B index p) (cancel call k) (cancel call' k) := by
  refine .get_bind fun c hc => ?_
  split
  · exact ⟨rfl, hc⟩
  · split
    · exact ⟨rfl, has_setStage k .ended c hc⟩
    · refine Alike.bind (.of_keeps (has_setStage k .running)) (fun _ => ?_) c hc
      refine .bind (.ensuring (alike_endRun hC hcall hprogram _) ?_) fun _ => ?_
      · exact .of_keeps (has_setStage k .ended)
      · exact .of_keeps (Keeps.pure _)
    · exact ⟨rfl, hc⟩
    · exact ⟨rfl, hc⟩

theorem alike_observe_program (j k : Nat) :
    Alike (Has B index p) (observe call (.program j) k) (observe call' (.program j) k) := by
  refine .program_bind fun c q hc _ => ?_
  refine Alike.bind (.of_keeps (has_modifyProgram j fun _ q hq => ?_)) (fun _ => ?_) c hc
  · exact hq.mark q.run q.playing _
  · exact alike_deliver hC hcall (hprogram q.view) _ k

/-- Calls that tell of programs only are kept apart from the steps of a program by themselves. -/
theorem alike_tellsPrograms {command : Command} (h : command.TellsPrograms) :
    Alike (Has B index p) (perform call command) (perform call' command) := by
  cases command with
  | append j name args =>
    exact .bind (alike_append hC hcall hprogram j name args) fun _ => .of_keeps (Keeps.pure _)
  | insert j name args position =>
    exact .bind (alike_insert hC hcall hprogram j name args position)
      fun _ => .of_keeps (Keeps.pure _)
  | play j delay =>
    exact .bind (alike_play hC hcall hprogram j delay) fun _ => .of_keeps (Keeps.pure _)
  | stop j => exact .bind (alike_stop hC hcall hprogram j) fun _ => .of_keeps (Keeps.pure _)
  | cancel k => exact alike_cancel hC hcall hprogram k
  | read address =>
    exact .get_bind fun c hc =>
      Alike.bind (.conclude _) (fun _ => .of_keeps (Keeps.pure _)) c hc
  | validate address =>
    exact .get_bind fun c hc =>
      Alike.bind (.conclude _) (fun _ => .of_keeps (Keeps.pure _)) c hc
  | observe source k =>
    cases source with
    | program j =>
      exact .bind (alike_observe_program hC hcall hprogram j k) fun _ => .of_keeps (Keeps.pure _)
    | _ => exact h.elim
  | unobserve source k =>
    exact .bind (.of_keeps (has_unobserve source k)) fun _ => .of_keeps (Keeps.pure _)
  | observeValue source value => exact .of_keeps (Keeps.throw _)
  | _ => exact h.elim

end

end

section Marked
variable {c : Computer} {q : Program}

theorem step_marked (hq : c.programs[index]? = some q) (h : q.stepping = true) :
    (step call index).on c = (.error .stepInProgress, c) := by
  rw [step, on_program_bind, hq]
  simp only [h, if_true]
  rfl

theorem run_marked (hq : c.programs[index]? = some q) (h : q.stepping = true) :
    (run call index).on c = (.error .stepInProgress, c) := by
  have hsteps : ∀ limit, (steps call index (limit + 1)).on c = (.error .stepInProgress, c) := by
    intro limit
    rw [steps, on_bind, step_marked hq h]
  rw [run, on_program_bind, hq]
  simp only
  rw [on_get_bind, on_bind, show runLimit c q = _ + 1 from Nat.add_right_comm _ _ _, hsteps]

theorem perform_marked (hq : c.programs[index]? = some q) (h : q.stepping = true)
    {command : Command} (hsteps : command.steps index = true) :
    (perform call command).on c = (.error .stepInProgress, c) := by
  cases command with
  | step j =>
    obtain rfl : j = index := by simpa [Command.steps] using hsteps
    rw [perform, on_bind, step_marked hq h]
  | run j =>
    obtain rfl : j = index := by simpa [Command.steps] using hsteps
    rw [perform, on_bind, run_marked hq h]
  | _ => cases hsteps

/-- A current loop takes its step only to be refused, and ends. -/
theorem tick_marked {k : Nat} {l : PlayLoop} (hl : c.loops[k]? = some l)
    (hstage : l.stage = .fresh ∨ l.stage = .suspended) (hq : c.programs[l.program]? = some q)
    (h : q.stepping = true) (hrun : l.run = q.run) (hcomplete : q.isComplete = false)
    {d : Computer} (hd : d = ((setStage k .running).on { c with awaited := true }).2) :
    (tick call k).on c = (((endRun call l).on d).1.bind fun _ => .error .stepInProgress,
      ((setAwaited false).on ((setStage k .ended).on ((endRun call l).on d).2).2).2) := by
  have hstep : (loopStep call l).on d = (.error .stepInProgress, d) := by
    have hqd : d.programs[l.program]? = some q := by
      rw [hd]
      exact hq
    rw [loopStep, on_program_bind, hqd]
    simp only [hrun, hcomplete, decide_true, Bool.not_false, Bool.and_self, if_true]
    rw [on_bind, step_marked hqd h]
  have hend : (endLoop call l (.error .stepInProgress)).on d =
      (((endRun call l).on d).1.bind fun _ => .error .stepInProgress,
        ((endRun call l).on d).2) := by
    rw [endLoop, on_bind, on_ensuring, on_conclude]
    simp only
    rcases (endRun call l).on d with ⟨_ | _, _⟩ <;> rfl
  have hresume : (resume call k l).on { c with awaited := true } =
      (((endRun call l).on d).1.bind fun _ => .error .stepInProgress,
        ((setStage k .ended).on ((endRun call l).on d).2).2) := by
    rw [resume, on_setStage_bind, on_bind, on_attempt, ← hd, hstep]
    simp only
    rw [on_bind_pure, on_ensuring, hend]
    simp only [setStage, on_modify]
    rcases ((endRun call l).on d).1 with _ | _ <;> rfl
  have hawait : (tick call k).on c = (await call k l).on c := by
    rw [tick, on_get_bind, hl]
    simp only
    rcases hstage with h | h <;> rw [h]
  rw [hawait]
  show (ensuring (resume call k l) (setAwaited false)).on { c with awaited := true } = _
  rw [on_ensuring, hresume]
  rfl

end Marked

section
variable (hcall : ∀ command, Alike (Has B index p) (call command) (call' command))
include hcall

theorem alike_notices (source : Source) (notice : Notice) (k : Nat) :
    Alike (Has B index p) (deliver call source notice k)
      (deliver call' source notice k) :=
  alike_deliver (N := fun _ => True) (C := fun _ => True)
    (fun _ _ _ _ _ => Reaction.calls_true _) (fun command _ => hcall command) trivial source k

theorem alike_notifyMachine :
    Alike (Has B index p) (notifyMachine call) (notifyMachine call') :=
  .get_bind fun c hc => Alike.forM (fun k => alike_notices hcall _ _ k) c hc

theorem alike_tell (memory : Memory) (watcher : Watcher) :
    Alike (Has B index p) (tell call memory watcher) (tell call' memory watcher) := by
  cases watcher with
  | dataRegister =>
    exact .bind (.of_keeps (has_modifyMachine _)) fun _ => alike_notifyMachine hcall
  | subscriber k => exact alike_notices hcall _ _ k

theorem alike_write (value address : Value) :
    Alike (Has B index p) (write call value address)
      (write call' value address) := by
  refine .get_bind fun c hc => Alike.bind (.conclude _) (fun memory => ?_) c hc
  refine .bind (.of_keeps (has_modifyMachine _)) fun _ => .get_bind fun c hc => ?_
  exact Alike.forM (fun watcher => alike_tell hcall _ watcher) c hc

theorem alike_operate (circuit : Operation) :
    Alike (Has B index p) (operate call circuit) (operate call' circuit) := by
  refine .get_bind fun c hc => ?_
  cases circuit with
  | store => exact alike_write hcall _ _ c hc
  | _ =>
    exact Alike.bind (.of_keeps (has_modifyMachine _)) (fun _ => alike_notifyMachine hcall) c hc

theorem alike_dispatch (op : Operation) :
    Alike (Has B index p) (dispatch call op) (dispatch call' op) := by
  refine .get_bind fun c hc => ?_
  split
  · exact alike_operate hcall _ c hc
  · exact ⟨rfl, hc⟩

theorem alike_decode (instruction : Value) :
    Alike (Has B index p) (decode call instruction) (decode call' instruction) := by
  refine .get_bind fun c hc => Alike.bind (.conclude _) (fun i => ?_) c hc
  refine .bind (.of_keeps (has_modifyMachine _)) fun _ => .get_bind fun c hc => ?_
  exact Alike.bind (.of_keeps (has_log _)) (fun _ => alike_notifyMachine hcall) c hc

theorem alike_execute :
    Alike (Has B index p) (execute call) (execute call') := by
  refine .get_bind fun c hc => ?_
  split
  · exact ⟨rfl, hc⟩
  · rename_i op _
    refine Alike.bind (.of_keeps (has_modifyMachine _)) (fun _ => ?_) c hc
    refine .bind (alike_dispatch hcall op) fun _ => .get_bind fun c hc => ?_
    exact ⟨rfl, has_log _ c hc⟩

theorem alike_observe (source : Source) (k : Nat) :
    Alike (Has B index p) (observe call source k) (observe call' source k) := by
  cases source with
  | memory =>
    refine .bind (.of_keeps fun _ hc => ⟨hc.program, hc.conduct⟩) fun _ => ?_
    exact .get_bind fun c hc => alike_notices hcall _ _ k c hc
  | machine =>
    refine .bind (.of_keeps fun _ hc => ⟨hc.program, hc.conduct⟩) fun _ => ?_
    exact .get_bind fun c hc => alike_notices hcall _ _ k c hc
  | program j =>
    exact alike_observe_program (N := fun _ => True) (C := fun _ => True)
      (fun _ _ _ _ _ => Reaction.calls_true _) (fun command _ => hcall command)
      (fun _ => trivial) j k

theorem alike_notifies (j : Nat) :
    Alike (Has B index p) (notifyProgram call j) (notifyProgram call' j) :=
  alike_notifyProgram (N := fun _ => True) (C := fun _ => True)
    (fun _ _ _ _ _ => Reaction.calls_true _) (fun command _ => hcall command)
    (fun _ => trivial) j

/-- The phases of other programs. -/
theorem alike_doPhase {j : Nat} (hj : j ≠ index) (i : Instruction) (phase : Phase) :
    Alike (Has B index p) (doPhase call j i phase) (doPhase call' j i phase) := by
  have hlog (record : Program → Record) : Keeps (Has B index p)
      (program j >>= fun p => log (record p)) :=
    Keeps.program_bind fun c _ hc _ => has_log _ c hc
  cases phase with
  | fetch =>
    refine .bind (.ensuring (alike_decode hcall _) (.of_keeps (Keeps.get_bind fun c hc => ?_)))
      fun _ => .of_keeps (hlog _)
    split
    · exact hc.modifyProgram j fun h => absurd h hj
    · exact hc
  | decoded =>
    refine .get_bind fun c hc => ?_
    refine Alike.bind (.ensuring (alike_execute hcall) (.of_keeps (Keeps.get_bind fun c hc => ?_)))
      (fun _ => .of_keeps (hlog _)) c hc
    dsimp only
    split
    · exact hc.modifyProgram j fun h => absurd h hj
    · exact hc

section
variable (hp : p.stepping = true)
include hp

theorem alike_step (j : Nat) :
    Alike (Has B index p) (step call j) (step call' j) := by
  by_cases hj : j = index
  · subst hj
    intro c hc
    obtain ⟨q, hq, hmarked⟩ := hc.marked hp
    rw [step_marked hq hmarked, step_marked hq hmarked]
    exact ⟨rfl, hc⟩
  · refine .program_bind fun c q hc _ => ?_
    split
    · exact ⟨rfl, hc⟩
    · split
      · exact ⟨rfl, hc⟩
      · have hset (b : Bool) : Keeps (Has B index p) (setStepping j b) :=
          has_modifyProgram j fun h => absurd h hj
        refine Alike.bind (.of_keeps (hset true)) (fun _ => ?_) c hc
        refine .bind (.ensuring (alike_doPhase hcall hj _ _) (.of_keeps (hset false))) fun _ => ?_
        exact .bind (alike_notifies hcall j) fun _ => .of_keeps (Keeps.pure true)

theorem alike_run (j : Nat) : Alike (Has B index p) (run call j) (run call' j) := by
  have hsteps (limit : Nat) :
      Alike (Has B index p) (steps call j limit) (steps call' j limit) := by
    induction limit with
    | zero => exact .of_keeps (Keeps.throw _)
    | succ limit ih =>
      refine .bind (alike_step hcall hp j) fun more => ?_
      cases more with
      | true => exact ih
      | false => exact .of_keeps (Keeps.pure _)
  refine .program_bind fun c q hc _ => Alike.get_bind (fun c hc => ?_) c hc
  refine Alike.bind (hsteps _) (fun _ => .of_keeps ?_) c hc
  exact Keeps.program_bind fun _ _ hc _ => hc

theorem alike_loopStep (l : PlayLoop) :
    Alike (Has B index p) (loopStep call l) (loopStep call' l) := by
  refine .program_bind fun c q hc _ => ?_
  split
  · refine Alike.bind (alike_step hcall hp l.program) (fun _ => ?_) c hc
    refine .program_bind fun c q hc _ => ?_
    split
    · exact ⟨rfl, hc⟩
    · exact ⟨rfl, Keeps.bind (keeps_sleep _ l.delay) (fun _ => Keeps.pure _) c hc⟩
  · exact ⟨rfl, hc⟩

theorem alike_tick (k : Nat) :
    Alike (Has B index p) (tick call k) (tick call' k) := by
  have hend (l : PlayLoop) (outcome : Except Fault (Option Value)) :
      Alike (Has B index p) (endLoop call l outcome) (endLoop call' l outcome) := by
    refine .bind (.ensuring (.conclude outcome) ?_) fun _ => ?_
    · exact alike_endRun (N := fun _ => True) (C := fun _ => True)
        (fun _ _ _ _ _ => Reaction.calls_true _) (fun command _ => hcall command)
        (fun _ => trivial) l
    · exact .program_bind fun c _ hc _ => ⟨rfl, has_log _ c hc⟩
  have hresume (l : PlayLoop) :
      Alike (Has B index p) (resume call k l) (resume call' k l) := by
    refine .bind (.of_keeps (has_setStage k .running)) fun _ => ?_
    refine .bind (.attempt (alike_loopStep hcall hp l)) fun outcome => ?_
    split
    · exact .bind (.of_keeps (has_setStage k .suspended)) fun _ => .of_keeps (Keeps.pure _)
    · exact .bind (.ensuring (hend l _) (.of_keeps (has_setStage k .ended)))
        fun _ => .of_keeps (Keeps.pure _)
  have hawait (l : PlayLoop) :
      Alike (Has B index p) (await call k l) (await call' k l) :=
    .bind (.of_keeps (has_setAwaited true)) fun _ =>
      .ensuring (hresume l) (.of_keeps (has_setAwaited false))
  refine .get_bind fun c hc => ?_
  split
  · exact ⟨rfl, hc⟩
  · split
    · exact hawait _ c hc
    · exact hawait _ c hc
    · exact ⟨rfl, hc⟩
    · exact ⟨rfl, hc⟩

/-- A call is of no other account than those that are made from inside it while the program is
marked. -/
theorem alike_perform (command : Command) :
    Alike (Has B index p) (perform call command) (perform call' command) := by
  have htells {command : Command} (h : command.TellsPrograms) :
      Alike (Has B index p) (perform call command) (perform call' command) :=
    alike_tellsPrograms (N := fun _ => True) (C := fun _ => True)
      (fun _ _ _ _ _ => Reaction.calls_true _) (fun command _ => hcall command)
      (fun _ => trivial) h
  cases command with
  | step j => exact .bind (alike_step hcall hp j) fun _ => .of_keeps (Keeps.pure _)
  | run j => exact .bind (alike_run hcall hp j) fun _ => .of_keeps (Keeps.pure _)
  | tick k => exact alike_tick hcall hp k
  | decode v => exact .bind (alike_decode hcall v) fun _ => .of_keeps (Keeps.pure _)
  | execute => exact .bind (alike_execute hcall) fun _ => .of_keeps (Keeps.pure _)
  | operate circuit => exact .bind (alike_operate hcall circuit) fun _ => .of_keeps (Keeps.pure _)
  | dispatch op => exact .bind (alike_dispatch hcall op) fun _ => .of_keeps (Keeps.pure _)
  | write value address =>
    exact .bind (alike_write hcall value address) fun _ => .of_keeps (Keeps.pure _)
  | observe source k => exact .bind (alike_observe hcall source k) fun _ => .of_keeps (Keeps.pure _)
  | _ => exact htells trivial

end

end

/-- Calls of any depth, made while the program is marked, are as good as calls that are barred from
stepping it. -/
theorem alike_performWithin (hp : p.stepping = true) (depth : Nat) (command : Command) :
    Alike (Has B index p) (performWithin depth command)
      (performBarred index depth command) := by
  induction depth generalizing command with
  | zero => exact .of_keeps (Keeps.throw _)
  | succ depth ih =>
    rw [performWithin, performBarred]
    split
    · rename_i hsteps
      intro c hc
      obtain ⟨q, hq, hmarked⟩ := hc.marked hp
      rw [perform_marked hq hmarked hsteps]
      exact ⟨rfl, hc⟩
    · exact alike_perform ih hp command

end Routine

end Accumulator
