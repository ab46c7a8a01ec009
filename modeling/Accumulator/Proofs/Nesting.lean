import Accumulator.Proofs.Soundness

/-! What is begun within a call is over when the call returns. A step marks its program and takes
the mark away again, and a loop that is resumed sleeps or ends, whatever subscribers do in the midst
of it and however the call ends. So between calls no program is in a step and no loop is running. -/

namespace Accumulator

namespace Roster

/-- The loop of a number is running. -/
def Runs (r : Roster) (k : Nat) : Prop := ∃ l, r.loops[k]? = some l ∧ l.stage = .running

theorem setStage_getElem? (r : Roster) (k j : Nat) (stage : Stage) :
    (r.setStage k stage).loops[j]? =
      (r.loops[j]?).map fun l => if k = j then { l with stage } else l := by
  rw [setStage, List.getElem?_modify]
  split <;> simp

theorem runs_setStage {r : Roster} {k : Nat} {l : PlayLoop} (hl : r.loops[k]? = some l)
    (stage : Stage) (j : Nat) :
    (r.setStage k stage).Runs j ↔ if k = j then stage = .running else r.Runs j := by
  unfold Runs
  rw [setStage_getElem?]
  by_cases hj : k = j
  · subst hj
    simp [hl]
  · simp [hj]

theorem runs_addLoop {l : PlayLoop} (hl : l.stage ≠ .running) (r : Roster) (j : Nat) :
    (r.addLoop l).Runs j ↔ r.Runs j := by
  unfold Runs addLoop
  rw [List.getElem?_append]
  split
  · exact Iff.rfl
  · rename_i hlt
    constructor
    · rintro ⟨m, hm, hstage⟩
      obtain rfl := List.mem_singleton.mp (List.mem_of_getElem? hm)
      exact absurd hstage hl
    · rintro ⟨m, hm, -⟩
      exact absurd (List.getElem?_eq_some_iff.mp hm).1 hlt

end Roster

namespace Computer

/-- In the midst of calls: each program is in a step or not as the list says, and the loops in `R`
are running. -/
structure Nested (steps : List Bool) (R : Nat → Prop) (c : Computer) : Prop where
  watched : ∃ rest, c.memoryWatchers = .dataRegister :: rest
  steps : c.programs.map Program.stepping = steps
  running : ∀ k, c.roster.Runs k ↔ R k

namespace Nested

variable {steps : List Bool} {R S : Nat → Prop} {c : Computer}

theorem congr (h : c.Nested steps R) (hS : ∀ k, R k ↔ S k) : c.Nested steps S :=
  ⟨h.watched, h.steps, fun k => (h.running k).trans (hS k)⟩

theorem upheld : Upheld (fun _ => True) (fun _ => True) (Nested steps R) where
  watched h := h.watched
  conduct _ _ _ _ _ _ := Reaction.calls_true _
  machine _ := trivial
  memory _ := trivial
  program _ _ := trivial
  change {c d} h hchange hbeside := by
    refine ⟨hchange.watched h.watched, ?_, fun k => by rw [hbeside.roster, h.running]⟩
    have hsteps := congrArg (fun r => r.marks.map Mark.stepping) hbeside.roster
    simp only [roster, List.map_map] at hsteps
    exact hsteps.trans h.steps

theorem not_running (h : c.Nested steps R) {k : Nat} {l : PlayLoop} (hl : c.loops[k]? = some l)
    (hidle : l.stage ≠ .running) : ¬ R k := by
  intro hR
  obtain ⟨m, hm, hrunning⟩ := (h.running k).mpr hR
  obtain rfl : l = m := Option.some.inj (hl.symm.trans hm)
  exact hidle hrunning

/-- A mark beside that of being in a step is changed. -/
theorem modifyProgram (h : c.Nested steps R) {index : Nat} {f : Program → Program}
    (hf : ∀ p, (f p).stepping = p.stepping) :
    Nested steps R { c with programs := c.programs.modify index f } := by
  refine ⟨h.watched, ?_, h.running⟩
  rw [← h.steps]
  show (c.programs.modify index f).map Program.stepping = c.programs.map Program.stepping
  rw [map_modify (g := id) fun p _ => hf p, List.modify_id]

theorem setStepping (h : c.Nested steps R) (index : Nat) (stepping : Bool) :
    ((Routine.setStepping index stepping).on c).2.Nested
      (steps.modify index fun _ => stepping) R := by
  refine ⟨h.watched, ?_, h.running⟩
  rw [← h.steps]
  exact map_modify fun p _ => rfl

theorem setStage (h : c.Nested steps R) {k : Nat} {l : PlayLoop} (hl : c.loops[k]? = some l)
    (stage : Stage) : ((Routine.setStage k stage).on c).2.Nested steps
      fun j => if k = j then stage = .running else R j := by
  refine ⟨h.watched, h.steps, fun j => ?_⟩
  refine (Roster.runs_setStage (r := c.roster) hl stage j).trans ?_
  split
  · exact Iff.rfl
  · exact h.running j

end Nested

end Computer

namespace Routine

open Computer

variable {steps : List Bool} {R : Nat → Prop} {call : Caller}

theorem nested_log (record : Record) : Keeps (Nested steps R) (log record) :=
  Keeps.modify fun _ hc => ⟨hc.watched, hc.steps, hc.running⟩

theorem nested_setAwaited (awaited : Bool) : Keeps (Nested steps R) (setAwaited awaited) :=
  Keeps.modify fun _ hc => ⟨hc.watched, hc.steps, hc.running⟩

theorem nested_makeLoop (index : Nat) (delay : Value) :
    Keeps (Nested steps R) (makeLoop index delay) := by
  refine Keeps.program_bind fun c p hc hp => ⟨hc.watched, hc.steps, fun k => ?_⟩
  exact (Roster.runs_addLoop (by simp) c.roster k).trans (hc.running k)

theorem modify_restored {steps : List Bool} {index : Nat} (h : steps[index]? = some false) :
    (steps.modify index fun _ => true).modify index (fun _ => false) = steps := by
  apply List.ext_getElem?
  intro k
  rw [List.getElem?_modify, List.getElem?_modify]
  by_cases hk : index = k
  · subst hk
    simp [h]
  · simp [hk]

section
variable (hcall : ∀ steps R command, Keeps (Nested steps R) (call command))
include hcall

/-- The mark that a step makes is there while subscribers are told, and gone after it. -/
theorem nested_step (index : Nat) : Keeps (Nested steps R) (step call index) := by
  refine Keeps.program_bind fun c p hc hp => ?_
  split
  · exact hc
  · rename_i hidle
    split
    · exact hc
    · rename_i i _
      have hfalse : steps[index]? = some false := by
        rw [← hc.steps, List.getElem?_map, hp]
        simpa using hidle
      have hphase := Nested.upheld.keeps_doPhase (fun command _ => hcall _ _ command) nested_log
        index i p.phase _ (hc.setStepping index true)
      have hafter : Nested steps R ((ensuring (doPhase call index i p.phase)
          (setStepping index false)).on ((setStepping index true).on c).2).2 := by
        rw [on_ensuring_snd, ← modify_restored hfalse]
        exact hphase.setStepping index false
      have hnotify : Keeps (Nested steps R) (notifyProgram call index) :=
        Nested.upheld.keeps_notifyProgram (fun command _ => hcall _ _ command) index
      show Nested steps R ((ensuring (doPhase call index i p.phase) (setStepping index false) >>=
        fun _ => notifyProgram call index >>= fun _ => pure true).on
          ((setStepping index true).on c).2).2
      rw [on_bind]
      rcases hout : (ensuring (doPhase call index i p.phase) (setStepping index false)).on
        ((setStepping index true).on c).2 with ⟨_ | _, d⟩ <;> rw [hout] at hafter
      · exact hafter
      · exact Keeps.bind hnotify (fun _ => Keeps.pure true) d hafter

theorem nested_runs : KeepsRuns (Nested steps R) call fun _ => True where
  step _ := nested_step hcall _
  notify := Nested.upheld.keeps_notifyProgram fun command _ => hcall _ _ command
  halt hc _ _ := hc.modifyProgram fun _ => rfl
  finish _ hc := hc.modifyProgram fun _ => rfl
  setAwaited := nested_setAwaited
  log record _ := nested_log record

theorem nested_play (index : Nat) (delay : Value) :
    Keeps (Nested steps R) (play call index delay) :=
  (nested_runs hcall).play (fun hc _ _ _ => hc.modifyProgram fun _ => rfl)
    (nested_makeLoop index delay)

omit hcall in
/-- To resume a loop adds it to those that are running. -/
theorem nested_begun {c : Computer} (hc : c.Nested steps R) {k : Nat} {l : PlayLoop}
    (hl : c.loops[k]? = some l) :
    ((setStage k .running).on c).2.Nested steps fun j => k = j ∨ R j :=
  (hc.setStage hl .running).congr fun j => by by_cases hj : k = j <;> simp [hj]

omit hcall in
/-- The loop that was added sleeps or ends, and those that were running before are left. -/
theorem nested_over {d : Computer} {k : Nat} (hR : ¬ R k)
    (hd : d.Nested steps fun j => k = j ∨ R j) {stage : Stage} (hstage : stage ≠ .running) :
    ((setStage k stage).on d).2.Nested steps R := by
  obtain ⟨m, hm, -⟩ := (hd.running k).mpr (.inl rfl)
  refine (hd.setStage hm stage).congr fun j => ?_
  by_cases hj : k = j
  · subst hj
    simp [hstage, hR]
  · simp [hj]

theorem nested_tick (k : Nat) : Keeps (Nested steps R) (tick call k) := by
  refine keeps_tick (nested_runs hcall).setAwaited fun {c l} hc hl hstage => ?_
  have hR := hc.not_running hl (by rcases hstage with h | h <;> simp [h])
  have hinside : KeepsRuns (Nested steps fun j => k = j ∨ R j) call fun _ => True :=
    nested_runs hcall
  exact on_resume (keeps_loopStep (hinside.step trivial) _ (nested_begun hc hl))
    (fun d hd => nested_over hR hd (by decide)) (hinside.endRun l) hinside.log
    fun d hd => nested_over hR hd (by decide)

theorem nested_cancel (k : Nat) : Keeps (Nested steps R) (cancel call k) := by
  refine fun c hc => on_cancel hc (fun l hl hstage => ?_) fun l hl hstage => ?_
  · have hR := hc.not_running hl (by simp [hstage])
    refine (hc.setStage hl .ended).congr fun j => ?_
    by_cases hj : k = j
    · subst hj
      simp [hR]
    · simp [hj]
  · have hinside : KeepsRuns (Nested steps fun j => k = j ∨ R j) call
      fun _ => True := nested_runs hcall
    exact nested_over (hc.not_running hl (by simp [hstage]))
      (hinside.endRun l _ (nested_begun hc hl)) (by decide)

theorem nested_driving : KeepsDriving (Nested steps R) call fun _ => True where
  step index _ := nested_step hcall index
  run _ _ := (nested_runs hcall).run trivial
  play index delay _ := nested_play hcall index delay
  stop index _ := (nested_runs hcall).stop index
  tick k _ := nested_tick hcall k
  cancel k _ := nested_cancel hcall k

end

theorem nested_performWithin (depth : Nat) (steps : List Bool) (R : Nat → Prop)
    (command : Command) : Keeps (Nested steps R) (performWithin depth command) := by
  induction depth generalizing steps R command with
  | zero => exact Keeps.throw _
  | succ depth ih =>
    exact Nested.upheld.keeps_perform (fun command _ => ih steps R command) (nested_driving ih)
      trivial

end Routine

namespace Computer

/-- No program is in a step, and no loop is running. -/
structure AtRest (c : Computer) : Prop where
  steps : ∀ p ∈ c.programs, p.stepping = false
  loops : ∀ l ∈ c.loops, l.stage ≠ .running

variable {w n : Nat} {t : Dispatch} {B : Conduct → Prop} {c : Computer}

theorem AtRest.nested (h : c.AtRest) (hw : ∃ rest, c.memoryWatchers = .dataRegister :: rest) :
    c.Nested (c.programs.map Program.stepping) fun _ => False := by
  refine ⟨hw, rfl, fun k => iff_of_false ?_ id⟩
  rintro ⟨l, hl, hstage⟩
  exact h.loops l (List.mem_of_getElem? hl) hstage

theorem AtRest.nested_perform (h : c.AtRest) (hw : ∃ rest, c.memoryWatchers = .dataRegister :: rest)
    (command : Command) :
    (c.perform command).2.Nested (c.programs.map Program.stepping) fun _ => False :=
  Upheld.keeps_perform Nested.upheld
    (fun command _ => Routine.nested_performWithin c.bound _ _ command)
    (Routine.nested_driving (Routine.nested_performWithin c.bound)) trivial c (h.nested hw)

/-- A computer that is at rest is so again after every call. -/
theorem AtRest.perform (h : c.AtRest) (hw : ∃ rest, c.memoryWatchers = .dataRegister :: rest)
    (command : Command) : (c.perform command).2.AtRest := by
  have hnested := h.nested_perform hw command
  constructor
  · intro p hp
    have hmem := List.mem_map_of_mem (f := Program.stepping) hp
    rw [hnested.steps] at hmem
    obtain ⟨q, hq, heq⟩ := List.mem_map.mp hmem
    rw [← heq]
    exact h.steps q hq
  · intro l hl hstage
    obtain ⟨k, hk⟩ := List.mem_iff_getElem?.mp hl
    exact (hnested.running k).mp ⟨l, hk, hstage⟩

/-- Calls make no programs. -/
theorem AtRest.perform_length (h : c.AtRest) (hw : ∃ rest, c.memoryWatchers = .dataRegister :: rest)
    (command : Command) : (c.perform command).2.programs.length = c.programs.length := by
  simpa using congrArg List.length (h.nested_perform hw command).steps

theorem Reachable.atRest (hn : 0 < n) (h : c.Reachable w n t B) : c.AtRest := by
  induction h with
  | idle subscribers bound _ => exact ⟨fun _ hp => (nomatch hp), fun _ hl => (nomatch hl)⟩
  | build entries delay _ hp ih =>
    refine ⟨fun q hq => ?_, ih.loops⟩
    rcases List.mem_append.mp hq with hq | hq
    · exact ih.steps q hq
    · obtain rfl := List.mem_singleton.mp hq
      rw [(Program.ofEntries_eq_ok hp).1]
  | call command hc ih => exact ih.perform (hc.sound hn).watched command

end Computer

end Accumulator
