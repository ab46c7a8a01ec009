import Accumulator.Proofs.Course

/-! Stopping is final for the loops that there are: they belong to a run that is over, and no loop
of a run that is over begins a phase, not even in the rest of the call that was stopped within. And
no two loops of a program are of the same run, as long as subscribers do not both play and stop it.
One that does, on the notice of a play, leaves that play with a loop of the run that has begun in
between; and if it only stops the program, the loop is of the run that the stop has begun. -/

namespace Accumulator

namespace Roster

/-- The loops of a program belong to different runs, and none to a run that is still to come. -/
structure Sole (r : Roster) : Prop where
  dated : ∀ (k : Nat) (l : PlayLoop), r.loops[k]? = some l →
    ∃ m, r.marks[l.program]? = some m ∧ l.run ≤ m.run
  distinct : ∀ (j k : Nat) (l m : PlayLoop), r.loops[j]? = some l → r.loops[k]? = some m →
    l.program = m.program → l.run = m.run → j = k

/-- A play has begun a run and has not made its loop: the loops that there are belong to earlier
runs. If `J` has the program, the run is still the current one. -/
structure Awaits (r : Roster) (J : Nat → Prop) (index run : Nat) : Prop where
  earlier : ∀ (k : Nat) (l : PlayLoop), r.loops[k]? = some l → l.program = index → l.run < run
  begun : ∃ m, r.marks[index]? = some m ∧ run ≤ m.run ∧
    (J index → m.run = run ∧ m.playing = true)

variable {r s : Roster} {J : Nat → Prop} {index run k : Nat} {l : PlayLoop} {m : Mark}

theorem addLoop_getElem? {l' : PlayLoop} (hl' : (r.addLoop l).loops[k]? = some l') :
    r.loops[k]? = some l' ∨ k = r.loops.length ∧ l' = l := by
  have happend : (r.loops ++ [l])[k]? = some l' := hl'
  rcases Nat.lt_trichotomy k r.loops.length with hlt | rfl | hlt
  · rw [List.getElem?_append_left hlt] at happend
    exact .inl happend
  · rw [List.getElem?_concat_length] at happend
    exact .inr ⟨rfl, (Option.some.inj happend).symm⟩
  · have hle := (List.getElem?_eq_some_iff.mp happend).1
    rw [List.length_append, List.length_singleton] at hle
    omega

theorem setMark_getElem?_of_some {f : Mark → Mark} {i : Nat} (hm : r.marks[i]? = some m) :
    (r.setMark index f).marks[i]? = some (if index = i then f m else m) := by
  show (r.marks.modify index f)[i]? = _
  rw [List.getElem?_modify, hm]
  rfl

theorem setStage_origin {stage : Stage} {j : Nat}
    (hl : (r.setStage k stage).loops[j]? = some l) :
    ∃ l', r.loops[j]? = some l' ∧ l'.program = l.program ∧ l'.run = l.run := by
  rw [setStage_getElem?] at hl
  obtain ⟨l', hl', rfl⟩ := Option.map_eq_some_iff.mp hl
  refine ⟨l', hl', ?_, ?_⟩
  · split <;> rfl
  · split <;> rfl

/-- Runs only grow. -/
theorem Sole.of_marks (h : r.Sole) (hloops : s.loops = r.loops)
    (hmarks : ∀ (i : Nat) (m : Mark), r.marks[i]? = some m →
      ∃ m', s.marks[i]? = some m' ∧ m.run ≤ m'.run) : s.Sole where
  dated k l hl := by
    obtain ⟨m, hm, hle⟩ := h.dated k l (hloops ▸ hl)
    obtain ⟨m', hm', hgrown⟩ := hmarks _ m hm
    exact ⟨m', hm', hle.trans hgrown⟩
  distinct j k l m hl hm := h.distinct j k l m (hloops ▸ hl) (hloops ▸ hm)

theorem Sole.setMark (h : r.Sole) {f : Mark → Mark} (hf : ∀ m, m.run ≤ (f m).run) :
    (r.setMark index f).Sole := by
  refine h.of_marks rfl fun i m hm => ⟨_, setMark_getElem?_of_some hm, ?_⟩
  split
  · exact hf m
  · exact Nat.le_refl m.run

theorem Sole.setStage (h : r.Sole) (k : Nat) (stage : Stage) : (r.setStage k stage).Sole where
  dated j l hl := by
    obtain ⟨l', hl', hprogram, hrun⟩ := setStage_origin hl
    obtain ⟨m, hm, hle⟩ := h.dated j l' hl'
    exact ⟨m, hprogram ▸ hm, hrun ▸ hle⟩
  distinct i j l m hl hm hprogram hrun := by
    obtain ⟨l', hl', hprogram₁, hrun₁⟩ := setStage_origin hl
    obtain ⟨m', hm', hprogram₂, hrun₂⟩ := setStage_origin hm
    exact h.distinct i j l' m' hl' hm' (by omega) (by omega)

/-- A loop is made for the current run, which none of the others belongs to. -/
theorem Sole.addLoop (h : r.Sole) (hm : r.marks[l.program]? = some m) (hrun : l.run = m.run)
    (hearlier : ∀ (k : Nat) (l' : PlayLoop), r.loops[k]? = some l' → l'.program = l.program →
      l'.run < l.run) : (r.addLoop l).Sole where
  dated k l' hl' := by
    rcases addLoop_getElem? hl' with hold | ⟨-, rfl⟩
    · exact h.dated k l' hold
    · exact ⟨m, hm, hrun.le⟩
  distinct j k l₁ l₂ hl₁ hl₂ hprograms hruns := by
    rcases addLoop_getElem? hl₁ with hold₁ | ⟨hj, rfl⟩
    · rcases addLoop_getElem? hl₂ with hold₂ | ⟨-, rfl⟩
      · exact h.distinct j k l₁ l₂ hold₁ hold₂ hprograms hruns
      · have := hearlier j l₁ hold₁ hprograms
        omega
    · rcases addLoop_getElem? hl₂ with hold₂ | ⟨hk, -⟩
      · have := hearlier k l₂ hold₂ hprograms.symm
        omega
      · exact hj.trans hk.symm

/-- A mark is changed that leaves the run as it is, or the run goes on and `J` does not have the
program. -/
theorem Awaits.setMark (h : r.Awaits J index run) {i : Nat} {f : Mark → Mark}
    (hf : ∀ m, m.run ≤ (f m).run)
    (hkept : ∀ m, i = index → J index → r.marks[index]? = some m →
      (f m).run = m.run ∧ (f m).playing = m.playing) : (r.setMark i f).Awaits J index run := by
  obtain ⟨m, hm, hle, hheld⟩ := h.begun
  refine ⟨h.earlier, _, setMark_getElem?_of_some hm, ?_⟩
  split
  · rename_i hi
    refine ⟨hle.trans (hf m), fun hJ => ?_⟩
    rw [(hkept m hi hJ hm).1, (hkept m hi hJ hm).2]
    exact hheld hJ
  · exact ⟨hle, hheld⟩

theorem Awaits.setStage (h : r.Awaits J index run) (k : Nat) (stage : Stage) :
    (r.setStage k stage).Awaits J index run := by
  refine ⟨fun j l hl hprogram => ?_, h.begun⟩
  obtain ⟨l', hl', hprogram', hrun⟩ := setStage_origin hl
  exact hrun ▸ h.earlier j l' hl' (hprogram'.trans hprogram)

/-- A run begins. -/
theorem Sole.awaits (h : r.Sole) (hm : r.marks[index]? = some m) :
    (r.setMark index fun m => { m with run := m.run + 1, playing := true }).Awaits J index
      (m.run + 1) := by
  refine ⟨fun k l hl hprogram => ?_, _, setMark_getElem?_of_some hm, ?_⟩
  · obtain ⟨m', hm', hle⟩ := h.dated k l hl
    rw [hprogram, hm] at hm'
    obtain rfl := Option.some.inj hm'
    omega
  · rw [if_pos rfl]
    exact ⟨Nat.le_refl _, fun _ => ⟨rfl, rfl⟩⟩

/-- A loop is made of another program. -/
theorem Awaits.addLoop (h : r.Awaits J index run) (hne : l.program ≠ index) :
    (r.addLoop l).Awaits J index run := by
  refine ⟨fun k l' hl' hprogram => ?_, h.begun⟩
  rcases addLoop_getElem? hl' with hold | ⟨-, rfl⟩
  · exact h.earlier k l' hold hprogram
  · exact absurd hprogram hne

end Roster

/-- The call plays no programs but those in `J`, and stops none of those. -/
def Command.Respects (J : Nat → Prop) : Command → Prop
  | .play index _ => J index
  | .stop index => ¬ J index
  | _ => True

/-- A subscriber does not both play and stop a program: it plays those in `J` alone. -/
def Conduct.Respects (J : Nat → Prop) (react : Conduct) : Prop :=
  ∀ state notice, (react state notice).2.Calls (Command.Respects J)

namespace Computer

/-- The loop of the number is of the program and the run that `l` is of. -/
def LoopOf (k : Nat) (l : PlayLoop) (c : Computer) : Prop :=
  ∃ m, c.loops[k]? = some m ∧ m.program = l.program ∧ m.run = l.run

theorem loopOf_invariant (k : Nat) (l : PlayLoop) :
    Invariant (fun _ => True) fun c => c.Watched ∧ c.LoopOf k l := by
  refine invariant_of_change fun h hd => ?_
  obtain ⟨m, hm, hprogram, hrun⟩ := h
  obtain ⟨m', hm', hprogram', hrun'⟩ := hd.loop hm
  exact ⟨m', hm', hprogram'.trans hprogram, hrun'.trans hrun⟩

/-- The loops and the runs that are due are in order, and subscribers play the programs in `J` and
stop the others. -/
structure Booked (J : Nat → Prop) (due : List (Nat × Nat)) (c : Computer) : Prop where
  watched : c.Watched
  conduct : ∀ s ∈ c.subscribers, Conduct.Respects J s.react
  sole : c.roster.Sole
  awaited : ∀ index run, (index, run) ∈ due → c.roster.Awaits J index run

variable {J : Nat → Prop} {due : List (Nat × Nat)} {c : Computer} {index run : Nat} {p : Program}

theorem Booked.upheld : Upheld (fun _ => True) (Command.Respects J) (Booked J due) where
  watched h := h.watched
  conduct h s hs state notice _ := h.conduct s hs state notice
  machine _ := trivial
  memory _ := trivial
  program _ _ := trivial
  change h hd hbeside :=
    ⟨hd.watched h.watched, hd.conduct h.conduct, hbeside.roster.symm ▸ h.sole,
      hbeside.roster.symm ▸ h.awaited⟩

theorem Booked.modifyProgram (h : c.Booked J due) {f : Program → Program} {g : Mark → Mark}
    (hf : ∀ p, (f p).mark = g p.mark) (hg : ∀ m, m.run ≤ (g m).run)
    (hkept : ∀ run m, (index, run) ∈ due → J index → c.roster.marks[index]? = some m →
      (g m).run = m.run ∧ (g m).playing = m.playing) :
    Booked J due { c with programs := c.programs.modify index f } := by
  have hroster : roster { c with programs := c.programs.modify index f } =
      c.roster.setMark index g := roster_modifyProgram fun p _ => hf p
  refine ⟨h.watched, h.conduct, hroster ▸ h.sole.setMark hg, fun i run hdue => ?_⟩
  rw [hroster]
  refine (h.awaited i run hdue).setMark hg fun m hi hJ hm => ?_
  subst hi
  exact hkept run m hdue hJ hm

theorem Booked.begin (h : c.Booked J due) (hp : c.programs[index]? = some p)
    (hfree : ∀ run, (index, run) ∉ due) : Booked J ((index, p.run + 1) :: due) { c with
      programs :=
        c.programs.modify index fun p => { p with run := p.run + 1, playing := true } } := by
  have hbegun : Booked J due { c with programs := c.programs.modify index fun p =>
      { p with run := p.run + 1, playing := true } } :=
    h.modifyProgram (g := fun m => { m with run := m.run + 1, playing := true }) (fun _ => rfl)
      (fun m => Nat.le_succ m.run) fun run _ hdue => absurd hdue (hfree run)
  refine ⟨hbegun.watched, hbegun.conduct, hbegun.sole, fun i run hdue => ?_⟩
  rcases List.mem_cons.mp hdue with heq | hdue
  · obtain ⟨rfl, rfl⟩ := Prod.mk.inj heq
    rw [roster_modifyProgram (g := fun m => { m with run := m.run + 1, playing := true })
      fun _ _ => rfl]
    exact h.sole.awaits (roster_mark hp)
  · exact hbegun.awaited i run hdue

/-- The new loop belongs to a later run than all that the program has had so far: to the one that is
due, or to one that stops have begun since. -/
theorem Booked.made {l : PlayLoop} (h : c.Booked J ((l.program, run) :: due))
    (hp : c.programs[l.program]? = some p) (hrun : l.run = p.run)
    (hfree : ∀ run, (l.program, run) ∉ due) :
    Booked J due { c with loops := c.loops ++ [l] } := by
  obtain ⟨hearlier, m, hm, hle, -⟩ := h.awaited l.program run List.mem_cons_self
  have hmark := roster_mark hp
  obtain rfl := Option.some.inj (hmark.symm.trans hm)
  refine ⟨h.watched, h.conduct, h.sole.addLoop hmark hrun fun k l' hl' hprogram =>
    (hearlier k l' hl' hprogram).trans_le (hrun ▸ hle), fun i run' hdue => ?_⟩
  refine (h.awaited i run' (List.mem_cons_of_mem _ hdue)).addLoop ?_
  rintro rfl
  exact hfree run' hdue

theorem Booked.drop (h : c.Booked J ((index, run) :: due)) : c.Booked J due :=
  ⟨h.watched, h.conduct, h.sole, fun i run hdue => h.awaited i run (List.mem_cons_of_mem _ hdue)⟩

/-- No run is due of a program that is in `J` and is not playing. -/
theorem Booked.free (h : c.Booked J due) (hJ : J index) (hp : c.programs[index]? = some p)
    (hplaying : p.playing = false) (run : Nat) : (index, run) ∉ due := by
  intro hdue
  obtain ⟨m, hm, -, hheld⟩ := (h.awaited index run hdue).begun
  rw [roster_mark hp] at hm
  obtain rfl := Option.some.inj hm
  have htrue : p.playing = true := (hheld hJ).2
  rw [hplaying] at htrue
  cases htrue

end Computer

namespace Routine

open Computer

variable {J : Nat → Prop} {due : List (Nat × Nat)} {c : Computer} {k : Nat} {l : PlayLoop}

theorem booked_log (record : Record) : Keeps (Booked J due) (log record) :=
  fun _ hc => ⟨hc.watched, hc.conduct, hc.sole, hc.awaited⟩

theorem booked_setAwaited (awaited : Bool) : Keeps (Booked J due) (setAwaited awaited) :=
  fun _ hc => ⟨hc.watched, hc.conduct, hc.sole, hc.awaited⟩

theorem booked_setStepping (index : Nat) (stepping : Bool) :
    Keeps (Booked J due) (setStepping index stepping) := fun _ hc =>
  hc.modifyProgram (g := fun m => { m with stepping }) (fun _ => rfl) (fun m => Nat.le_refl m.run)
    fun _ _ _ _ _ => ⟨rfl, rfl⟩

theorem booked_setStage (k : Nat) (stage : Stage) : Keeps (Booked J due) (setStage k stage) :=
  fun _ hc => ⟨hc.watched, hc.conduct, hc.sole.setStage k stage,
    fun index run hdue => (hc.awaited index run hdue).setStage k stage⟩

theorem on_makeLoop {index : Nat} {q : Program} (hq : c.programs[index]? = some q)
    (delay : Value) : (makeLoop index delay).on c = (.ok c.loops.length, { c with
      loops := c.loops ++ [{ program := index, run := q.run, delay := delayOf q delay }] }) := by
  rw [makeLoop, on_program_bind, hq]
  rfl

section
variable {call : Caller}
  (hcall : ∀ {due command}, command.Respects J → Keeps (Booked J due) (call command))
include hcall

theorem booked_step (index : Nat) : Keeps (Booked J due) (step call index) :=
  Booked.upheld.keeps_step (fun _ h => hcall h) booked_log booked_setStepping index

theorem booked_notify (index : Nat) : Keeps (Booked J due) (notifyProgram call index) :=
  Booked.upheld.keeps_notifyProgram (fun _ h => hcall h) index

theorem booked_stop {index : Nat} (h : ¬ J index ∨ due = []) :
    Keeps (Booked J due) (stop call index) := by
  refine keeps_stop (fun hc _ _ => ?_) (fun record _ => booked_log record)
    (booked_notify hcall index)
  refine hc.modifyProgram (g := fun m => { m with run := m.run + 1, playing := false })
    (fun _ => rfl) (fun m => Nat.le_succ m.run) fun run _ hdue hJ => ?_
  rcases h with h | rfl
  · exact absurd hJ h
  · cases hdue

/-- While the notice of a play is given, the run that it has begun is due. -/
theorem booked_play {index : Nat} (h : J index ∨ due = []) (delay : Value) :
    Keeps (Booked J due) (play call index delay) := by
  intro c hc
  -- Otherwise the loops of two plays would be made for the run that is current when the inner one
  -- has returned.
  have hfree : ∀ p, c.programs[index]? = some p → p.playing = false →
      ∀ run, (index, run) ∉ due := by
    intro p hp hplaying run
    rcases h with hJ | rfl
    · exact hc.free hJ hp hplaying run
    · exact List.not_mem_nil
  refine on_play (S := fun d => ∀ p, c.programs[index]? = some p →
    d.Booked J ((index, p.run + 1) :: due)) hc (fun p hp _ hplaying q hq => ?_)
    (fun record _ d hd p hp => booked_log record d (hd p hp))
    (fun d hd p hp => booked_notify hcall index d (hd p hp))
    (fun d p _ hd hp _ _ _ => ?_) fun d p hd hp _ hplaying _ => ?_
  · obtain rfl : p = q := Option.some.inj (hp.symm.trans hq)
    exact hc.begin hp (hfree p hp hplaying)
  · exact (hd p hp).drop
  · cases hq : d.programs[index]? with
    | none =>
      rw [makeLoop, on_program_bind, hq]
      exact (hd p hp).drop
    | some q =>
      rw [on_makeLoop hq]
      exact (hd p hp).made hq rfl (hfree p hp hplaying)

/-- A run that is due has no loop that could end it. -/
theorem booked_endRun (hc : c.Booked J due) (hloop : c.LoopOf k l) :
    ((endRun call l).on c).2.Booked J due := by
  refine on_endRun (fun _ => hc) (fun p ⟨hp, hcurrent⟩ => ?_) (booked_notify hcall l.program)
  refine hc.modifyProgram (g := fun m => { m with playing := false }) (fun _ => rfl)
    (fun m => Nat.le_refl m.run) fun run m hdue hJ hm => ?_
  -- If a run of the program were due, it would be current, and so the loop would belong to it.
  obtain ⟨l', hl', hprogram, hrun⟩ := hloop
  have hlt := (hc.awaited l.program run hdue).earlier k l' hl' hprogram
  obtain ⟨m', hm', -, hheld⟩ := (hc.awaited l.program run hdue).begun
  rw [roster_mark hp] at hm'
  obtain rfl := Option.some.inj hm'
  have hduerun : p.run = run := (hheld hJ).1
  omega

section
variable (hloop : ∀ k l, KeepsPlay (fun c => c.Watched ∧ c.LoopOf k l) call fun _ => True)
include hloop

theorem booked_tick (k : Nat) : Keeps (Booked J due) (tick call k) := by
  refine keeps_tick booked_setAwaited fun {c l} hc hl _ => ?_
  have hof := (hloop k l).setStage k .running c ⟨hc.watched, l, hl, rfl, rfl⟩
  refine on_resume (S := fun d => d.Booked J due ∧ d.LoopOf k l)
    ⟨keeps_loopStep (booked_step hcall l.program) _ (booked_setStage k .running c hc),
      (keeps_loopStep ((hloop k l).step trivial) _ hof).2⟩
    (fun d hd => booked_setStage k .suspended d hd.1)
    (fun d hd => booked_endRun hcall hd.1 hd.2) (fun record _ => booked_log record)
    (booked_setStage k .ended)

theorem booked_cancel (k : Nat) : Keeps (Booked J due) (cancel call k) := by
  refine fun c hc => on_cancel hc (fun _ _ _ => booked_setStage k .ended c hc) fun l hl _ => ?_
  have hof := (hloop k l).setStage k .running c ⟨hc.watched, l, hl, rfl, rfl⟩
  exact booked_setStage k .ended _
    (booked_endRun hcall (booked_setStage k .running c hc) hof.2)

theorem booked_driving : KeepsDriving (Booked J due) call (Command.Respects J) where
  step index _ := booked_step hcall index
  run index _ := keeps_run (booked_step hcall index)
  play _ delay h := booked_play hcall (.inl h) delay
  stop _ h := booked_stop hcall (.inl h)
  tick k _ := booked_tick hcall hloop k
  cancel k _ := booked_cancel hcall hloop k

end

end

theorem loopOf_play (depth k : Nat) (l : PlayLoop) :
    KeepsPlay (fun c => c.Watched ∧ c.LoopOf k l) (performWithin depth) fun _ => True :=
  (loopOf_invariant k l).keepsPlay ((loopOf_invariant k l).keeps_performWithin depth)

theorem booked_performWithin (depth : Nat) {due : List (Nat × Nat)} {command : Command}
    (h : command.Respects J) : Keeps (Booked J due) (performWithin depth command) := by
  induction depth generalizing due command with
  | zero => exact Keeps.throw _
  | succ depth ih =>
    exact Booked.upheld.keeps_perform (fun _ h => ih h)
      (booked_driving (fun h => ih h) (loopOf_play depth)) h

end Routine

namespace Computer

open Routine

variable {J : Nat → Prop} {due : List (Nat × Nat)} {c : Computer} {w n : Nat} {t : Dispatch}
  {k : Nat} {l : PlayLoop}

theorem perform_play (c : Computer) (index : Nat) (delay : Value) :
    c.perform (.play index delay) =
      (((play (performWithin c.bound) index delay).on c).1.map .loop,
        ((play (performWithin c.bound) index delay).on c).2) := on_bind_pure _ _ c

/-- Between calls no run is due, and whoever makes the next one may play and stop any program. -/
theorem Booked.perform (h : c.Booked J []) (command : Command) :
    (c.perform command).2.Booked J [] := by
  have hcall : ∀ {due} {command : Command}, command.Respects J →
      Keeps (Booked J due) (performWithin c.bound command) :=
    fun hrespects => booked_performWithin c.bound hrespects
  by_cases hrespects : command.Respects J
  · exact Booked.upheld.keeps_perform (fun _ h => hcall h)
      (booked_driving hcall (loopOf_play c.bound)) hrespects c h
  · cases command with
    | play index delay =>
      rw [perform_play]
      exact booked_play hcall (.inr rfl) delay c h
    | stop index => exact Keeps.bind (booked_stop hcall (.inr rfl)) (fun _ => Keeps.pure _) c h
    | _ => exact absurd trivial hrespects

theorem Booked.addProgram (h : c.Booked J []) (p : Program) : (c.addProgram p).Booked J [] := by
  refine ⟨h.watched, h.conduct, h.sole.of_marks rfl fun i m hm => ⟨m, ?_, Nat.le_refl m.run⟩,
    fun _ _ hdue => nomatch hdue⟩
  have hold : (c.programs.map Program.mark)[i]? = some m := hm
  show ((c.programs ++ [p]).map Program.mark)[i]? = some m
  rw [List.map_append]
  exact getElem?_append_of_some hold

theorem Booked.idle {subscribers : List Subscriber} (bound : Nat)
    (hB : ∀ s ∈ subscribers, Conduct.Respects J s.react) :
    Booked J [] { Computer.idle (.zeros w n) t with subscribers, bound } := by
  refine ⟨⟨[], rfl⟩, hB, ⟨fun k l hl => ?_, fun j k l m hl => ?_⟩, fun index run hdue => ?_⟩
  · cases hl
  · cases hl
  · cases hdue

/-- A loop that does anything when it is resumed belongs to the current run. -/
theorem Dated.current (h : c.Dated) {call : Caller} (hl : c.loops[k]? = some l)
    (hacts : ¬ c.Spares ((tick call k).on c).2) :
    ∃ p, c.programs[l.program]? = some p ∧ l.run = p.run := by
  obtain ⟨p, hp, -⟩ := h k l hl
  refine ⟨p, hp, ?_⟩
  by_contra hne
  exact hacts (tick_stale hl hp fun heq => hne heq.symm)

/-- The loops of a program belong to different runs. -/
def Distinct (c : Computer) : Prop := ∀ (j k : Nat) (l m : PlayLoop), c.loops[j]? = some l →
  c.loops[k]? = some m → l.program = m.program → l.run = m.run → j = k

theorem Distinct.alone (h : c.Distinct) (hdated : c.Dated) {call : Caller} {j : Nat} {m : PlayLoop}
    (hl : c.loops[j]? = some l) (hm : c.loops[k]? = some m) (hprogram : l.program = m.program)
    (hj : ¬ c.Spares ((tick call j).on c).2) (hk : ¬ c.Spares ((tick call k).on c).2) : j = k := by
  obtain ⟨p, hp, hrun⟩ := hdated.current hl hj
  obtain ⟨q, hq, hrun'⟩ := hdated.current hm hk
  rw [← hprogram, hp] at hq
  obtain rfl := Option.some.inj hq
  exact h j k l m hl hm hprogram (hrun.trans hrun'.symm)

theorem Stale.addProgram (h : c.Stale k) (p : Program) : (c.addProgram p).Stale k := by
  obtain ⟨l, q, hl, hq, hlt⟩ := h
  exact ⟨l, q, hl, getElem?_append_of_some hq, hlt⟩

end Computer

end Accumulator
