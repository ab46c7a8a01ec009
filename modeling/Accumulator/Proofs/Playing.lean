import Accumulator.Proofs.Stopping

/-! A program is playing just if one of its loops belongs to the current run and has not ended. So
it is between calls, as long as no play fails or is stopped on its own notice, and no loop is
cancelled that has not taken a step, be it by a subscriber: the mark of playing is set before there
is a loop, and only a loop that has begun takes it away when it ends. -/

namespace Accumulator

namespace Roster

/-- One of the loops of a run has not ended and is not about to, as those in `X` are; or the loop is
due. -/
def HasLoop (r : Roster) (due : List (Nat × Nat)) (X : Nat → Prop) (index run : Nat) : Prop :=
  (index, run) ∈ due ∨ ∃ (k : Nat) (l : PlayLoop), ¬ X k ∧ r.loops[k]? = some l ∧
    l.program = index ∧ l.run = run ∧ l.stage ≠ .ended

/-- The run of the program has begun; as long as it is the current one, all loops belong to earlier
runs. -/
def Pends (r : Roster) (index run : Nat) : Prop := ∃ m, r.marks[index]? = some m ∧ run ≤ m.run ∧
  (m.run = run → ∀ (k : Nat) (l : PlayLoop), r.loops[k]? = some l → l.program = index → l.run < run)

/-- The programs that are playing are those that have a loop of the current run. -/
def Truthful (r : Roster) (due : List (Nat × Nat)) (X : Nat → Prop) : Prop :=
  ∀ (index : Nat) (m : Mark), r.marks[index]? = some m →
    (m.playing = true ↔ r.HasLoop due X index m.run)

variable {r : Roster} {due : List (Nat × Nat)} {X : Nat → Prop} {index run k : Nat} {l : PlayLoop}
  {m : Mark}

theorem setMark_getElem? {f : Mark → Mark} {i : Nat}
    (hm : (r.setMark index f).marks[i]? = some m) :
    ∃ m', r.marks[i]? = some m' ∧ m = if index = i then f m' else m' := by
  have hmodify : (r.marks.modify index f)[i]? = some m := hm
  rw [List.getElem?_modify] at hmodify
  obtain ⟨m', hm', rfl⟩ := Option.map_eq_some_iff.mp hmodify
  exact ⟨m', hm', rfl⟩

theorem Pends.setMark (h : r.Pends index run) {i : Nat} {f : Mark → Mark}
    (hf : ∀ m, m.run ≤ (f m).run) : (r.setMark i f).Pends index run := by
  obtain ⟨m, hm, hle, hearlier⟩ := h
  refine ⟨_, setMark_getElem?_of_some hm, ?_⟩
  split
  · exact ⟨hle.trans (hf m), fun hcurrent => hearlier (((hf m).trans_eq hcurrent).antisymm hle)⟩
  · exact ⟨hle, hearlier⟩

theorem Pends.setStage (h : r.Pends index run) (k : Nat) (stage : Stage) :
    (r.setStage k stage).Pends index run := by
  obtain ⟨m, hm, hle, hearlier⟩ := h
  refine ⟨m, hm, hle, fun hcurrent j l hl hprogram => ?_⟩
  obtain ⟨l', hl', hprogram', hrun⟩ := setStage_origin hl
  exact hrun ▸ hearlier hcurrent j l' hl' (hprogram'.trans hprogram)

/-- A loop is made of another run, which is the current one of its program. -/
theorem Pends.addLoop (h : r.Pends index run) (hm : r.marks[l.program]? = some m)
    (hrun : l.run = m.run) (hne : (index, run) ≠ (l.program, l.run)) :
    (r.addLoop l).Pends index run := by
  obtain ⟨m', hm', hle, hearlier⟩ := h
  refine ⟨m', hm', hle, fun hcurrent k l' hl' hprogram => ?_⟩
  rcases addLoop_getElem? hl' with hold | ⟨-, rfl⟩
  · exact hearlier hcurrent k l' hold hprogram
  · subst hprogram
    obtain rfl : m = m' := Option.some.inj (hm.symm.trans hm')
    exact absurd (by rw [hrun, hcurrent]) hne

/-- A run that is begun now has not been due before. -/
theorem Pends.lt_next (h : r.Pends index run) (hm : r.marks[index]? = some m) :
    run < m.run + 1 := by
  obtain ⟨m', hm', hle, -⟩ := h
  obtain rfl : m = m' := Option.some.inj (hm.symm.trans hm')
  exact Nat.lt_succ_of_le hle

theorem Sole.pends (h : r.Sole) (hm : r.marks[index]? = some m) :
    (r.setMark index fun m => { m with run := m.run + 1, playing := true }).Pends index
      (m.run + 1) := by
  refine ⟨_, setMark_getElem?_of_some hm, ?_⟩
  rw [if_pos rfl]
  refine ⟨Nat.le_refl _, fun _ k l hl hprogram => ?_⟩
  obtain ⟨m', hm', hle⟩ := h.dated k l hl
  rw [hprogram, hm] at hm'
  obtain rfl := Option.some.inj hm'
  exact Nat.lt_succ_of_le hle

/-- A mark beside those of playing and of the run is changed. -/
theorem Truthful.setMark (h : r.Truthful due X) {f : Mark → Mark}
    (hplaying : ∀ m, (f m).playing = m.playing) (hrun : ∀ m, (f m).run = m.run) :
    (r.setMark index f).Truthful due X := by
  intro i m hm
  obtain ⟨m', hm', rfl⟩ := setMark_getElem? hm
  have hold := h i m' hm'
  split
  · rw [hplaying, hrun]
    exact hold
  · exact hold

/-- The run of a program that is stopped has no loop yet, and none is due. -/
theorem Truthful.halt (h : r.Truthful due X) (hsole : r.Sole)
    (hdue : ∀ index run, (index, run) ∈ due → r.Pends index run) :
    (r.setMark index fun m => { m with run := m.run + 1, playing := false }).Truthful due X := by
  intro i m hm
  obtain ⟨m', hm', rfl⟩ := setMark_getElem? hm
  split
  · refine iff_of_false (by simp) ?_
    rintro (hnext | ⟨k, l, -, hl, rfl, hrun, -⟩)
    · exact absurd ((hdue i _ hnext).lt_next hm') (Nat.lt_irrefl _)
    · obtain ⟨m'', hm'', hle⟩ := hsole.dated k l hl
      obtain rfl : m' = m'' := Option.some.inj (hm'.symm.trans hm'')
      have hrun' : l.run = m'.run + 1 := hrun
      omega
  · exact h i m' hm'

theorem Truthful.begin (h : r.Truthful due X) (hm : r.marks[index]? = some m) :
    (r.setMark index fun m => { m with run := m.run + 1, playing := true }).Truthful
      ((index, m.run + 1) :: due) X := by
  intro i m' hm'
  obtain ⟨m'', hm'', rfl⟩ := setMark_getElem? hm'
  split
  · rename_i hi
    subst hi
    obtain rfl : m = m'' := Option.some.inj (hm.symm.trans hm'')
    exact iff_of_true rfl (.inl List.mem_cons_self)
  · rename_i hi
    refine (h i m'' hm'').trans (or_congr_left ?_)
    rw [List.mem_cons, Prod.mk.injEq]
    exact (or_iff_right fun heq => hi heq.1.symm).symm

/-- The loop that was due is there. -/
theorem Truthful.made (h : r.Truthful ((l.program, l.run) :: due) X) (hX : ¬ X r.loops.length)
    (hstage : l.stage ≠ .ended) : (r.addLoop l).Truthful due X := by
  intro i m hm
  refine (h i m hm).trans ⟨?_, ?_⟩
  · rintro (hdue | ⟨k, l', hX', hl', hloop⟩)
    · rcases List.mem_cons.mp hdue with heq | hdue
      · obtain ⟨hprogram, hrun⟩ := Prod.mk.inj heq
        exact .inr ⟨r.loops.length, l, hX, List.getElem?_concat_length, hprogram.symm, hrun.symm,
          hstage⟩
      · exact .inl hdue
    · exact .inr ⟨k, l', hX', Computer.getElem?_append_of_some hl', hloop⟩
  · rintro (hdue | ⟨k, l', hX', hl', hprogram, hrun, hlive⟩)
    · exact .inl (List.mem_cons_of_mem _ hdue)
    · rcases addLoop_getElem? hl' with hold | ⟨-, rfl⟩
      · exact .inr ⟨k, l', hX', hold, hprogram, hrun, hlive⟩
      · rw [← hprogram, ← hrun]
        exact .inl List.mem_cons_self

theorem hasLoop_setStage (hl : r.loops[k]? = some l) (hlive : l.stage ≠ .ended) {stage : Stage}
    (hstage : stage ≠ .ended) :
    (r.setStage k stage).HasLoop due X index run ↔ r.HasLoop due X index run := by
  refine or_congr_right ⟨?_, ?_⟩
  · rintro ⟨j, l', hX, hl', hprogram, hrun, hlive'⟩
    rw [setStage_getElem?] at hl'
    obtain ⟨l₀, hl₀, rfl⟩ := Option.map_eq_some_iff.mp hl'
    by_cases hj : k = j
    · subst hj
      obtain rfl : l = l₀ := Option.some.inj (hl.symm.trans hl₀)
      simp only [if_true] at hprogram hrun
      exact ⟨k, l, hX, hl, hprogram, hrun, hlive⟩
    · simp only [if_neg hj] at hprogram hrun hlive'
      exact ⟨j, l₀, hX, hl₀, hprogram, hrun, hlive'⟩
  · rintro ⟨j, l', hX, hl', hprogram, hrun, hlive'⟩
    refine ⟨j, if k = j then { l' with stage } else l', hX, ?_, ?_, ?_, ?_⟩
    · rw [setStage_getElem?, hl']
      rfl
    · split <;> exact hprogram
    · split <;> exact hrun
    · split
      · exact hstage
      · exact hlive'

theorem Truthful.setStage (h : r.Truthful due X) (hl : r.loops[k]? = some l)
    (hlive : l.stage ≠ .ended) {stage : Stage} (hstage : stage ≠ .ended) :
    (r.setStage k stage).Truthful due X := by
  intro i m hm
  rw [hasLoop_setStage hl hlive hstage]
  exact h i m hm

theorem Truthful.close (h : r.Truthful due fun j => k = j ∨ X j) :
    (r.setStage k .ended).Truthful due X := by
  intro i m hm
  refine (h i m hm).trans (or_congr_right ⟨?_, ?_⟩)
  · rintro ⟨j, l, hX, hl, hrest⟩
    refine ⟨j, l, fun hj => hX (.inr hj), ?_, hrest⟩
    rw [setStage_getElem?, hl, Option.map_some, if_neg fun hj => hX (.inl hj)]
  · rintro ⟨j, l, hX, hl, hprogram, hrun, hlive⟩
    rw [setStage_getElem?] at hl
    obtain ⟨l₀, hl₀, rfl⟩ := Option.map_eq_some_iff.mp hl
    by_cases hj : k = j
    · simp [hj] at hlive
    · simp only [if_neg hj] at hprogram hrun hlive
      exact ⟨j, l₀, not_or.mpr ⟨hj, hX⟩, hl₀, hprogram, hrun, hlive⟩

theorem hasLoop_excuse (hne : ∀ l, r.loops[k]? = some l → l.program = index → l.run ≠ run) :
    r.HasLoop due (fun j => k = j ∨ X j) index run ↔ r.HasLoop due X index run := by
  refine or_congr_right ⟨?_, ?_⟩
  · rintro ⟨j, l, hX, h⟩
    exact ⟨j, l, fun hj => hX (.inr hj), h⟩
  · rintro ⟨j, l, hX, hl, hprogram, hrun, hlive⟩
    refine ⟨j, l, ?_, hl, hprogram, hrun, hlive⟩
    rintro (rfl | hj)
    · exact hne l hl hprogram hrun
    · exact hX hj

/-- A loop that is about to end does not count if its run is over already. -/
theorem Truthful.excuse (h : r.Truthful due X) (hl : r.loops[k]? = some l)
    (hstale : ∀ m, r.marks[l.program]? = some m → m.run ≠ l.run) :
    r.Truthful due fun j => k = j ∨ X j := by
  intro i m hm
  rw [hasLoop_excuse fun l' hl' hprogram hrun => ?_]
  · exact h i m hm
  · obtain rfl : l = l' := Option.some.inj (hl.symm.trans hl')
    exact hstale m (hprogram ▸ hm) hrun.symm

/-- The run of a loop that is about to end ends with it, since no other loop belongs to it. -/
theorem Truthful.finish (h : r.Truthful due X) (hsole : r.Sole)
    (hdue : ∀ index run, (index, run) ∈ due → r.Pends index run) (hl : r.loops[k]? = some l)
    (hm : r.marks[l.program]? = some m) (hrun : m.run = l.run) :
    (r.setMark l.program fun m => { m with playing := false }).Truthful due
      fun j => k = j ∨ X j := by
  intro i m' hm'
  obtain ⟨m'', hm'', rfl⟩ := setMark_getElem? hm'
  split
  · rename_i hi
    subst hi
    obtain rfl : m = m'' := Option.some.inj (hm.symm.trans hm'')
    refine iff_of_false (by simp) ?_
    rintro (hcurrent | ⟨j, l', hX, hl', hprogram, hrun', -⟩)
    · obtain ⟨m', hm', -, hearlier⟩ := hdue _ _ hcurrent
      obtain rfl : m = m' := Option.some.inj (hm.symm.trans hm')
      have hlt : l.run < m.run := hearlier rfl k l hl rfl
      omega
    · exact hX (.inl (hsole.distinct k j l l' hl hl' hprogram.symm (hrun.symm.trans hrun'.symm)))
  · rename_i hi
    refine (h i m'' hm'').trans (hasLoop_excuse (r := r) fun l' hl' hprogram => ?_).symm
    obtain rfl : l = l' := Option.some.inj (hl.symm.trans hl')
    exact absurd hprogram hi

end Roster

/-- The call begins no run and cancels no loop. -/
def Command.LeavesLoops : Command → Prop
  | .play .. | .cancel _ => False
  | _ => True

namespace Computer

/-- The call begins a run that it does not come to a loop of, because it fails or because the run is
over by then; or it cancels a loop that has not taken a step. -/
def careless (call : Caller) (c : Computer) : Command → Bool
  | .play index delay => c.programs[index]?.any fun p => !p.isComplete && !p.playing &&
      match (Routine.perform call (.play index delay)).on c with
      | (.ok _, d) => !d.programs[index]?.any fun q => q.run = p.run + 1
      | (.error _, _) => true
  | .cancel k => c.loops[k]?.any fun l => l.stage = .fresh
  | _ => false

/-- A play that is careful comes to a loop if it is not refused, and the run that it has begun is
the current one. -/
theorem play_of_careful {call : Caller} {c : Computer} {index : Nat} {delay : Value} {p : Program}
    (h : c.careless call (.play index delay) = false) (hp : c.programs[index]? = some p)
    (hcomplete : p.isComplete = false) (hplaying : p.playing = false) :
    ∃ k d q, (Routine.play call index delay).on c = (.ok k, d) ∧ d.programs[index]? = some q ∧
      q.run = p.run + 1 := by
  have hon : (Routine.perform call (.play index delay)).on c =
      (((Routine.play call index delay).on c).1.map .loop,
        ((Routine.play call index delay).on c).2) := Routine.on_bind_pure _ _ c
  rw [careless, hp, hon] at h
  rcases hout : (Routine.play call index delay).on c with ⟨fault | k, d⟩
  · rw [hout] at h
    simp [hcomplete, hplaying, Except.map] at h
  · rw [hout] at h
    simp only [Option.any_some, hcomplete, hplaying, Except.map, Bool.not_false, Bool.true_and,
      Bool.not_eq_false', Option.any_eq_true, decide_eq_true_eq] at h
    obtain ⟨q, hq, hrun⟩ := h
    exact ⟨k, d, q, rfl, hq, hrun⟩

theorem careless_play {call : Caller} {c d : Computer} {index : Nat} {delay : Value} {p q : Program}
    {answer : Answer} (hp : c.programs[index]? = some p)
    (hon : (Routine.perform call (.play index delay)).on c = (.ok answer, d))
    (hq : d.programs[index]? = some q) (hrun : q.run = p.run + 1) :
    c.careless call (.play index delay) = false := by
  simp [careless, hp, hon, hq, hrun]

/-- The loops in `R` are running, and those of them in `X` are about to end; the others account for
the programs that are playing, together with the runs that are due. -/
structure Accounted (due : List (Nat × Nat)) (X R : Nat → Prop) (c : Computer) : Prop where
  nested : ∃ steps, c.Nested steps R
  sole : c.roster.Sole
  pending : ∀ index run, (index, run) ∈ due → c.roster.Pends index run
  ending : ∀ k, X k → R k
  truthful : c.roster.Truthful due X

variable {due : List (Nat × Nat)} {X R : Nat → Prop} {c d : Computer} {k : Nat} {l : PlayLoop}

namespace Accounted

theorem watched (h : c.Accounted due X R) : c.Watched := by
  obtain ⟨steps, hnested⟩ := h.nested
  exact hnested.watched

theorem upheld : Upheld (fun _ => True) (fun _ => True) (Accounted due X R) where
  watched h := h.watched
  conduct _ _ _ _ _ _ := Reaction.calls_true _
  machine _ := trivial
  memory _ := trivial
  program _ _ := trivial
  change h hd hbeside := by
    obtain ⟨steps, hnested⟩ := h.nested
    exact ⟨⟨steps, Nested.upheld.change hnested hd hbeside⟩, hbeside.roster.symm ▸ h.sole,
      hbeside.roster.symm ▸ h.pending, h.ending, hbeside.roster.symm ▸ h.truthful⟩

theorem modifyProgram (h : c.Accounted due X R) {Y : Nat → Prop} {index : Nat}
    {f : Program → Program} {g : Mark → Mark} (hf : ∀ p, (f p).mark = g p.mark)
    (hstepping : ∀ p, (f p).stepping = p.stepping) (hrun : ∀ m, m.run ≤ (g m).run)
    (hY : ∀ k, Y k → R k) (htruthful : (c.roster.setMark index g).Truthful due Y) :
    Accounted due Y R { c with programs := c.programs.modify index f } := by
  obtain ⟨steps, hnested⟩ := h.nested
  have hroster : roster { c with programs := c.programs.modify index f } =
      c.roster.setMark index g := roster_modifyProgram fun p _ => hf p
  refine ⟨⟨steps, hnested.modifyProgram hstepping⟩, hroster ▸ h.sole.setMark hrun,
    fun i run hdue => ?_, hY, hroster ▸ htruthful⟩
  rw [hroster]
  exact (h.pending i run hdue).setMark hrun

theorem halt (h : c.Accounted due X R) (index : Nat) : Accounted due X R { c with
    programs := c.programs.modify index fun p => { p with run := p.run + 1, playing := false } } :=
  h.modifyProgram (g := fun m => { m with run := m.run + 1, playing := false }) (fun _ => rfl)
    (fun _ => rfl) (fun m => Nat.le_succ m.run) h.ending (h.truthful.halt h.sole h.pending)

theorem stage (h : c.Accounted due X R) {X' R' : Nat → Prop} {stage : Stage}
    (hnested : ∃ steps, ((Routine.setStage k stage).on c).2.Nested steps R')
    (hX : ∀ j, X' j → R' j) (htruthful : (c.roster.setStage k stage).Truthful due X') :
    ((Routine.setStage k stage).on c).2.Accounted due X' R' :=
  ⟨hnested, h.sole.setStage k stage,
    fun index run hdue => (h.pending index run hdue).setStage k stage, hX, htruthful⟩

theorem begun (h : c.Accounted due X R) (hl : c.loops[k]? = some l) (hlive : l.stage ≠ .ended) :
    ((Routine.setStage k .running).on c).2.Accounted due X fun j => k = j ∨ R j := by
  obtain ⟨steps, hnested⟩ := h.nested
  exact h.stage ⟨steps, Routine.nested_begun hnested hl⟩ (fun j hj => .inr (h.ending j hj))
    (h.truthful.setStage hl hlive (by decide))

theorem slept (h : d.Accounted due X fun j => k = j ∨ R j) (hR : ¬ R k) (hX : ∀ j, X j → R j) :
    ((Routine.setStage k .suspended).on d).2.Accounted due X R := by
  obtain ⟨steps, hnested⟩ := h.nested
  obtain ⟨m, hm, hrunning⟩ := (hnested.running k).mpr (.inl rfl)
  exact h.stage ⟨steps, Routine.nested_over hR hnested (by decide)⟩ hX
    (h.truthful.setStage hm (by simp [hrunning]) (by decide))

theorem closed (h : d.Accounted due (fun j => k = j ∨ X j) fun j => k = j ∨ R j) (hR : ¬ R k)
    (hX : ∀ j, X j → R j) : ((Routine.setStage k .ended).on d).2.Accounted due X R := by
  obtain ⟨steps, hnested⟩ := h.nested
  exact h.stage ⟨steps, Routine.nested_over hR hnested (by decide)⟩ hX h.truthful.close

theorem begin (h : c.Accounted due X R) {index : Nat} {p : Program}
    (hp : c.programs[index]? = some p) : Accounted ((index, p.run + 1) :: due) X R { c with
      programs :=
        c.programs.modify index fun p => { p with run := p.run + 1, playing := true } } := by
  obtain ⟨steps, hnested⟩ := h.nested
  have hroster : roster { c with programs := c.programs.modify index fun p =>
      { p with run := p.run + 1, playing := true } } = c.roster.setMark index fun m =>
        { m with run := m.run + 1, playing := true } := roster_modifyProgram fun _ _ => rfl
  have hmark := roster_mark hp
  refine ⟨⟨steps, hnested.modifyProgram fun _ => rfl⟩,
    hroster ▸ h.sole.setMark fun m => Nat.le_succ m.run, fun i run hdue => ?_, h.ending,
    hroster ▸ h.truthful.begin hmark⟩
  rw [hroster]
  rcases List.mem_cons.mp hdue with heq | hdue
  · obtain ⟨rfl, rfl⟩ := Prod.mk.inj heq
    exact h.sole.pends hmark
  · exact (h.pending i run hdue).setMark fun m => Nat.le_succ m.run

/-- The loop of a run that was due is made while this is the current one. -/
theorem made {q : Program} (h : c.Accounted ((l.program, l.run) :: due) X R)
    (hq : c.programs[l.program]? = some q) (hrun : l.run = q.run) (hfresh : l.stage = .fresh)
    (hnew : (l.program, l.run) ∉ due) : Accounted due X R { c with loops := c.loops ++ [l] } := by
  obtain ⟨steps, hnested⟩ := h.nested
  have hmark := roster_mark hq
  obtain ⟨m, hm, -, hearlier⟩ := h.pending _ _ List.mem_cons_self
  obtain rfl := Option.some.inj (hmark.symm.trans hm)
  have hX : ¬ X c.loops.length := by
    intro hX
    obtain ⟨l', hl', -⟩ := (hnested.running _).mpr (h.ending _ hX)
    exact absurd (List.getElem?_eq_some_iff.mp hl').1 (Nat.lt_irrefl _)
  refine ⟨⟨steps, hnested.watched, hnested.steps, fun k => ?_⟩,
    h.sole.addLoop hmark hrun (hearlier hrun.symm), fun i run hdue => ?_, h.ending,
    h.truthful.made hX (by simp [hfresh])⟩
  · exact (Roster.runs_addLoop (by simp [hfresh]) c.roster k).trans (hnested.running k)
  · refine (h.pending i run (List.mem_cons_of_mem _ hdue)).addLoop hmark hrun ?_
    rintro heq
    exact hnew (heq ▸ hdue)

end Accounted

end Computer

namespace Routine

open Computer

variable {due : List (Nat × Nat)} {X R : Nat → Prop} {c : Computer} {k : Nat} {l : PlayLoop}

theorem accounted_log (record : Record) : Keeps (Accounted due X R) (log record) := fun c hc =>
  ⟨hc.nested.imp fun _ h => nested_log record c h, hc.sole, hc.pending, hc.ending, hc.truthful⟩

theorem accounted_setAwaited (awaited : Bool) : Keeps (Accounted due X R) (setAwaited awaited) :=
  fun c hc => ⟨hc.nested.imp fun _ h => nested_setAwaited awaited c h, hc.sole, hc.pending,
    hc.ending, hc.truthful⟩

theorem accounted_setStepping (index : Nat) (stepping : Bool) :
    Keeps (Accounted due X R) (setStepping index stepping) := by
  intro c hc
  obtain ⟨steps, hnested⟩ := hc.nested
  have hroster : ((setStepping index stepping).on c).2.roster =
      c.roster.setMark index fun m => { m with stepping } := roster_modifyProgram fun _ _ => rfl
  refine ⟨⟨_, hnested.setStepping index stepping⟩,
    hroster ▸ hc.sole.setMark fun m => Nat.le_refl m.run, fun i run hdue => ?_, hc.ending,
    hroster ▸ hc.truthful.setMark (fun _ => rfl) fun _ => rfl⟩
  rw [hroster]
  exact (hc.pending i run hdue).setMark fun m => Nat.le_refl m.run

section
variable {call : Caller}
  (hcall : ∀ {due X R} command, Keeps (Accounted due X R) (call command))
include hcall

theorem accounted_step (index : Nat) : Keeps (Accounted due X R) (step call index) :=
  Accounted.upheld.keeps_step (fun command _ => hcall command) accounted_log accounted_setStepping
    index

theorem accounted_notify (index : Nat) : Keeps (Accounted due X R) (notifyProgram call index) :=
  Accounted.upheld.keeps_notifyProgram (fun command _ => hcall command) index

/-- A loop that is running ends its run, or the run is over already. -/
theorem accounted_endRun {d : Computer} (h : d.Accounted due X fun j => k = j ∨ R j)
    (hloop : d.LoopOf k l) : ((endRun call l).on d).2.Accounted due (fun j => k = j ∨ X j)
      fun j => k = j ∨ R j := by
  obtain ⟨m, hm, hprogram, hrun⟩ := hloop
  have hending : ∀ j, k = j ∨ X j → k = j ∨ R j := fun j hj => hj.elim .inl (h.ending j)
  have hmarks : d.roster.marks[m.program]? = d.programs[l.program]?.map Program.mark := by
    rw [← hprogram]
    exact roster_marks_getElem? d m.program
  refine on_endRun (fun hstale => ?_) (fun p ⟨hp, hcurrent⟩ => ?_)
    (accounted_notify hcall l.program)
  · refine ⟨h.nested, h.sole, h.pending, hending, h.truthful.excuse hm fun m' hm' => ?_⟩
    rw [hmarks] at hm'
    obtain ⟨p, hp, rfl⟩ := Option.map_eq_some_iff.mp hm'
    rw [hrun]
    exact hstale p hp
  · rw [hp] at hmarks
    have hfinish := h.truthful.finish h.sole h.pending hm hmarks (hcurrent.trans hrun.symm)
    rw [hprogram] at hfinish
    exact h.modifyProgram (g := fun m => { m with playing := false }) (fun _ => rfl)
      (fun _ => rfl) (fun m => Nat.le_refl m.run) hending hfinish

/-- While the notice of a play is given, the run that it has begun is due. -/
theorem accounted_play {index : Nat} {delay : Value} (h : c.Accounted due X R)
    (hcareful : c.careless call (.play index delay) = false) :
    ((play call index delay).on c).2.Accounted due X R := by
  refine on_play (S := fun d => ∀ p, c.programs[index]? = some p →
    d.Accounted ((index, p.run + 1) :: due) X R) h (fun p hp _ _ q hq => ?_)
    (fun record _ d hd p hp => accounted_log record d (hd p hp))
    (fun d hd p hp => accounted_notify hcall index d (hd p hp))
    (fun d p fault hd hp hcomplete hplaying hon => ?_)
    fun d p hd hp hcomplete hplaying hon => ?_
  · obtain rfl : p = q := Option.some.inj (hp.symm.trans hq)
    exact h.begin hp
  · obtain ⟨k, e, q, hanswer, -⟩ := play_of_careful hcareful hp hcomplete hplaying
    cases hon.symm.trans hanswer
  · obtain ⟨k, e, q, hanswer, hq, hrun⟩ := play_of_careful hcareful hp hcomplete hplaying
    rw [hon] at hanswer
    cases hd' : d.programs[index]? with
    | none =>
      rw [makeLoop, on_program_bind, hd'] at hanswer
      cases hanswer
    | some q' =>
      rw [on_makeLoop hd'] at hanswer ⊢
      obtain rfl : { d with loops := d.loops ++ [_] } = e := (Prod.mk.inj hanswer).2
      obtain rfl : q' = q := Option.some.inj (hd'.symm.trans hq)
      have hdue := hd p hp
      rw [← hrun] at hdue
      refine hdue.made hd' rfl rfl fun hold => ?_
      have hlt := (h.pending _ _ hold).lt_next (roster_mark hp)
      exact absurd hrun hlt.ne

section
variable (hloop : ∀ k l, KeepsPlay (fun c => c.Watched ∧ c.LoopOf k l) call fun _ => True)
include hloop

theorem accounted_tick (k : Nat) : Keeps (Accounted due X R) (tick call k) := by
  refine keeps_tick accounted_setAwaited fun {c l} hc hl hstage => ?_
  have hidle : l.stage ≠ .running ∧ l.stage ≠ .ended := by rcases hstage with h | h <;> simp [h]
  obtain ⟨steps, hnested⟩ := hc.nested
  have hR := hnested.not_running hl hidle.1
  have hbegun := hc.begun hl hidle.2
  -- The loop counts until its step is over, and is excused while it ends.
  have hof := (hloop k l).setStage k .running c ⟨hc.watched, l, hl, rfl, rfl⟩
  refine on_resume (S := fun d => d.Accounted due X (fun j => k = j ∨ R j) ∧ d.LoopOf k l)
    (E := fun d => d.Accounted due (fun j => k = j ∨ X j) fun j => k = j ∨ R j) ?_
    (fun d hd => hd.1.slept hR hc.ending) (fun d hd => accounted_endRun hcall hd.1 hd.2)
    (fun record _ => accounted_log record) fun d hd => hd.closed hR hc.ending
  exact ⟨keeps_loopStep (accounted_step hcall l.program) _ hbegun,
    (keeps_loopStep ((hloop k l).step trivial) _ hof).2⟩

theorem accounted_cancel (h : c.Accounted due X R)
    (hcareful : c.careless call (.cancel k) = false) :
    ((cancel call k).on c).2.Accounted due X R := by
  refine on_cancel h (fun l hl hstage => ?_) fun l hl hstage => ?_
  · simp [careless, hl, hstage] at hcareful
  · obtain ⟨steps, hnested⟩ := h.nested
    have hR := hnested.not_running hl (by simp [hstage])
    have hof := ((hloop k l).setStage k .running c ⟨h.watched, l, hl, rfl, rfl⟩).2
    have hend := accounted_endRun hcall (h.begun hl (by simp [hstage])) hof
    exact hend.closed hR h.ending

/-- A call that is careful keeps the account, as long as those that are made from inside it do. -/
theorem accounted_perform {command : Command} (h : c.Accounted due X R)
    (hcareful : c.careless call command = false) :
    ((perform call command).on c).2.Accounted due X R := by
  have hdriving : KeepsDriving (Accounted due X R) call Command.LeavesLoops :=
    { step := fun index _ => accounted_step hcall index
      run := fun index _ => keeps_run (accounted_step hcall index)
      play := fun _ _ hleaves => hleaves.elim
      stop := fun index _ => keeps_stop (fun hc _ _ => hc.halt index)
        (fun record _ => accounted_log record) (accounted_notify hcall index)
      tick := fun k _ => accounted_tick hcall hloop k
      cancel := fun _ hleaves => hleaves.elim }
  by_cases hleaves : command.LeavesLoops
  · exact Accounted.upheld.keeps_perform (fun command _ => hcall command) hdriving hleaves c h
  · cases command with
    | play index delay =>
      show ((play call index delay >>= fun k => pure (Answer.loop k)).on c).2.Accounted due X R
      rw [on_bind_pure]
      exact accounted_play hcall h hcareful
    | cancel k => exact accounted_cancel hcall hloop h hcareful
    | _ => exact absurd trivial hleaves

end

end

/-- How a subscriber makes a call if it is refused to be careless. -/
def careful : Nat → Caller
  | 0, _ => throw .nestedTooDeep
  | depth + 1, command => do
    if (← get).careless (careful depth) command then throw .stepInProgress
    else perform (careful depth) command

theorem on_careful (depth : Nat) (command : Command) (c : Computer) :
    (careful (depth + 1) command).on c = if c.careless (careful depth) command then
      (.error .stepInProgress, c) else (perform (careful depth) command).on c := by
  rw [careful, on_get_bind]
  split <;> rfl

theorem keeps_careful {N : Notice → Prop} {P : Computer → Prop} (I : Invariant N P) (depth : Nat)
    (command : Command) : Keeps P (careful depth command) := by
  induction depth generalizing command with
  | zero => exact Keeps.throw _
  | succ depth ih =>
    intro c hc
    rw [on_careful]
    split
    · exact hc
    · exact I.keeps_perform ih command c hc

theorem accounted_careful (depth : Nat) {due : List (Nat × Nat)} {X R : Nat → Prop}
    (command : Command) : Keeps (Accounted due X R) (careful depth command) := by
  induction depth generalizing due X R command with
  | zero => exact Keeps.throw _
  | succ depth ih =>
    intro c hc
    rw [on_careful]
    split
    · exact hc
    · rename_i hcareful
      exact accounted_perform ih
        (fun k l => (loopOf_invariant k l).keepsPlay (keeps_careful (loopOf_invariant k l) depth))
        hc (by simpa using hcareful)

end Routine

namespace Computer

open Routine

variable {c : Computer} {w n : Nat} {t : Dispatch}

/-- The call and all that are made from inside it are careful: it comes to the same if careless ones
are refused. -/
def Careful (c : Computer) (command : Command) : Prop :=
  (careful (c.bound + 1) command).on c = c.perform command

theorem Voiced.careful_eq (h : c.Voiced Command.LeavesLoops) (depth : Nat) {command : Command}
    (hleaves : command.LeavesLoops) :
    (Routine.careful depth command).on c = (performWithin depth command).on c := by
  induction depth generalizing c command with
  | zero => rfl
  | succ depth ih =>
    have hcareful : c.careless (Routine.careful depth) command = false := by
      cases command with
      | play index delay => exact hleaves.elim
      | cancel k => exact hleaves.elim
      | _ => rfl
    rw [on_careful, hcareful]
    exact perform_congr h (fun d command hd => ih hd) command

/-- Subscribers that neither play nor cancel are careful. -/
theorem Voiced.careful (h : c.Voiced Command.LeavesLoops) {command : Command}
    (hcareful : c.careless (performWithin c.bound) command = false) : c.Careful command := by
  have hsame : ∀ command, (Routine.perform (Routine.careful c.bound) command).on c =
      (Routine.perform (performWithin c.bound) command).on c :=
    perform_congr h fun d command hd => hd.careful_eq c.bound
  have hcareful' : c.careless (Routine.careful c.bound) command = false := by
    rw [← hcareful]
    cases command with
    | play index delay => rw [careless, careless, hsame]
    | _ => rfl
  rw [Careful, on_careful, hcareful']
  exact hsame command

/-- Between calls no loop is due, running or about to end. -/
def Settled (c : Computer) : Prop := c.Accounted [] (fun _ => False) fun _ => False

theorem Settled.perform (h : c.Settled) {command : Command} (hcareful : c.Careful command) :
    (c.perform command).2.Settled := by
  have hsettled := accounted_careful (c.bound + 1) command c h
  rwa [hcareful] at hsettled

theorem Settled.addProgram (h : c.Settled) {p : Program} (hplaying : p.playing = false) :
    (c.addProgram p).Settled := by
  obtain ⟨steps, hnested⟩ := h.nested
  have hmap : (c.programs ++ [p]).map Program.mark = c.roster.marks ++ [p.mark] := List.map_append
  refine ⟨⟨_, hnested.watched, rfl, hnested.running⟩, h.sole.of_marks rfl fun i m hm =>
    ⟨m, ?_, Nat.le_refl m.run⟩, (fun _ _ hdue => nomatch hdue), h.ending, fun i m hm => ?_⟩
  · show ((c.programs ++ [p]).map Program.mark)[i]? = some m
    rw [hmap]
    exact getElem?_append_of_some hm
  · have hmarks : ((c.programs ++ [p]).map Program.mark)[i]? = some m := hm
    rw [hmap, List.getElem?_append] at hmarks
    split at hmarks
    · exact h.truthful i m hmarks
    · rename_i hi
      obtain rfl := List.mem_singleton.mp (List.mem_of_getElem? hmarks)
      refine iff_of_false (by simp [Program.mark, hplaying]) ?_
      rintro (hdue | ⟨k, l, -, hl, rfl, -⟩)
      · cases hdue
      · obtain ⟨m', hm', -⟩ := h.sole.dated k l hl
        exact hi (List.getElem?_eq_some_iff.mp hm').1

theorem Settled.idle (subscribers : List Subscriber) (bound : Nat) :
    Settled { Computer.idle (.zeros w n) t with subscribers, bound } := by
  refine ⟨⟨[], ⟨[], rfl⟩, rfl, fun k => ?_⟩, ⟨fun k l hl => ?_, fun j k l m hl => ?_⟩,
    (fun _ _ hdue => nomatch hdue), fun _ h => h, fun i m hm => ?_⟩
  · refine iff_of_false ?_ id
    rintro ⟨l, hl, -⟩
    cases hl
  · cases hl
  · cases hl
  · cases hm

/-- The computers that come of a machine at rest by building programs on it and making careful
calls. -/
inductive Led (w n : Nat) (t : Dispatch) : Computer → Prop
  | idle (subscribers : List Subscriber) (bound : Nat) :
      Led w n t { Computer.idle (.zeros w n) t with subscribers, bound }
  | build {c : Computer} {p : Program} (entries delay : Value) : Led w n t c →
      Program.ofEntries c.machine.memory entries delay = .ok p → Led w n t (c.addProgram p)
  | call {c : Computer} (command : Command) : Led w n t c → c.Careful command →
      Led w n t (c.perform command).2

theorem Led.settled (h : c.Led w n t) : c.Settled := by
  induction h with
  | idle subscribers bound => exact .idle subscribers bound
  | build entries delay _ hp ih =>
    refine ih.addProgram ?_
    rw [(Program.ofEntries_eq_ok hp).1]
  | call command _ hcareful ih => exact ih.perform hcareful

/-- Between calls a program is playing just if one of its loops belongs to the current run and has
not ended: subscribers may fail at any notice but that of a play and make any calls, as long as
these are careful. -/
theorem playing_iff_loop (h : c.Led w n t) {index : Nat} {p : Program}
    (hp : c.programs[index]? = some p) : p.playing = true ↔
      ∃ (k : Nat) (l : PlayLoop), c.loops[k]? = some l ∧ l.program = index ∧ l.run = p.run ∧
        l.stage ≠ .ended := by
  refine (h.settled.truthful index p.mark (roster_mark hp)).trans ⟨?_, ?_⟩
  · rintro (hdue | ⟨k, l, -, hloop⟩)
    · cases hdue
    · exact ⟨k, l, hloop⟩
  · rintro ⟨k, l, hloop⟩
    exact .inr ⟨k, l, id, hloop⟩

/-- A subscriber plays a second program in the midst of the first step of the first one, then
cancels the loop of the first one in the midst of a step of the second one, and fails in the midst
of another, which ends that loop. The first program is played again. -/
theorem playing_iff_loop_failed :
    let meddler : Subscriber := { react := fun state _ => (state + 1,
      match state with
      | 1 => .once (.play 1 .none)
      | 2 => .once (.cancel 0)
      | 3 => .fail (.noEntry .or)
      | _ => .done) }
    let p : Program :=
      { instructions := [⟨.not, none⟩, ⟨.store, some 1⟩], stepDelay := .none }
    let c := (({ idle (.zeros 4 2) .standard with subscribers := [meddler], bound := 1 }.addProgram
      p).addProgram p).performAll [.observe .machine 0, .play 0 .none, .tick 0, .tick 1, .tick 1,
        .play 0 .none]
    let q := { p with phase := .decoded, playing := true, run := 2 }
    c.loops.map PlayLoop.stage = [.ended, .ended, .fresh] ∧
      c.programs.map Program.playing = [true, false] ∧ c.programs[0]? = some q ∧
      (q.playing = true ↔ ∃ (k : Nat) (l : PlayLoop), c.loops[k]? = some l ∧ l.program = 0 ∧
        l.run = q.run ∧ l.stage ≠ .ended) := by
  let entries : Value := .list [.instruction ⟨.not, none⟩, .instruction ⟨.store, some 1⟩]
  refine ⟨by cbv, by cbv, by cbv, playing_iff_loop (w := 4) (n := 2) (t := .standard) ?_ (by cbv)⟩
  refine .call (.play 0 .none) (.call (.tick 1) (.call (.tick 1) (.call (.tick 0)
    (.call (.play 0 .none) (.call (.observe .machine 0)
      (.build entries .none (.build entries .none (.idle _ 1) rfl) rfl) ?_) ?_) ?_) ?_) ?_) ?_
  all_goals cbv

/-- A loop is cancelled before it has taken a step, or a subscriber fails on the notice of a play:
the program stays marked as playing without a loop, and to play it again is refused. -/
theorem playing_without_loop :
    let failing : Subscriber :=
      { react := fun state _ => (state + 1, if state = 1 then .fail (.noEntry .or) else .done) }
    let p : Program :=
      { instructions := [⟨.not, none⟩, ⟨.store, some 1⟩], stepDelay := .none }
    let built := { idle (.zeros 4 2) .standard with subscribers := [failing] }.addProgram p
    let c := built.performAll [.play 0 .none, .cancel 0]
    let d := built.performAll [.observe (.program 0) 0, .play 0 .none]
    c.loops.map PlayLoop.stage = [.ended] ∧ c.programs.map Program.playing = [true] ∧
    (c.perform (.play 0 .none)).1 = .error .alreadyPlaying ∧
    d.loops.length = 0 ∧ d.programs.map Program.playing = [true] ∧
    (d.perform (.play 0 .none)).1 = .error .alreadyPlaying :=
  ⟨by cbv, by cbv, by cbv, by cbv, by cbv, by cbv⟩

end Computer

end Accumulator
