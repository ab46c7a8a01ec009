import Accumulator.Proofs.Nesting
import Accumulator.Proofs.Run
import Mathlib

/-! Stepping a program to its end while subscribers fail. A failure reaches whoever has called the
step, but the phase is over all the same: each call goes through one phase, so that the calls that
it takes, and what they make of the machine and of the program, are those of a computer without
subscribers. -/

namespace Accumulator

theorem Program.Change.address_lt {N : Notice → Prop} {m : Machine} {p q : Program}
    (h : p.Change N m q)
    (hp : ∀ i ∈ p.instructions, ∀ a, i.address = some a → a < m.memory.size) :
    ∀ i ∈ q.instructions, ∀ a, i.address = some a → a < m.memory.size := by
  cases h with
  | insert n i _ hi =>
    intro j hj
    rcases List.eq_or_mem_of_mem_insertIdx hj with rfl | hj
    · exact hi
    · exact hp j hj
  | _ => exact hp

namespace Computer

/-- The addresses in the programs are those of cells. -/
def Addressed (n : Nat) (c : Computer) : Prop :=
  ∀ p ∈ c.programs, ∀ i ∈ p.instructions, ∀ a, i.address = some a → a < n

/-- The computer with all its subscribers taken away. -/
def unwatched (c : Computer) : Computer :=
  { c with
    memoryWatchers := [.dataRegister]
    machineWatchers := []
    programs := c.programs.map fun p => { p with watchers := [] }
    subscribers := [] }

/-- The computer after a number of steps of a program, whatever their outcomes. -/
def stepped (c : Computer) (index k : Nat) : Computer :=
  c.performAll (List.replicate k (.step index))

variable {w n : Nat} {t : Dispatch} {B : Conduct → Prop} {c : Computer} {index first : Nat}
  {s : Progress}

theorem addressed_invariant :
    Invariant (Notice.Sound w n t) fun c => c.Sound w n t B ∧ c.Addressed n where
  watched h := h.1.watched
  machine h := h.1.machine
  memory h := h.1.machine.memory
  program _ _ := trivial
  change {c d} h hchange := by
    refine ⟨Sound.invariant.change h.1 hchange, ?_⟩
    have hsize := h.1.machine.memory.size
    cases hchange with
    | program j f hf =>
      intro q hq
      obtain ⟨k, hk⟩ := List.mem_iff_getElem?.mp hq
      change (c.programs.modify j f)[k]? = some q at hk
      rw [List.getElem?_modify] at hk
      obtain ⟨p, hp, rfl⟩ := Option.map_eq_some_iff.mp hk
      have haddresses := h.2 p (List.mem_of_getElem? hp)
      split
      · rename_i hj
        subst hj
        rw [← hsize] at haddresses ⊢
        exact (hf p hp).address_lt haddresses
      · exact haddresses
    | _ => exact h.2

theorem Reachable.addressed (hn : 0 < n) (h : c.Reachable w n t B) : c.Addressed n := by
  induction h with
  | idle subscribers bound _ => exact fun _ hp => nomatch hp
  | build entries delay hc hp ih =>
    intro q hq
    rcases List.mem_append.mp hq with hq | hq
    · exact ih q hq
    · obtain rfl := List.mem_singleton.mp hq
      rw [← (hc.sound hn).machine.memory.size]
      exact (Program.ofEntries_eq_ok hp).2
  | call command hc ih =>
    exact (addressed_invariant.perform ⟨hc.sound hn, ih⟩ command).2

/-- Between calls every program of a quiet computer is between its steps. -/
theorem Reachable.driven (hn : 0 < n) (h : c.Reachable w n t Conduct.Quiet) {p : Program}
    (hp : c.programs[index]? = some p) :
    c.Driven w n t index c.loops.length (· = p.progress c.machine) where
  sound := h.sound hn
  loops k l hk hl := by
    have hlt := (List.getElem?_eq_some_iff.mp hl).1
    omega
  program := ⟨p, hp, (h.atRest hn).steps p (List.mem_of_getElem? hp), rfl⟩

theorem Reachable.sited (hn : 0 < n) (h : c.Reachable w n .standard B) {p : Program}
    (hp : c.programs[index]? = some p) : (p.progress c.machine).Sited w n :=
  ⟨(h.sound hn).machine, h.addressed hn p (List.mem_of_getElem? hp)⟩

theorem Driven.unwatched (h : c.Driven w n t index first (· = s)) :
    c.unwatched.Driven w n t index first (· = s) := by
  obtain ⟨p, hp, hstepping, hs⟩ := h.program
  have hsound := h.sound
  refine ⟨⟨hsound.machine, hsound.events, hsound.table, ⟨[], rfl⟩, fun _ hr => nomatch hr⟩,
    h.loops, { p with watchers := [] }, ?_, hstepping, hs⟩
  show (c.programs.map _)[index]? = _
  rw [List.getElem?_map, hp]
  rfl

theorem Sound.unwatched (h : c.Sound w n t B) : c.unwatched.Sound w n t Conduct.Records :=
  ⟨h.machine, h.events, h.table, ⟨[], rfl⟩, fun _ hs => nomatch hs⟩

/-- On a quiet computer the step of a program answers that it is complete only if it is so, and
then it changes nothing. -/
theorem Driven.step_false (h : c.Driven w n t index first (· = s)) :
    (c.perform (.step index)).1 = .ok (.flag false) ↔ s.current? = none := by
  obtain ⟨p, hp, hstepping, rfl⟩ := h.program
  rw [Computer.perform_step]
  cases hi : p.current? with
  | none =>
    have hcurrent : (p.progress c.machine).current? = none := hi
    rw [Routine.step_complete hp hstepping hi]
    exact iff_of_true rfl hcurrent
  | some i =>
    have hcurrent : (p.progress c.machine).current? ≠ none := by
      intro hnone
      have : p.current? = none := hnone
      rw [hi] at this
      cases this
    refine iff_of_false ?_ hcurrent
    by_cases hready : (p.progress c.machine).Ready t i
    · have harrives : (Routine.step (Routine.performWithin c.bound) index).Arrives c true _ :=
        Routine.step_arrives h.sound.conduct h.sound hp hstepping hi hready
      rcases harrives.answer with hanswer | ⟨fault, hanswer⟩ <;> rw [hanswer] <;> simp [Except.map]
    · obtain ⟨fault, hrefused⟩ : ∃ fault,
          (Routine.step (Routine.performWithin c.bound) index).on c = (.error fault, _) :=
        Routine.step_refused h.sound.table hp hstepping hi hready
      rw [hrefused]
      simp [Except.map]

/-- The program `p` of `c` is stepped to its end in `k` calls, whatever fails: each of them goes
through exactly one phase, the next one finds the end, and the machine and the program come out as
they do without subscribers, who are not needed for a run either. -/
structure Completes (index k : Nat) (c : Computer) (p : Program) : Prop where
  phase : ∀ j < k, ∃ q r, (c.stepped index j).programs[index]? = some q ∧
    (c.stepped index (j + 1)).programs[index]? = some r ∧
    ((c.stepped index j).perform (.step index)).1 ≠ .ok (.flag false) ∧
    r.progress (c.stepped index (j + 1)).machine =
      (q.progress (c.stepped index j).machine).next .standard ∧
    (r.progress (c.stepped index (j + 1)).machine).gone =
      (q.progress (c.stepped index j).machine).gone + 1
  ended : ((c.stepped index k).perform (.step index)).1 = .ok (.flag false)
  same : ∃ q r, (c.stepped index k).programs[index]? = some q ∧
    (c.unwatched.stepped index k).programs[index]? = some r ∧ r.isComplete = true ∧
    q.progress (c.stepped index k).machine = r.progress (c.unwatched.stepped index k).machine
  run : (p.phase = .decoded → c.machine.isDecoded = true) →
    ∃ executed, c.unwatched.perform (.run index) =
      (.ok (.number executed), c.unwatched.stepped index k)

theorem Driven.completes (h : c.Driven w n .standard index first (· = s)) (hs : s.Sited w n)
    {p : Program} (hprogress : p.progress c.machine = s) : Completes index s.remaining c p := by
  have hat := h.performAll_step
  have hcurrent : ∀ j < s.remaining,
      ∃ i, ((Progress.next .standard)^[j] s).current? = some i := by
    intro j hj
    have hleft := (hs.iterate j).isSome_current?
    rw [hs.remaining_iterate j, decide_eq_true (by omega)] at hleft
    exact Option.isSome_iff_exists.mp hleft
  have hend : ((Progress.next .standard)^[s.remaining] s).current? = none := by
    rw [(hs.iterate _).current?_eq_none, hs.remaining_iterate, Nat.sub_self]
  refine ⟨fun j hj => ?_, ?_, ?_, fun hpending => ?_⟩
  · obtain ⟨i, hi⟩ := hcurrent j hj
    obtain ⟨q, hq, -, hbefore⟩ := (hat j).program
    obtain ⟨r, hr, -, hafter⟩ := (hat (j + 1)).program
    have hnext : r.progress (c.stepped index (j + 1)).machine =
        (q.progress (c.stepped index j).machine).next .standard := by
      refine hafter.trans ?_
      rw [Function.iterate_succ_apply']
      exact congrArg _ hbefore.symm
    refine ⟨q, r, hq, hr, fun hfalse => ?_, hnext, ?_⟩
    · rw [(hat j).step_false.mp hfalse] at hi
      cases hi
    · rw [hnext, show q.progress (c.stepped index j).machine = _ from hbefore]
      exact Progress.gone_next hi fun _ => (hs.iterate j).accepts hi
  · exact (hat s.remaining).step_false.mpr hend
  · obtain ⟨q, hq, -, hbefore⟩ := (hat s.remaining).program
    obtain ⟨r, hr, -, hafter⟩ := (h.unwatched.performAll_step s.remaining).program
    refine ⟨q, r, hq, hr, ?_, hbefore.trans hafter.symm⟩
    have hlength := List.getElem?_eq_none_iff.mp hend
    rw [← hafter] at hlength
    exact decide_eq_true hlength
  · refine ⟨_, h.unwatched.perform_run h.sound.unwatched hs fun hphase => ?_⟩
    rw [← hprogress] at hphase ⊢
    exact hpending hphase

/-- Subscribers of any kind may fail at any of their notices: from any state, to step a program
again and again goes through each phase that is left exactly once, and comes to the same end as
without subscribers. -/
theorem completes_whatever_fails (hn : 0 < n) (h : c.Reachable w n .standard Conduct.Quiet)
    {p : Program} (hp : c.programs[index]? = some p) :
    Completes index (2 * (p.length - p.counter) - if p.phase = .decoded then 1 else 0) c p :=
  (h.driven hn hp).completes (h.sited hn hp) rfl

/-- All three sources are watched, and two of three notices fail, beginning with the first one; the
first instruction is decoded. -/
theorem completes_whatever_fails_decoded :
    let failing : Subscriber :=
      { react := fun state _ =>
          (state + 1, if state % 3 = 2 then .done else .fail (.noEntry .or)) }
    let p : Program :=
      { instructions := [⟨.not, none⟩, ⟨.store, some 1⟩], stepDelay := .none }
    let c := ({ idle (.zeros 4 2) .standard with
      subscribers := [failing, failing, failing] }.addProgram p).performAll
        [.observe .memory 0, .observe .machine 1, .observe (.program 0) 2, .step 0]
    let q := { p with phase := .decoded, watchers := [2] }
    c.programs[0]? = some q ∧ (c.perform (.step 0)).1 = .error (.noEntry .or) ∧
      Completes 0 3 c q := by
  intro failing p c q
  have h : c.Reachable 4 2 .standard Conduct.Quiet := by
    refine .performAll (.build (.list [.instruction ⟨.not, none⟩, .instruction ⟨.store, some 1⟩])
      .none (.idle _ 0 fun s hs => ?_) rfl) _
    obtain rfl : s = failing := by simpa using hs
    intro state notice
    by_cases hstate : state % 3 = 2
    · exact .inl (if_pos hstate)
    · exact .inr ⟨_, if_neg hstate⟩
  have hq : c.programs[0]? = some q := rfl
  have hfails : (c.perform (.step 0)).1 = .error (.noEntry .or) := by cbv
  exact ⟨hq, hfails, completes_whatever_fails (by decide) h hq⟩

end Computer

end Accumulator
