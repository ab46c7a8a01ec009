import Accumulator.Proofs.Completion
import Accumulator.Proofs.Preparing
import Accumulator.Proofs.Resuming

/-! Playing on the command line. The loop of a play sleeps after each step but the last, and comes
to the state that a run at once comes to; an interrupt in a pause leaves the state that the steps so
far come to. -/

namespace Accumulator

namespace Progress

/-- Each instruction before the counter has its entry in the trace. -/
def Counted (s : Progress) : Prop := s.trace.length = s.counter

/-- The entries of the trace are of instructions of the program and of sound machines. -/
def Traced (w n : Nat) (s : Progress) : Prop :=
  ∀ e ∈ s.trace, e.pre.Sound w n .standard ∧ e.post.Sound w n .standard ∧
    e.instruction ∈ s.instructions

variable {w n : Nat} {t : Dispatch} {s : Progress}

theorem Counted.next (h : s.Counted) : (s.next t).Counted := by
  cases hi : s.current? with
  | none => rwa [next_complete hi]
  | some i =>
    cases hphase : s.phase with
    | fetch =>
      by_cases haccepts : s.machine.Accepts t i
      · rwa [next_accepted hi hphase haccepts]
      · rw [next_refused hi hphase haccepts, fetched]
        split <;> exact h
    | decoded =>
      rw [next_decoded hi hphase]
      simpa [Counted, finished] using h

theorem Counted.iterate (h : s.Counted) (k : Nat) : ((Progress.next t)^[k] s).Counted :=
  Function.Iterate.rec Counted h (fun _ hs => hs.next) k

theorem Traced.next (h : s.Traced w n) (hs : s.Sited w n) : (s.next .standard).Traced w n := by
  rcases next_trace .standard s with htrace | ⟨i, hi, -, hnext⟩
  · rw [Traced, htrace, next_instructions]
    exact h
  · rw [Traced, next_instructions, hnext]
    intro e he
    rcases List.mem_append.mp he with he | he
    · exact h e he
    · obtain rfl := List.mem_singleton.mp he
      exact ⟨hs.machine, hs.machine.executed, List.mem_of_getElem? hi⟩

theorem Traced.iterate (h : s.Traced w n) (hs : s.Sited w n) (k : Nat) :
    ((Progress.next .standard)^[k] s).Traced w n := by
  induction k generalizing s with
  | zero => exact h
  | succ k ih =>
    rw [Function.iterate_succ_apply]
    exact ih (h.next hs) hs.next

/-- As long as there are phases left, each step goes through one. -/
theorem Sited.gone_iterate (hs : s.Sited w n) {k : Nat} (hk : k ≤ s.remaining) :
    ((Progress.next .standard)^[k] s).gone = s.gone + k := by
  induction k with
  | zero => rfl
  | succ k ih =>
    have hleft := (hs.iterate k).isSome_current?
    rw [hs.remaining_iterate k, decide_eq_true (by omega)] at hleft
    obtain ⟨i, hi⟩ := Option.isSome_iff_exists.mp hleft
    rw [Function.iterate_succ_apply', gone_next hi fun _ => (hs.iterate k).accepts hi,
      ih (by omega)]
    omega

end Progress

namespace CommandLine

open Computer Routine

/-- A computer with the one program `is`, which is to be played with a delay and has not begun. -/
structure SetUp (w n : Nat) (seconds : Number.Binary64) (is : List Instruction) (c : Computer) :
    Prop where
  sound : c.Sound w n .standard Conduct.Records
  programs : c.programs = [{ instructions := is, stepDelay := .float seconds }]
  loops : c.loops = []
  awaited : c.awaited = false
  addresses : ∀ i ∈ is, ∀ a, i.address = some a → a < n
  size : n ≤ Capacity.cells

/-- The machine and the program that the options ask for are set up. -/
theorem SetUp.of_setUp {o : Options} {seconds : Number.Binary64} {c : Computer}
    (hdelay : o.delay = some seconds) (h : setUp o = .ok c) :
    ∃ w n is, SetUp w n seconds is c := by
  obtain ⟨w, n, m, is, hprepared, rfl⟩ := setUp_eq_ok h
  rw [hdelay]
  refine ⟨w, n, is, ?_, rfl, rfl, rfl, hprepared.addresses, hprepared.size⟩
  exact hprepared.sound _

/-! ### The loop -/

section

variable {w n : Nat} {o : Options} {seconds : Number.Binary64} {c c' d : Computer} {a : Answer}

/-- Without the verbose option a call prints nothing, and what it has noted is forgotten. -/
theorem perform_leaves (command : Command) (hverbose : o.verbose = false)
    (h : Leaves w n (Routine.perform (performWithin c'.bound) command) c a d)
    (hc : c.Noted c') (hs : c'.Sound w n .standard Conduct.Records) :
    ∃ d', perform o.verbose command c' = (.ok a, [], d') ∧ d.Noted d' ∧
      d'.Sound w n .standard Conduct.Records := by
  obtain ⟨hanswer, hnoted, hsound⟩ := h c' hc hs
  refine ⟨{ (c'.perform command).2 with events := [], journal := [] }, ?_, ?_, ?_⟩
  · rw [hverbose]
    exact congrArg (·, [], _) hanswer
  · refine hnoted.trans ⟨[], [], _, rfl, rfl⟩
  · exact ⟨hsound.machine, fun e he => by simp at he, hsound.table, hsound.watched, hsound.conduct⟩

/-- The play of the program of `c` has come as far as `s`, and its loop is at a stage. -/
structure Stands (w n : Nat) (c : Computer) (p : Program) (run : Nat)
    (seconds : Number.Binary64) (playing : Bool) (stage : Stage) (s : Progress) (d : Computer) :
    Prop where
  noted : (c.during p run (.float seconds) playing stage false s).Noted d
  sound : d.Sound w n .standard Conduct.Records

variable {p : Program} {run : Nat} {stage : Stage} {s : Progress}

theorem Stands.tick (h : Stands w n c p run seconds true stage s d) (hp : p.stepping = false)
    (hstage : stage = .fresh ∨ stage = .suspended) (hs : s.Regular w n) (hleft : 0 < s.remaining)
    (hverbose : o.verbose = false) : ∃ d',
    if 1 < s.remaining then
      perform o.verbose (.tick 0) d = (.ok (.sleep (.float seconds)), [], d') ∧
        Stands w n c p run seconds true .suspended (s.next .standard) d'
    else
      perform o.verbose (.tick 0) d = (.ok .ended, [], d') ∧
        Stands w n c p run seconds false .ended (s.next .standard) d' := by
  have hcurrent := hs.sited.isSome_current?
  rw [decide_eq_true hleft] at hcurrent
  obtain ⟨i, hi⟩ := Option.isSome_iff_exists.mp hcurrent
  have hnext := hs.sited.next.isSome_current?
  have hremaining := hs.sited.remaining_next hi
  have htick := tick_leaves (w := w) (n := n) c p run (.float seconds) true false
    (Sound.invariant.keeps_performWithin d.bound) hp hi (hs.sited.ready hi hs.pending) hstage
  by_cases hmore : 1 < s.remaining
  · simp only [if_pos hmore]
    rw [hnext, if_pos (by simp; omega)] at htick
    obtain ⟨d', hd', hnoted, hsound⟩ := perform_leaves (.tick 0) hverbose htick h.noted h.sound
    exact ⟨d', hd', hnoted, hsound⟩
  · simp only [if_neg hmore]
    rw [hnext, if_neg (by simp; omega)] at htick
    obtain ⟨d', hd', hnoted, hsound⟩ := perform_leaves (.tick 0) hverbose htick h.noted h.sound
    exact ⟨d', hd', hnoted, hsound⟩

/-- Without an interrupt in one of its pauses the loop takes all the steps that are left, and sleeps
after each of them but the last. -/
theorem playOn_finished (hp : p.stepping = false) (hverbose : o.verbose = false)
    (hdelay : o.delay = some seconds) {limit : Nat} {interrupt : Option Nat}
    (h : Stands w n c p run seconds true stage s d) (hstage : stage = .fresh ∨ stage = .suspended)
    (hs : s.Regular w n) (hleft : 0 < s.remaining) (hlimit : s.remaining ≤ limit)
    (hlate : ∀ k ∈ interrupt, s.remaining ≤ k) :
    ∃ d', playOn o limit interrupt d =
        (List.replicate (s.remaining - 1) (.pause seconds), .finished, d') ∧
      Stands w n c p run seconds false .ended ((Progress.next .standard)^[s.remaining] s) d' := by
  induction limit generalizing d s interrupt stage with
  | zero => omega
  | succ limit ih =>
    obtain ⟨d', htick⟩ := h.tick hp hstage hs hleft hverbose
    by_cases hmore : 1 < s.remaining
    · rw [if_pos hmore] at htick
      obtain ⟨htick, hd'⟩ := htick
      have hremaining := hs.sited.remaining_iterate 1
      simp only [Function.iterate_one] at hremaining
      have hnot : interrupt ≠ some 1 := by
        rintro rfl
        have := hlate 1 rfl
        omega
      have hlater : ∀ k ∈ interrupt.map (· - 1), (s.next .standard).remaining ≤ k := by
        intro k hk
        obtain ⟨j, hj, rfl⟩ := Option.map_eq_some_iff.mp hk
        have := hlate j hj
        omega
      obtain ⟨e, he, hstands⟩ := ih hd' (.inr rfl) hs.next (by omega) (by omega) hlater
      refine ⟨e, ?_, ?_⟩
      · rw [playOn, htick]
        simp only [hdelay, if_neg hnot, he, hremaining]
        rw [List.nil_append, show s.remaining - 1 = s.remaining - 1 - 1 + 1 by omega,
          List.replicate_succ]
        rfl
      · rw [hremaining, ← Function.iterate_succ_apply, Nat.succ_eq_add_one,
          Nat.sub_add_cancel hleft] at hstands
        exact hstands
    · rw [if_neg hmore] at htick
      obtain ⟨htick, hd'⟩ := htick
      have hone : s.remaining = 1 := by omega
      refine ⟨d', ?_, ?_⟩
      · rw [playOn, htick, hone]
        rfl
      · rw [hone]
        exact hd'

/-- An interrupt in a pause ends the play after as many steps as there were pauses. -/
theorem playOn_interrupted (hp : p.stepping = false) (hverbose : o.verbose = false)
    (hdelay : o.delay = some seconds) {limit k : Nat}
    (h : Stands w n c p run seconds true stage s d) (hstage : stage = .fresh ∨ stage = .suspended)
    (hs : s.Regular w n) (hk : 0 < k) (hearly : k < s.remaining) (hlimit : s.remaining ≤ limit) :
    ∃ d', playOn o limit (some k) d = (List.replicate k (.pause seconds), .interrupted, d') ∧
      Stands w n c p run seconds false .ended ((Progress.next .standard)^[k] s) d' := by
  induction limit generalizing d s k stage with
  | zero => omega
  | succ limit ih =>
    obtain ⟨d', htick⟩ := h.tick hp hstage hs (by omega) hverbose
    rw [if_pos (by omega)] at htick
    obtain ⟨htick, hd'⟩ := htick
    have hremaining := hs.sited.remaining_iterate 1
    simp only [Function.iterate_one] at hremaining
    by_cases hone : k = 1
    · subst hone
      have hcancel := cancel_leaves (w := w) (n := n) c p run (.float seconds) true false
        (s.next .standard) (Sound.invariant.keeps_performWithin d'.bound)
      obtain ⟨e, he, hnoted, hsound⟩ := perform_leaves (.cancel 0) hverbose hcancel hd'.noted
        hd'.sound
      refine ⟨e, ?_, hnoted, hsound⟩
      rw [playOn, htick]
      simp only [hdelay, he]
      rfl
    · obtain ⟨e, he, hstands⟩ := ih (k := k - 1) hd' (.inr rfl) hs.next (by omega) (by omega)
        (by omega)
      refine ⟨e, ?_, ?_⟩
      · rw [playOn, htick]
        simp only [hdelay, Option.some.injEq, if_neg hone, Option.map_some, he]
        rw [List.nil_append, show k = k - 1 + 1 by omega, List.replicate_succ]
        rfl
      · rw [← Function.iterate_succ_apply, Nat.succ_eq_add_one, Nat.sub_add_cancel hk] at hstands
        exact hstands

end

/-! ### Reports -/

/-- How far the program of a computer has come on its machine. -/
def progressOf (c : Computer) : Progress := (programOf c).progress c.machine

/-- The report of what has been put out and of the state that a run ends in. -/
def closing (o : Options) (outputs : List Output) (c : Computer) : Except Fault Report := do
  return ⟨0, outputs ++ (← stateLines o c).map .line⟩

theorem stateLines_eq (o : Options) (c : Computer) : stateLines o c =
    (if o.trace then traceLines (programOf c) else .ok []) >>= fun trace =>
      (if o.quiet then c.machine.memory.writtenNonZeroLines else fullLines c) >>= fun state =>
        pure (trace ++ state) := by
  unfold stateLines
  cases o.trace <;> cases o.quiet <;> rfl

/-- What is printed of a state depends on the progress alone. -/
theorem stateLines_congr {o : Options} {d e : Computer} (h : progressOf d = progressOf e) :
    stateLines o d = stateLines o e := by
  have machine : d.machine = e.machine := congrArg Progress.machine h
  have instructions : (programOf d).instructions = (programOf e).instructions :=
    congrArg Progress.instructions h
  have counter : (programOf d).counter = (programOf e).counter := congrArg Progress.counter h
  have trace : (programOf d).trace = (programOf e).trace := congrArg Progress.trace h
  simp only [stateLines_eq, traceLines, fullLines, Program.writtenTrace, Program.traceText,
    Program.summary, Program.isComplete, Program.length, machine, instructions, counter, trace]
  rfl

theorem closing_congr {o : Options} {d e : Computer} (h : progressOf d = progressOf e)
    (outputs : List Output) : closing o outputs d = closing o outputs e := by
  rw [closing, closing, stateLines_congr h]

section

variable {w n : Nat} {o : Options} {seconds : Number.Binary64} {is : List Instruction}
  {c d : Computer}

namespace SetUp

variable (h : SetUp w n seconds is c)
include h

theorem programOf_eq : programOf c = { instructions := is, stepDelay := .float seconds } := by
  rw [programOf, h.programs]
  rfl

theorem progressOf_eq : progressOf c = ⟨c.machine, is, 0, .fetch, []⟩ := by
  rw [progressOf, h.programOf_eq]
  rfl

theorem driven : c.Driven w n .standard 0 0 (· = progressOf c) where
  sound := h.sound.imp fun _ hr => hr.quiet
  loops k l _ hl := by
    rw [h.loops] at hl
    cases hl
  program := ⟨_, by rw [h.programs]; rfl, rfl, by rw [h.progressOf_eq]; rfl⟩

theorem regular : (progressOf c).Regular w n := by
  rw [h.progressOf_eq]
  exact ⟨h.sound.machine, h.addresses, Nat.zero_le _, fun hphase => nomatch hphase⟩

theorem remaining_eq : (progressOf c).remaining = 2 * is.length := by
  rw [h.progressOf_eq]
  rfl

theorem progressOf_stepped (k : Nat) :
    progressOf (c.stepped 0 k) = (Progress.next .standard)^[k] (progressOf c) := by
  obtain ⟨p, hp, -, hprogress⟩ := (h.driven.performAll_step k).program
  have hfirst : programOf (c.stepped 0 k) = p := by
    have hget : (c.stepped 0 k).programs[0]? = some p := hp
    rw [programOf, List.headD_eq_head?_getD, List.head?_eq_getElem?, hget]
    rfl
  rw [progressOf, hfirst]
  exact hprogress

end SetUp

theorem Stands.progressOf_eq {p : Program} {run : Nat} {playing : Bool} {stage : Stage}
    {s : Progress} (h : Stands w n c p run seconds playing stage s d) : progressOf d = s := by
  obtain ⟨_, _, _, rfl, -⟩ := h.noted
  rfl

theorem play_begun (h : SetUp w n seconds is c) (hverbose : o.verbose = false) (hne : is ≠ []) :
    ∃ d, Stands w n c (programOf c) 1 seconds true .fresh (progressOf c) d ∧
      ∀ interrupt, play o interrupt c = playOn o (2 * is.length + 1) interrupt d := by
  have hp := h.programOf_eq
  have hcomplete : (programOf c).isComplete = false := by
    rw [hp]
    simpa [Program.isComplete, Program.length] using hne
  have hplay := play_leaves (w := w) (n := n) (Sound.invariant.keeps_performWithin c.bound)
    (p := programOf c) (by rw [hp, h.programs]) h.loops (by rw [hp]) hcomplete
  obtain ⟨d, hd, hnoted, hsound⟩ := perform_leaves (o := o) (.play 0 .none) hverbose
    (hplay.bind (.pure (Answer.loop 0) _)) (.refl c) h.sound
  rw [h.awaited, show (programOf c).stepDelay = .float seconds by rw [hp],
    show (programOf c).run = 0 by rw [hp]] at hnoted
  refine ⟨d, ⟨hnoted, hsound⟩, fun interrupt => ?_⟩
  have hlength : (programOf c).length = is.length := by rw [hp]; rfl
  simp only [play, hverbose, Bool.false_eq_true, if_false, hcomplete, hlength]
  rw [hverbose] at hd
  simp only [hd, List.nil_append]

theorem play_finished (h : SetUp w n seconds is c) (hverbose : o.verbose = false)
    (hdelay : o.delay = some seconds) {interrupt : Option Nat}
    (hlate : ∀ k ∈ interrupt, 2 * is.length ≤ k) :
    ∃ d, play o interrupt c =
        (List.replicate (2 * is.length - 1) (.pause seconds), .finished, d) ∧
      progressOf d = progressOf (c.stepped 0 (2 * is.length)) := by
  rw [h.progressOf_stepped, ← h.remaining_eq]
  by_cases hne : is = []
  · have hcomplete : (programOf c).isComplete = true := by
      rw [h.programOf_eq, hne]
      rfl
    refine ⟨c, ?_, ?_⟩
    · simp [play, hverbose, hcomplete, h.remaining_eq, hne]
    · simp [h.remaining_eq, hne]
  · obtain ⟨d, hstands, hplay⟩ := play_begun h hverbose hne
    have hpos := List.length_pos_iff.mpr hne
    have hremaining := h.remaining_eq
    have hlimit : (progressOf c).remaining ≤ 2 * is.length + 1 := by omega
    rw [← hremaining] at hlate
    obtain ⟨e, he, hended⟩ := playOn_finished (by rw [h.programOf_eq]) hverbose hdelay hstands
      (.inl rfl) h.regular (by omega) hlimit hlate
    exact ⟨e, (hplay interrupt).trans he, hended.progressOf_eq⟩

/-- An interrupt in a pause ends the play in the state that the steps so far come to. -/
theorem play_interrupted (h : SetUp w n seconds is c) (hverbose : o.verbose = false)
    (hdelay : o.delay = some seconds) {k : Nat} (hk : 0 < k) (hearly : k < 2 * is.length) :
    ∃ d, play o (some k) c = (List.replicate k (.pause seconds), .interrupted, d) ∧
      Stands w n c (programOf c) 1 seconds false .ended (progressOf (c.stepped 0 k)) d := by
  rw [h.progressOf_stepped]
  have hne : is ≠ [] := by
    rintro rfl
    simp at hearly
  obtain ⟨d, hstands, hplay⟩ := play_begun h hverbose hne
  have hremaining := h.remaining_eq
  have hlimit : (progressOf c).remaining ≤ 2 * is.length + 1 := by omega
  obtain ⟨e, he, hended⟩ := playOn_interrupted (by rw [h.programOf_eq]) hverbose hdelay hstands
    (.inl rfl) h.regular hk (by omega) hlimit
  exact ⟨e, (hplay (some k)).trans he, hended⟩

theorem runAtOnce_finished (h : SetUp w n seconds is c) (hverbose : o.verbose = false) :
    ∃ d, runAtOnce o c = ([], .finished, d) ∧
      progressOf d = progressOf (c.stepped 0 (2 * is.length)) := by
  have hrun := h.driven.perform_run h.sound h.regular.sited h.regular.pending
  rw [h.remaining_eq] at hrun
  refine ⟨(drain false (c.stepped 0 (2 * is.length))).2, ?_, rfl⟩
  rw [runAtOnce, perform, hrun, hverbose]
  rfl

end

/-! ### Numbers that can be written -/

section

variable {w n : Nat}

theorem written_eq_ok {α : Type} {numbers : List Nat} (h : ∀ k ∈ numbers, k < Number.decimalBound)
    (a : α) : written numbers a = .ok a :=
  if_pos (List.all_eq_true.mpr fun k hk => decide_eq_true (h k hk))

theorem written_cells {m : Memory} (hw : 2 ^ w ≤ Number.decimalBound) (h : m.Sound w n) :
    ∃ lines, m.writtenNonZeroLines = .ok lines :=
  ⟨_, written_eq_ok (fun k hk => (h.cells k hk).trans_le hw) _⟩

theorem written_registers {m : Machine} (hw : 2 ^ w ≤ Number.decimalBound)
    (hn : n ≤ Number.decimalBound) (h : m.Sound w n .standard) :
    ∃ text, m.writtenRegisterList = .ok text := by
  refine ⟨_, written_eq_ok (fun k hk => ?_) _⟩
  have haddress := h.address.trans_le hn
  simp only [Machine.registerNumbers, List.mem_append, List.mem_cons, List.not_mem_nil, or_false,
    List.mem_flatMap, Option.mem_toList, Instruction.args] at hk
  rcases hk with (rfl | rfl | rfl) | ⟨i, hi, ha⟩
  · exact h.accumulator.trans_le hw
  · exact haddress
  · rw [h.data]
    exact (h.memory.cell_lt _).trans_le hw
  · rwa [← h.selected i k hi ha]

theorem mem_changedCells {e : TraceEntry} {a old new : Nat} (h : (a, old, new) ∈ e.changedCells) :
    old ∈ e.pre.memory.cells ∧ new ∈ e.post.memory.cells := by
  obtain ⟨⟨⟨o, p⟩, b⟩, hmem, hsome⟩ := List.mem_filterMap.mp h
  by_cases hsame : o = p
  · simp [hsame] at hsome
  · simp only [hsame, if_false, Option.some.injEq, Prod.mk.injEq] at hsome
    obtain ⟨-, rfl, rfl⟩ := hsome
    exact List.of_mem_zip (List.fst_mem_of_mem_zipIdx hmem)

theorem written_entry {e : TraceEntry} (hw : 2 ^ w ≤ Number.decimalBound)
    (hn : n ≤ Number.decimalBound) (hpre : e.pre.Sound w n .standard)
    (hpost : e.post.Sound w n .standard) (hi : ∀ a, e.instruction.address = some a → a < n) :
    ∀ k ∈ e.numbers, k < Number.decimalBound := by
  intro k hk
  simp only [TraceEntry.numbers, List.mem_append] at hk
  rcases hk with (hk | hk) | hk
  · exact (hi k (Option.mem_toList.mp hk)).trans_le hn
  · split at hk
    · cases hk
    · rcases List.mem_pair.mp hk with rfl | rfl
      exacts [hpre.accumulator.trans_le hw, hpost.accumulator.trans_le hw]
  · obtain ⟨⟨a, old, new⟩, hchanged, hk⟩ := List.mem_flatMap.mp hk
    obtain ⟨hold, hnew⟩ := mem_changedCells hchanged
    rcases List.mem_pair.mp hk with rfl | rfl
    exacts [(hpre.memory.cells _ hold).trans_le hw, (hpost.memory.cells _ hnew).trans_le hw]

theorem closing_eq_ok {o : Options} {c : Computer} (hw : 2 ^ w ≤ Number.decimalBound)
    (hn : n ≤ Number.decimalBound) (hs : (progressOf c).Sited w n)
    (htraced : (progressOf c).Traced w n) (outputs : List Output) :
    ∃ lines, closing o outputs c = .ok ⟨0, outputs ++ lines⟩ := by
  have hmachine : c.machine.Sound w n .standard := hs.machine
  have htrace : ∃ lines, (if o.trace then traceLines (programOf c) else .ok []) = .ok lines := by
    split
    · refine ⟨[(programOf c).traceText, rule], ?_⟩
      rw [traceLines, Program.writtenTrace, written_eq_ok fun k hk => ?_]
      · rfl
      · obtain ⟨e, he, hk⟩ := List.mem_flatMap.mp hk
        obtain ⟨hpre, hpost, hi⟩ := htraced e he
        exact written_entry hw hn hpre hpost (hs.addresses _ hi) k hk
    · exact ⟨[], rfl⟩
  have hstate : ∃ lines, (if o.quiet then c.machine.memory.writtenNonZeroLines else fullLines c) =
      .ok lines := by
    split
    · exact written_cells hw hmachine.memory
    · obtain ⟨text, htext⟩ := written_registers hw hn hmachine
      exact ⟨_, by rw [fullLines, htext]; rfl⟩
  obtain ⟨trace, htrace⟩ := htrace
  obtain ⟨state, hstate⟩ := hstate
  refine ⟨(trace ++ state).map .line, ?_⟩
  rw [closing, stateLines_eq, htrace, hstate]
  rfl

end

/-- What the command line comes to with the option to play and without it. `c` is the computer that
it sets up. -/
structure PlaysAsRun (o : Options) (seconds : Number.Binary64) (c : Computer) : Prop where
  /-- A play that is not interrupted prints what a run prints, and exits as it does. -/
  same : (run { o with play := true } none).map (fun r => (r.exit, r.lines)) =
    (run { o with play := false } none).map fun r => (r.exit, r.lines)
  played : run { o with play := true } none =
    closing o (opening o c ++ List.replicate (2 * (programOf c).length - 1) (.pause seconds))
      (c.stepped 0 (2 * (programOf c).length))
  /-- It sleeps so often even if its report cannot be written. -/
  slept : (play o none c).1 = List.replicate (2 * (programOf c).length - 1) (.pause seconds)
  interrupted : ∀ k, 1 ≤ k → k ≤ 2 * (programOf c).length - 1 →
    run { o with play := true } (some k) =
      closing o (opening o c ++ List.replicate k (.pause seconds) ++ [.line "Stopped"])
        (c.stepped 0 k)
  stopped : ∀ k, 1 ≤ k → k ≤ 2 * (programOf c).length - 1 →
    (programOf (c.stepped 0 k)).trace.length = k / 2 ∧
    (programOf (c.stepped 0 k)).length = (programOf c).length ∧
    (programOf (c.stepped 0 k)).isComplete = false
  late : ∀ k, 2 * (programOf c).length - 1 < k →
    run { o with play := true } (some k) = run { o with play := true } none
  /-- The report is made, with the exit code of success, if the words have no more digits than can
  be written. -/
  written : 2 ^ c.machine.memory.wordSize ≤ Number.decimalBound → ∀ outputs k,
    ∃ lines, closing o outputs (c.stepped 0 k) = .ok ⟨0, outputs ++ lines⟩

section

variable {w n : Nat} {o : Options} {seconds : Number.Binary64} {is : List Instruction}
  {c : Computer}

/-- A run that finishes is reported with the state that it ends in. -/
theorem run_finished {interrupt : Option Nat} {outputs : List Output} {d : Computer}
    (hset : setUp o = .ok c)
    (h : (if o.play then play o interrupt c else runAtOnce o c) = (outputs, .finished, d)) :
    run o interrupt = closing o (opening o c ++ outputs) d := by
  rw [run, hset]
  simp only [h, bind, Except.bind]
  rfl

theorem run_interrupted {k : Nat} {outputs : List Output} {p : Program} {s : Progress}
    {d : Computer} (hset : setUp o = .ok c) (hplay : o.play = true) (hverbose : o.verbose = false)
    (h : play o (some k) c = (outputs, .interrupted, d))
    (hd : Stands w n c p 1 seconds false .ended s d) :
    run o (some k) = closing o (opening o c ++ outputs ++ [.line "Stopped"]) d := by
  obtain ⟨e, he, hnoted, -⟩ := perform_leaves (o := o) (.stop 0) hverbose
    (stop_leaves.bind (.pure Answer.nothing _)) hd.noted hd.sound
  have hstate : progressOf e = progressOf d := by
    rw [hd.progressOf_eq]
    obtain ⟨_, _, _, rfl, -⟩ := hnoted
    rfl
  rw [← closing_congr hstate, run, hset]
  simp only [hplay, if_true, h, he, closing, List.append_nil, List.append_assoc]
  cases stateLines o e <;> rfl

theorem SetUp.playsAsRun (h : SetUp w n seconds is c) (hset : setUp o = .ok c)
    (hverbose : o.verbose = false) (hdelay : o.delay = some seconds) : PlaysAsRun o seconds c := by
  have hlength : (programOf c).length = is.length := by rw [h.programOf_eq]; rfl
  have hplayed : ∀ interrupt : Option Nat, (∀ k ∈ interrupt, 2 * is.length ≤ k) →
      run { o with play := true } interrupt =
        closing o (opening o c ++ List.replicate (2 * is.length - 1) (.pause seconds))
          (c.stepped 0 (2 * is.length)) := by
    intro interrupt hlate
    obtain ⟨d, hd, hprogress⟩ :=
      play_finished (o := { o with play := true }) h hverbose hdelay hlate
    rw [run_finished (o := { o with play := true }) hset hd, ← closing_congr hprogress]
    rfl
  have hrun : run { o with play := false } none =
      closing o (opening o c) (c.stepped 0 (2 * is.length)) := by
    obtain ⟨d, hd, hprogress⟩ := runAtOnce_finished (o := { o with play := false }) h hverbose
    rw [run_finished (o := { o with play := false }) hset hd, ← closing_congr hprogress,
      List.append_nil]
    rfl
  rw [← hlength] at hplayed hrun
  have hremaining := h.remaining_eq
  constructor
  case same =>
    rw [hplayed none (by simp), hrun, closing, closing]
    cases stateLines o (c.stepped 0 (2 * (programOf c).length)) with
    | error fault => rfl
    | ok lines =>
      simp [Except.map, bind, Except.bind, pure, Except.pure, Report.lines,
        List.filterMap_replicate_of_none]
  case played => exact hplayed none (by simp)
  case slept =>
    have hlate : ∀ k ∈ (none : Option Nat), 2 * is.length ≤ k := nofun
    obtain ⟨d, hd, -⟩ := play_finished h hverbose hdelay hlate
    rw [hd, hlength]
  case interrupted =>
    intro k hk hle
    obtain ⟨d, hd, hstands⟩ := play_interrupted (o := { o with play := true }) h hverbose hdelay
      (k := k) (by omega) (by omega)
    rw [run_interrupted (o := { o with play := true }) hset rfl hverbose hd hstands,
      ← closing_congr hstands.progressOf_eq]
    rfl
  case stopped =>
    intro k hk hle
    have hprogress := h.progressOf_stepped k
    have hgone := h.regular.sited.gone_iterate (k := k) (by omega)
    have hcounted := Progress.Counted.iterate (t := .standard) (s := progressOf c)
      (by rw [h.progressOf_eq]; rfl) k
    have hinstructions := Progress.instructions_iterate .standard (progressOf c) k
    have hleft := h.regular.sited.remaining_iterate k
    rw [← hprogress] at hgone hcounted hinstructions hleft
    rw [show (progressOf c).gone = 0 by rw [h.progressOf_eq]; rfl, Progress.gone] at hgone
    have hinstructions : (programOf (c.stepped 0 k)).instructions = is := by
      rw [h.progressOf_eq] at hinstructions
      exact hinstructions
    have hcounter : (programOf (c.stepped 0 k)).counter = (progressOf (c.stepped 0 k)).counter :=
      rfl
    refine ⟨?_, ?_, ?_⟩
    · have : (programOf (c.stepped 0 k)).trace.length = (programOf (c.stepped 0 k)).counter :=
        hcounted
      split at hgone <;> omega
    · rw [hlength, Program.length, hinstructions]
    · rw [Program.isComplete, Program.length, hinstructions, decide_eq_false_iff_not, hcounter]
      rw [Progress.remaining,
        show (progressOf (c.stepped 0 k)).instructions = is from hinstructions] at hleft
      omega
  case late =>
    intro k hk
    rw [hplayed none (by simp), hplayed (some k) (by rintro _ ⟨⟩; omega)]
  case written =>
    intro hw outputs k
    have hsound := h.sound.machine.memory
    rw [hsound.wordSize] at hw
    have hn : n ≤ Number.decimalBound := h.size.trans (by decide +kernel)
    have hsited := h.regular.sited.iterate k
    have htraced := Progress.Traced.iterate (s := progressOf c) (w := w) (n := n)
      (by rw [h.progressOf_eq]; simp [Progress.Traced]) h.regular.sited k
    rw [← h.progressOf_stepped k] at hsited htraced
    exact closing_eq_ok hw hn hsited htraced outputs

end

theorem setUp_of_length {o : Options} {k : Nat}
    (h : (match setUp o with
      | .ok c => (programOf c).length
      | .error _ => 0) = k + 1) : ∃ c, setUp o = .ok c ∧ (programOf c).length = k + 1 := by
  cases hset : setUp o with
  | error fault =>
    rw [hset] at h
    cases h
  | ok c =>
    rw [hset] at h
    exact ⟨c, rfl, h⟩

/-- Whatever the program, the sizes, the writes and the other options are: to play is to run, with
a pause after each step but the last, and an interrupt in a pause leaves the state after as many
steps as there were pauses. -/
theorem plays_as_run {o : Options} {seconds : Number.Binary64} {c : Computer}
    (hset : setUp o = .ok c) (hverbose : o.verbose = false) (hdelay : o.delay = some seconds) :
    PlaysAsRun o seconds c := by
  obtain ⟨w, n, is, h⟩ := SetUp.of_setUp hdelay hset
  exact h.playsAsRun hset hverbose hdelay

/-- The adder on words of four bits, with its trace. -/
theorem plays_as_run_adder :
    let o : Options :=
      { inline := some adderPass
        wordSize := some 4
        memorySize := some 3
        assignments := [some ⟨0, 3⟩, some ⟨1, 6⟩]
        delay := some Program.defaultDelay
        trace := true }
    ∃ c, setUp o = .ok c ∧ (programOf c).length = 9 ∧ PlaysAsRun o Program.defaultDelay c := by
  intro o
  obtain ⟨c, hset, hlength⟩ := setUp_of_length (o := o) (k := 8) (by decide +kernel)
  exact ⟨c, hset, hlength, plays_as_run hset rfl rfl⟩

/-- The cells cannot be listed after the interrupt if one has more digits than can be written: the
command line comes to no report. -/
theorem interrupted_unwritable :
    let o : Options :=
      { inline := some "not"
        wordSize := some 14285
        memorySize := some 1
        assignments := [some ⟨0, -1⟩]
        play := true
        delay := some Program.defaultDelay
        quiet := true }
    (∃ c, setUp o = .ok c ∧ (programOf c).length = 1) ∧
      ∃ fault, run o (some 1) = .error fault ∧ fault.kind = .invalidValue := by
  intro o
  refine ⟨setUp_of_length (by decide +kernel), ?_⟩
  have hrefused : (match run o (some 1) with
      | .ok _ => false
      | .error fault => decide (fault.kind = .invalidValue)) = true := by decide +kernel
  cases hrun : run o (some 1) with
  | error fault =>
    rw [hrun] at hrefused
    exact ⟨fault, rfl, of_decide_eq_true hrefused⟩
  | ok report =>
    rw [hrun] at hrefused
    cases hrefused

end CommandLine

end Accumulator
