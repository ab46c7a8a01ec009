import Accumulator.Proofs.Playing
import Accumulator.Proofs.Tending
import Accumulator.Workbench.Desk

/-! What the panels of a session show. They are told of each change of the machine and of the
program, and so the last that they have heard of either is how it is, between any two moves at a
desk. No move leaves a failure behind. -/

namespace Accumulator

/-- The machine that a notice shows. -/
def Notice.machine? : Notice → Option Machine
  | .machine m => some m
  | _ => none

/-- The program that a notice shows. -/
def Notice.program? : Notice → Option ProgramView
  | .program v => some v
  | _ => none

/-- A list in which every value that is found is the same has that value first, or what follows it
is looked through. -/
theorem findSome?_append_of_forall {α β : Type} {f : α → Option β} {items rest : List α} {b : β}
    (hall : ∀ a ∈ items, ∀ b', f a = some b' → b' = b)
    (h : (∃ a ∈ items, (f a).isSome = true) ∨ rest.findSome? f = some b) :
    (items ++ rest).findSome? f = some b := by
  rw [List.findSome?_append]
  cases hfound : items.findSome? f with
  | none =>
    rcases h with ⟨a, ha, hsome⟩ | hrest
    · rw [List.findSome?_eq_none_iff.mp hfound a ha] at hsome
      cases hsome
    · exact hrest
  | some b' =>
    obtain ⟨a, ha, hb'⟩ := List.exists_of_findSome?_eq_some hfound
    rw [hall a ha b' hb']
    rfl

namespace Computer

/-- The panels watch the machine and the one program, once each. -/
structure Overseen (c : Computer) (p : Program) : Prop where
  programs : c.programs = [p]
  machine : c.machineWatchers = [Workbench.Session.panels]
  program : p.watchers = [Workbench.Session.panels]

/-- The events tell last of this machine and of this view of the program. -/
structure Reflects (events : List Event) (m : Machine) (v : ProgramView) : Prop where
  machine : events.findSome? (fun e => e.notice.machine?) = some m
  program : events.findSome? (fun e => e.notice.program?) = some v

variable {c d : Computer} {p q : Program} {sources : List Source} {events : List Event}
  {m : Machine} {v : ProgramView}

theorem notice_of_mem_fanOut {source : Source} {e : Event} (he : e ∈ d.fanOut source) :
    d.shown? source = some e.notice := by
  unfold fanOut at he
  split at he
  · cases he
  · rename_i notice hshown
    obtain ⟨k, -, rfl⟩ := List.mem_map.mp he
    exact hshown

theorem machine_of_shown {source : Source} {notice : Notice}
    (hs : d.shown? source = some notice) (hm : notice.machine? = some m) : m = d.machine := by
  cases source with
  | memory =>
    obtain rfl := Option.some.inj hs
    cases hm
  | machine =>
    obtain rfl := Option.some.inj hs
    exact (Option.some.inj hm).symm
  | program j =>
    obtain ⟨r, -, rfl⟩ := Option.map_eq_some_iff.mp hs
    cases hm

namespace Overseen

theorem program_zero (h : d.Overseen q) : d.programs[0]? = some q := by
  rw [h.programs]
  rfl

theorem of_eq (h : c.Overseen p) (hp : d.programs = c.programs)
    (hm : d.machineWatchers = c.machineWatchers) : d.Overseen p :=
  ⟨hp.trans h.programs, hm.trans h.machine, h.program⟩

theorem noted (h : c.Overseen p) (hd : c.Noted d) : d.Overseen p := by
  obtain ⟨_, _, _, rfl, -⟩ := hd
  exact h.of_eq rfl rfl

theorem view_of_shown (h : d.Overseen q) {source : Source} {notice : Notice}
    (hs : d.shown? source = some notice) (hv : notice.program? = some v) : v = q.view := by
  cases source with
  | memory =>
    obtain rfl := Option.some.inj hs
    cases hv
  | machine =>
    obtain rfl := Option.some.inj hs
    cases hv
  | program j =>
    obtain ⟨r, hr, rfl⟩ := Option.map_eq_some_iff.mp hs
    have hmem := List.mem_of_getElem? hr
    rw [h.programs] at hmem
    obtain rfl := List.mem_singleton.mp hmem
    exact (Option.some.inj hv).symm

theorem machine_fanOut (h : d.Overseen q) :
    ⟨Workbench.Session.panels, .machine, .machine d.machine, d.machine⟩ ∈ d.fanOut .machine := by
  simp only [fanOut, shown?, audience, h.machine, List.map_cons, List.mem_cons, true_or]

theorem program_fanOut (h : d.Overseen q) :
    ⟨Workbench.Session.panels, .program 0, .program q.view, d.machine⟩ ∈
      d.fanOut (.program 0) := by
  rw [fanOut_program h.program_zero, h.program]
  exact List.mem_cons_self

end Overseen

/-- Sources that are told of are reflected as they are, and what is not told of stays as it was. -/
theorem Reflects.fanOut (h : Reflects events m v) (hd : d.Overseen q)
    (hmachine : .machine ∈ sources ∨ d.machine = m)
    (hprogram : .program 0 ∈ sources ∨ q.view = v) :
    Reflects ((sources.flatMap d.fanOut).reverse ++ events) d.machine q.view := by
  have hnotice : ∀ e ∈ (sources.flatMap d.fanOut).reverse,
      ∃ source, d.shown? source = some e.notice := by
    intro e he
    obtain ⟨source, -, hmem⟩ := List.mem_flatMap.mp (List.mem_reverse.mp he)
    exact ⟨source, notice_of_mem_fanOut hmem⟩
  have htold : ∀ source ∈ sources, ∀ e ∈ d.fanOut source,
      e ∈ (sources.flatMap d.fanOut).reverse := fun source hsource e he =>
    List.mem_reverse.mpr (List.mem_flatMap.mpr ⟨source, hsource, he⟩)
  constructor
  · refine findSome?_append_of_forall (fun e he m' hm' => ?_) ?_
    · obtain ⟨source, hs⟩ := hnotice e he
      exact machine_of_shown hs hm'
    · rcases hmachine with hmem | rfl
      · exact .inl ⟨_, htold _ hmem _ hd.machine_fanOut, rfl⟩
      · exact .inr h.machine
  · refine findSome?_append_of_forall (fun e he v' hv' => ?_) ?_
    · obtain ⟨source, hs⟩ := hnotice e he
      exact hd.view_of_shown hs hv'
    · rcases hprogram with hmem | rfl
      · exact .inl ⟨_, htold _ hmem _ hd.program_fanOut, rfl⟩
      · exact .inr h.program

/-- The panels watch, and the last that they have heard is how things are. -/
structure Shows (c : Computer) (p : Program) : Prop where
  overseen : c.Overseen p
  reflects : Reflects c.events c.machine p.view

theorem Shows.of_tells {α : Type} {routine : Routine α} {outcome : Except Fault α} {es : List Event}
    (htells : routine.Tells c outcome d es) (hd : d.Overseen q)
    (h : Reflects (es.reverse ++ c.events) d.machine q.view) : (routine.on c).2.Shows q := by
  refine ⟨hd.noted htells.state, ?_⟩
  rw [htells.events, htells.state.machine]
  exact h

end Computer

/-- The execution of what a sound machine has pending changes the machine. -/
theorem Progress.machine_mem_sources {s : Progress} {i : Instruction}
    (hready : s.Ready .standard i) : .machine ∈ s.sources .standard := by
  unfold Progress.Ready at hready
  unfold Progress.sources
  split
  · exact List.mem_cons_self
  · rename_i hphase
    simp only [hphase] at hready
    obtain ⟨op, hop⟩ := Option.isSome_iff_exists.mp hready
    rw [Machine.pendingSources, hop, Option.bind_some, Machine.lookup_standard]
    cases op <;> simp [Operation.sources]

namespace Program

/-- The program after a stop. -/
def halt (p : Program) : Program :=
  if p.playing then { p with run := p.run + 1, playing := false } else p

/-- The program after a play has begun. -/
def begin (p : Program) : Program := { p with run := p.run + 1, playing := true }

/-- The program after a step on a machine. -/
def nextOn (p : Program) (m : Machine) : Program := p.put ((p.progress m).next .standard)

/-- The program after a step of its loop, which ends when nothing is left. -/
def looped (p : Program) (m : Machine) : Program :=
  if (p.nextOn m).isComplete then { p.nextOn m with playing := false } else p.nextOn m

end Program

namespace Computer

variable {w n k : Nat} {c : Computer} {p : Program} {l : PlayLoop}

namespace Overseen

theorem put (h : c.Overseen p) (s : Progress) : (c.put 0 p s).Overseen (p.put s) := by
  refine ⟨?_, h.machine, h.program⟩
  show c.programs.set 0 (p.put s) = _
  rw [h.programs]
  rfl

theorem modify (h : c.Overseen p) {f : Program → Program} (hf : (f p).watchers = p.watchers) :
    Overseen { c with programs := c.programs.modify 0 f } (f p) := by
  refine ⟨?_, h.machine, hf.trans h.program⟩
  show c.programs.modify 0 f = _
  rw [h.programs]
  rfl

end Overseen

namespace Shows

variable (h : c.Shows p) (ht : c.Tended w n)
include h ht

/-- What a step has changed it has told of. -/
theorem reflects_step {d : Computer}
    (hd : d.Overseen (p.nextOn c.machine))
    (hmachine : d.machine = ((p.progress c.machine).next .standard).machine) :
    Reflects ((((p.progress c.machine).stepSources .standard 0).flatMap d.fanOut).reverse ++
      c.events) d.machine (p.nextOn c.machine).view := by
  have hp := h.overseen.program_zero
  cases hi : (p.progress c.machine).current? with
  | none =>
    have hstay : (p.progress c.machine).next .standard = p.progress c.machine :=
      Progress.next_complete hi
    refine h.reflects.fanOut hd (.inr ?_) (.inr ?_)
    · rw [hmachine, hstay]
      rfl
    · rw [Program.nextOn, hstay]
      rfl
  | some i =>
    have hready := (ht.orderly hp).ready hi
    have hsources : (p.progress c.machine).stepSources .standard 0 =
        (p.progress c.machine).sources .standard ++ [.program 0] := by
      rw [Progress.stepSources, hi]
      exact if_pos hready
    refine h.reflects.fanOut hd (.inl ?_) (.inl ?_) <;> rw [hsources]
    · exact List.mem_append_left _ (Progress.machine_mem_sources hready)
    · exact List.mem_append_right _ List.mem_cons_self

theorem step : (c.perform (.step 0)).2.Shows (p.nextOn c.machine) :=
  .of_tells (ht.step_tells h.overseen.program_zero) (h.overseen.put _)
    (h.reflects_step ht (h.overseen.put _) rfl)

theorem stop : (c.perform (.stop 0)).2.Shows p.halt := by
  have hp := h.overseen.program_zero
  have hd : (c.halted p).Overseen p.halt := by
    unfold halted Program.halt
    split
    · exact h.overseen.modify (f := fun p => { p with run := p.run + 1, playing := false }) rfl
    · exact h.overseen
  have hmachine : (c.halted p).machine = c.machine := by
    unfold halted
    split <;> rfl
  refine .of_tells (ht.stop_tells hp) hd (h.reflects.fanOut hd (.inr hmachine) ?_)
  unfold Program.halt
  split
  · exact .inl List.mem_cons_self
  · exact .inr rfl

theorem play (hcomplete : p.isComplete = false) (hplaying : p.playing = false) (delay : Value) :
    (c.perform (.play 0 delay)).2.Shows p.begin := by
  have hbegun := h.overseen.modify (f := fun p => { p with run := p.run + 1, playing := true }) rfl
  have hd : (c.begun p delay).Overseen p.begin := hbegun.of_eq rfl rfl
  have hreflects : Reflects (([Source.program 0].flatMap (c.begun p delay).fanOut).reverse ++
      c.events) _ _ := h.reflects.fanOut hd (.inr rfl) (.inl List.mem_cons_self)
  rw [List.flatMap_singleton] at hreflects
  exact .of_tells (ht.play_tells h.overseen.program_zero hcomplete hplaying delay) hd hreflects

omit ht in
theorem play_refused (hrefused : p.isComplete = true ∨ p.playing = true) (delay : Value) :
    (c.perform (.play 0 delay)).2 = c := by
  have hp := h.overseen.program_zero
  rw [perform_play]
  cases hcomplete : p.isComplete with
  | true => rw [Routine.play_complete hp hcomplete]
  | false =>
    rw [Routine.play_again hp hcomplete (hrefused.resolve_left (by simp [hcomplete]))]

/-- A loop whose run is current takes a step, and tells of the program again if it ends with it. -/
theorem tick (hl : c.loops[k]? = some l) (hstage : l.stage = .fresh ∨ l.stage = .suspended)
    (hrun : p.run = l.run) : (c.perform (.tick k)).2.Shows (p.looped c.machine) := by
  have hp := h.overseen.program_zero
  have htells : (Routine.perform (Routine.performWithin c.bound) (.tick k)).Tells c _ _ _ :=
    ht.tick_tells hp hl hstage hrun
  let e := (c.resuming k).put 0 p ((p.progress c.machine).next .standard)
  have he : e.Overseen (p.nextOn c.machine) :=
    (h.overseen.of_eq (d := c.resuming k) rfl rfl).put _
  have hstep := h.reflects_step ht he rfl
  have hcomplete : (p.nextOn c.machine).isComplete =
      !((p.progress c.machine).next .standard).current?.isSome :=
    (p.nextOn c.machine).isComplete_eq
  rw [Program.looped, hcomplete]
  cases hleft : ((p.progress c.machine).next .standard).current?.isSome with
  | true =>
    simp only [hleft, if_true] at htells
    refine .of_tells htells (he.of_eq rfl rfl) ?_
    simp only [leavingSources, List.flatMap_nil, List.append_nil]
    exact hstep
  | false =>
    simp only [hleft, Bool.false_eq_true, if_false] at htells
    have hended := he.modify (f := fun p => { p with playing := false }) rfl
    have hd : (e.leftOff k l (.ok none)).Overseen { p.nextOn c.machine with playing := false } := by
      refine hended.of_eq ?_ rfl
      rw [← ht.driven.loops k l (Nat.zero_le k) hl]
      rfl
    have hleaving : Source.program 0 ∈ leavingSources l (.ok none) := by
      show Source.program 0 ∈ [Source.program l.program]
      rw [ht.driven.loops k l (Nat.zero_le k) hl]
      exact List.mem_cons_self
    refine .of_tells htells (hd.of_eq rfl rfl) ?_
    rw [List.reverse_append, List.append_assoc]
    exact hstep.fanOut hd (.inr rfl) (.inl hleaving)

theorem tick_else (hother : ∀ l, c.loops[k]? = some l →
    l.stage = .fresh ∨ l.stage = .suspended → p.run ≠ l.run) :
    (c.perform (.tick k)).2.Shows p := by
  obtain ⟨answer, d, htells, hpassed⟩ : ∃ answer d,
      (Routine.perform (Routine.performWithin c.bound) (.tick k)).Tells c (.ok answer) d [] ∧
        c.Passed k d := ht.tick_tells_else h.overseen.program_zero hother
  refine .of_tells htells (h.overseen.of_eq hpassed.programs hpassed.watchers) ?_
  rw [hpassed.machine]
  exact h.reflects

end Shows

end Computer

/-- The machine has no part in it. -/
theorem Computer.Settled.withMachine {c : Computer} (h : c.Settled) (m : Machine) :
    Settled { c with machine := m } := by
  obtain ⟨steps, hnested⟩ := h.nested
  exact ⟨⟨steps, hnested.watched, hnested.steps, hnested.running⟩, h.sole, h.pending, h.ending,
    h.truthful⟩

theorem Computer.settled_manned (m : Machine) (is : List Instruction) (delay : Value) :
    (manned m { instructions := is, stepDelay := delay }).Settled := by
  have hidle : Settled { Computer.idle (.zeros 1 1) .standard with
      subscribers := [.recorder], bound := 0 } := .idle [.recorder] 0
  exact (hidle.addProgram (p := { instructions := is, stepDelay := delay }) rfl).withMachine m

theorem Computer.Tended.voiced {w n : Nat} {c : Computer} (h : c.Tended w n) :
    c.Voiced Command.LeavesLoops := by
  refine ⟨h.calm.attended.sound.watched, fun s hs state notice => ?_⟩
  rw [h.recording s hs state notice]
  trivial

namespace Workbench.Session

open Computer

/-- A session whose panels show how things are, and whose loops have left no failures. -/
structure Kept (w n : Nat) (p : Program) (s : Session) : Prop where
  tended : s.computer.Tended w n
  settled : s.computer.Settled
  shows : s.computer.Shows p
  failures : s.failures = []

variable {w n k : Nat} {p q : Program} {s : Session} {l : PlayLoop}

namespace Kept

theorem program_zero (h : s.Kept w n p) : s.computer.programs[0]? = some p :=
  h.shows.overseen.program_zero

theorem serves (h : s.Kept w n p) : s.computer.Serves p := h.tended.serves h.program_zero

theorem perform (h : s.Kept w n p) (command : Command) (hdrives : command.Drives 0 0)
    (hcareful : s.computer.careless (Routine.performWithin s.computer.bound) command = false)
    (hshows : (s.computer.perform command).2.Shows q) : (s.perform command).2.Kept w n q :=
  ⟨h.tended.perform hdrives, h.settled.perform (h.tended.voiced.careful hcareful), hshows,
    h.failures⟩

theorem perform_step (h : s.Kept w n p) :
    (s.perform (.step 0)).2.Kept w n (p.nextOn s.computer.machine) :=
  h.perform (.step 0) rfl rfl (h.shows.step h.tended)

theorem perform_stop (h : s.Kept w n p) : (s.perform (.stop 0)).2.Kept w n p.halt :=
  h.perform (.stop 0) rfl rfl (h.shows.stop h.tended)

theorem perform_play (h : s.Kept w n p) (hcomplete : p.isComplete = false)
    (hplaying : p.playing = false) (delay : Value) :
    s.perform (.play 0 delay) = (.ok (.loop s.computer.loops.length),
        (s.perform (.play 0 delay)).2) ∧
      (s.perform (.play 0 delay)).2.Kept w n p.begin := by
  have hshows := h.shows.play h.tended hcomplete hplaying delay
  have hanswer : (s.computer.perform (.play 0 delay)).1 = .ok (.loop s.computer.loops.length) := by
    rw [h.serves.play, hcomplete, hplaying]
    rfl
  exact ⟨Prod.ext hanswer rfl, h.perform (.play 0 delay) rfl
    (careless_play h.program_zero (Prod.ext hanswer rfl) hshows.overseen.program_zero rfl) hshows⟩

theorem perform_play_refused (h : s.Kept w n p)
    (hrefused : p.isComplete = true ∨ p.playing = true) (delay : Value) :
    s.perform (.play 0 delay) =
      (.error (if p.isComplete then .programComplete else .alreadyPlaying), s) := by
  refine Prod.ext ?_ ?_
  · refine (h.serves.play delay).trans ?_
    cases hcomplete : p.isComplete with
    | true => rfl
    | false =>
      rw [hrefused.resolve_left (by simp [hcomplete])]
      rfl
  · exact congrArg (fun computer => { s with computer }) (h.shows.play_refused hrefused delay)

/-- A loop that is given time leaves no failure behind. -/
theorem runLoop_eq (h : s.Kept w n p) (k : Nat) : s.runLoop k = (s.perform (.tick k)).2 := by
  obtain ⟨answer, hanswer⟩ := h.serves.tick k
  have hon : s.perform (.tick k) = (.ok answer, (s.perform (.tick k)).2) := Prod.ext hanswer rfl
  rw [runLoop, hon]

theorem runLoop (h : s.Kept w n p) (hl : s.computer.loops[k]? = some l)
    (hstage : l.stage = .fresh ∨ l.stage = .suspended) (hrun : p.run = l.run) :
    (s.runLoop k).Kept w n (p.looped s.computer.machine) := by
  rw [h.runLoop_eq]
  exact h.perform (.tick k) (Nat.zero_le k) rfl
    (h.shows.tick h.tended hl hstage hrun)

theorem runLoop_else (h : s.Kept w n p) (hother : ∀ l, s.computer.loops[k]? = some l →
    l.stage = .fresh ∨ l.stage = .suspended → p.run ≠ l.run) : (s.runLoop k).Kept w n p := by
  rw [h.runLoop_eq]
  exact h.perform (.tick k) (Nat.zero_le k) rfl (h.shows.tick_else h.tended hother)

theorem runLoop_any (h : s.Kept w n p) (k : Nat) : ∃ q, (s.runLoop k).Kept w n q := by
  by_cases hcurrent : ∃ l, s.computer.loops[k]? = some l ∧
      (l.stage = .fresh ∨ l.stage = .suspended) ∧ p.run = l.run
  · obtain ⟨l, hl, hstage, hrun⟩ := hcurrent
    exact ⟨_, h.runLoop hl hstage hrun⟩
  · exact ⟨p, h.runLoop_else fun l hl hstage hrun => hcurrent ⟨l, hl, hstage, hrun⟩⟩

/-- What the panels show is how things are. -/
theorem machineView (h : s.Kept w n p) : s.machineView = some s.computer.machine :=
  h.shows.reflects.machine

theorem programView (h : s.Kept w n p) : s.programView = some p.view := h.shows.reflects.program

theorem views_eq (h : s.Kept w n p) (status : String) : s.views status =
    written (s.computer.machine.registerNumbers ++ p.view.numbers)
      (drawn s.computer.machine p.view status) := by
  rw [views, h.machineView, h.programView]

end Kept

/-- The panels are told at once of what they begin to watch. -/
theorem watch_eq (m : Machine) (is : List Instruction) (delay : Value) :
    watch (manned m { instructions := is, stepDelay := delay }) =
      let p : Program := { instructions := is, stepDelay := delay }
      { computer := { manned m { p with watchers := [panels] } with
          machineWatchers := [panels]
          events :=
            [⟨panels, .program 0, .program p.view, m⟩, ⟨panels, .machine, .machine m, m⟩] } } :=
  rfl

/-- A session that is set up shows how things are. -/
theorem Kept.watch {m : Machine} {is : List Instruction} (h : Prepared w n m is) (delay : Value) :
    ∃ p, (watch (manned m { instructions := is, stepDelay := delay })).Kept w n p ∧
      p.instructions = is := by
  let commands : List Command := [.observe .machine panels, .observe (.program 0) panels]
  have hdrives : ∀ command ∈ commands, command.Drives 0 0 := by
    intro command hmem
    rcases List.mem_cons.mp hmem with rfl | hmem
    · trivial
    · obtain rfl := List.mem_singleton.mp hmem
      trivial
  have hsettled : ((manned m { instructions := is, stepDelay := delay }).performAll
      commands).Settled :=
    have hfirst : (Computer.perform _ (.observe .machine panels)).2.Settled :=
      (settled_manned m is delay).perform ((h.tended delay).voiced.careful rfl)
    have htended : (Computer.perform _ (.observe .machine panels)).2.Tended w n :=
      (h.tended delay).perform trivial
    hfirst.perform (htended.voiced.careful rfl)
  refine ⟨{ instructions := is, stepDelay := delay, watchers := [panels] },
    ⟨(h.tended delay).performAll hdrives, hsettled, ?_, rfl⟩, rfl⟩
  rw [watch_eq]
  exact ⟨⟨rfl, rfl, rfl⟩, rfl, rfl⟩

theorem Kept.setUp {source memoryInit : String} {wordSize memorySize : Value}
    (h : setUp source memoryInit wordSize memorySize = .ok s) : ∃ w n p, s.Kept w n p := by
  obtain ⟨w, n, m, is, hprepared, rfl⟩ := setUp_eq_ok h
  obtain ⟨p, hkept, -⟩ := Kept.watch hprepared (.float Program.defaultDelay)
  exact ⟨w, n, p, hkept⟩

/-! ### The handlers -/

theorem drawn_standing (m : Machine) (v : ProgramView) : drawn m v "" = drawn m v (standing v) := by
  have hne : (standing v).isEmpty = false := by
    unfold standing
    split
    · rfl
    · split <;> rfl
  simp only [drawn, hne]
  rfl

namespace Kept

variable (h : s.Kept w n p)
include h

theorem views_cases (status : String) :
    s.views status = .ok (drawn s.computer.machine p.view status) ∨
      s.views status = .error .longNumber := by
  rw [h.views_eq, written]
  split
  · exact .inl rfl
  · exact .inr rfl

theorem step_eq : s.step = ((s.perform (.step 0)).2.views "", (s.perform (.step 0)).2) := by
  have hon : s.perform (.step 0) = (.ok (.flag !p.isComplete), (s.perform (.step 0)).2) :=
    Prod.ext h.serves.step rfl
  rw [step, hon]
  rfl

theorem beginPlay_eq (hcomplete : p.isComplete = false) (hplaying : p.playing = false)
    (delay : Value) : s.beginPlay delay =
      (s.perform (.play 0 delay)).2.showPlaying s.computer.loops.length := by
  rw [beginPlay, (h.perform_play hcomplete hplaying delay).1]

theorem beginPlay_refused (hrefused : p.isComplete = true ∨ p.playing = true) (delay : Value) :
    s.beginPlay delay = (s.views (if p.isComplete then "Error: program is complete"
      else "Error: program is already playing"), .over, s) := by
  rw [beginPlay, h.perform_play_refused hrefused delay]
  cases p.isComplete <;> rfl

/-- A playback that cannot show the panels stops the program. -/
theorem showPlaying_cases (index : Nat) :
    s.showPlaying index =
        (.ok (drawn s.computer.machine p.view ""), .showing index, s) ∨
      s.showPlaying index = (.error .longNumber, .over, (s.perform (.stop 0)).2) := by
  rcases h.views_cases "" with hviews | hviews
  · exact .inl (by rw [showPlaying, hviews])
  · exact .inr (by rw [showPlaying, hviews]; rfl)

theorem advance_ended {k : Nat} (hended : s.loopEnded k = true) : s.advance (.showing k) =
    (some ((s.perform (.stop 0)).2.views ""), .over, (s.perform (.stop 0)).2) := by
  have hfailures := h.perform_stop.failures
  rw [advance, if_pos hended]
  simp only [hfailures]
  rfl

end Kept

end Workbench.Session

namespace Workbench.Desk

open Session

/-- What is shown are the panels of the session with a status, or an error because one of their
numbers cannot be written. -/
def Draws (s : Session) (q : Program) (status : String) (shown : Except Fault Views) : Prop :=
  shown = .ok (drawn s.computer.machine q.view status) ∨ shown = .error .longNumber

/-- The status that a move shows with the panels, if it shows them: of the program before the move
and after it. -/
def statusOf (p q : Program) : Move → String
  | .stop => "Stopped"
  | .play _ =>
    if p.isComplete then "Error: program is complete"
    else if p.playing then "Error: program is already playing"
    else "Playing"
  | _ => standing q.view

/-- The session goes on with a program, and if the move shows the panels, they are its panels. -/
structure Turns (w n : Nat) (d : Desk) (move : Move) (p q : Program) : Prop where
  kept : (d.make move).2.session.Kept w n q
  shown : ∀ shown, (d.make move).1 = some shown →
    Draws (d.make move).2.session q (statusOf p q move) shown

variable {w n : Nat} {p q : Program} {s : Session} {d : Desk} {move : Move}

theorem draws_standing (h : s.Kept w n p) : Draws s p (standing p.view) (s.views "") :=
  (h.views_cases "").imp_left fun hok => hok.trans (congrArg Except.ok (drawn_standing _ _))

/-- A playback that shows the panels leaves the session as it is. -/
theorem kept_showPlaying (h : s.Kept w n p) (index : Nat) :
    ∃ q, (s.showPlaying index).2.2.Kept w n q ∧ ∀ status, (q = p → status = standing p.view) →
      Draws (s.showPlaying index).2.2 q status (s.showPlaying index).1 := by
  rcases h.showPlaying_cases index with heq | heq <;> rw [heq]
  · refine ⟨p, h, fun status hstatus => .inl ?_⟩
    rw [hstatus rfl, drawn_standing]
  · exact ⟨p.halt, h.perform_stop, fun _ _ => .inr rfl⟩

theorem kept_beginPlay (h : s.Kept w n p) (delay : Number.Binary64) :
    ∃ q, (s.beginPlay (.float delay)).2.2.Kept w n q ∧
      Draws (s.beginPlay (.float delay)).2.2 q (statusOf p q (.play delay))
        (s.beginPlay (.float delay)).1 := by
  by_cases hrefused : p.isComplete = true ∨ p.playing = true
  · have hstatus : statusOf p p (.play delay) = if p.isComplete then "Error: program is complete"
        else "Error: program is already playing" := by
      cases hcomplete : p.isComplete with
      | true => simp [statusOf, hcomplete]
      | false => simp [statusOf, hcomplete, hrefused.resolve_left (by simp [hcomplete])]
    rw [h.beginPlay_refused hrefused]
    refine ⟨p, h, ?_⟩
    rw [hstatus]
    exact h.views_cases _
  · obtain ⟨hcomplete, hplaying⟩ := not_or.mp hrefused
    rw [Bool.not_eq_true] at hcomplete hplaying
    rw [h.beginPlay_eq hcomplete hplaying]
    obtain ⟨q, hkept, hdraws⟩ :=
      kept_showPlaying (h.perform_play hcomplete hplaying (.float delay)).2 s.computer.loops.length
    refine ⟨q, hkept, hdraws _ fun _ => ?_⟩
    simp only [statusOf, hcomplete, hplaying]
    rfl

theorem kept_advance (h : s.Kept w n p) (playback : Playback) :
    ∃ q, (s.advance playback).2.2.Kept w n q ∧ ∀ shown, (s.advance playback).1 = some shown →
      Draws (s.advance playback).2.2 q (standing q.view) shown := by
  rcases playback with index | _
  · cases hended : s.loopEnded index with
    | true =>
      rw [h.advance_ended hended]
      refine ⟨p.halt, h.perform_stop, fun shown heq => ?_⟩
      rw [← Option.some.inj heq]
      exact draws_standing h.perform_stop
    | false =>
      have hon : s.advance (.showing index) = (some (s.showPlaying index).1,
          (s.showPlaying index).2.1, (s.showPlaying index).2.2) := by
        rw [advance, hended]
        rfl
      obtain ⟨q, hkept, hdraws⟩ := kept_showPlaying h index
      rw [hon]
      refine ⟨q, hkept, fun shown heq => ?_⟩
      rw [← Option.some.inj heq]
      exact hdraws _ fun heq => heq ▸ rfl
  · exact ⟨p, h, fun _ heq => nomatch heq⟩

theorem kept_close (h : s.Kept w n p) (playback : Playback) :
    ∃ q, (s.close playback).Kept w n q := by
  rcases playback with _ | _
  · exact ⟨p.halt, h.perform_stop⟩
  · exact ⟨p, h⟩

theorem make_advance {k : Nat} {playback : Playback} (hk : d.playbacks[k]? = some playback) :
    d.make (.advance k) = ((d.session.advance playback).1,
      ⟨(d.session.advance playback).2.2,
        d.playbacks.set k (d.session.advance playback).2.1⟩) := by
  rw [make, hk]

theorem make_close {k : Nat} {playback : Playback} (hk : d.playbacks[k]? = some playback) :
    d.make (.close k) = (none, ⟨d.session.close playback, d.playbacks.set k .over⟩) := by
  rw [make, hk]

/-- Every move goes on with the program, and shows it as it is then. -/
theorem turns (h : d.session.Kept w n p) (move : Move) : ∃ q, Turns w n d move p q := by
  cases move with
  | step =>
    have hmake : d.make .step = (some ((d.session.perform (.step 0)).2.views ""),
        { d with session := (d.session.perform (.step 0)).2 }) := by
      rw [make, h.step_eq]
    refine ⟨p.nextOn d.session.computer.machine, ?_, ?_⟩ <;> rw [hmake]
    · exact h.perform_step
    · intro shown heq
      rw [← Option.some.inj heq]
      exact draws_standing h.perform_step
  | stop =>
    refine ⟨_, h.perform_stop, fun shown heq => ?_⟩
    rw [← Option.some.inj heq]
    exact h.perform_stop.views_cases "Stopped"
  | play delay =>
    obtain ⟨q, hkept, hdraws⟩ := kept_beginPlay h delay
    refine ⟨q, hkept, fun shown heq => ?_⟩
    rw [← Option.some.inj heq]
    exact hdraws
  | advance k =>
    cases hk : d.playbacks[k]? with
    | none =>
      have hmake : d.make (.advance k) = (none, d) := by rw [make, hk]
      refine ⟨p, ?_, ?_⟩ <;> rw [hmake]
      · exact h
      · exact fun _ heq => nomatch heq
    | some playback =>
      obtain ⟨q, hkept, hdraws⟩ := kept_advance h playback
      refine ⟨q, ?_, ?_⟩ <;> rw [make_advance hk]
      · exact hkept
      · exact hdraws
  | close k =>
    cases hk : d.playbacks[k]? with
    | none =>
      have hmake : d.make (.close k) = (none, d) := by rw [make, hk]
      refine ⟨p, ?_, ?_⟩ <;> rw [hmake]
      · exact h
      · exact fun _ heq => nomatch heq
    | some playback =>
      obtain ⟨q, hkept⟩ := kept_close h playback
      refine ⟨q, ?_, ?_⟩ <;> rw [make_close hk]
      · exact hkept
      · exact fun _ heq => nomatch heq
  | runLoop k =>
    obtain ⟨q, hkept⟩ := h.runLoop_any k
    exact ⟨q, hkept, fun _ heq => nomatch heq⟩

/-- The session goes on with its program through all moves. -/
theorem kept_makeAll (h : d.session.Kept w n p) (moves : List Move) :
    ∃ q, (d.makeAll moves).session.Kept w n q := by
  induction moves generalizing d p with
  | nil => exact ⟨p, h⟩
  | cons move moves ih =>
    obtain ⟨q, hturns⟩ := turns h move
    exact ih hturns.kept

end Workbench.Desk

end Accumulator
