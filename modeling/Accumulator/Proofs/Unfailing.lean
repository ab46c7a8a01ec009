import Accumulator.Proofs.Interrupting
import Accumulator.Proofs.Showing

/-! Execution does not fail. What may be wrong with a program is found out when it is set up; from
then on only a play is refused, when there is nothing to play or the program is playing already. On
the command line a run then ends well, unless a pause is asked for that is none or a number is too
long to be written. -/

namespace Accumulator

open Computer

/-- After any calls that drive the program or look on, in any order, it is served. -/
def Computer.Dependable (c : Computer) : Prop :=
  ∀ commands : List Command, (∀ command ∈ commands, command.Drives 0 0) →
    ∃ p, (c.performAll commands).programs[0]? = some p ∧ (c.performAll commands).Serves p

namespace Computer

variable {w n : Nat} {c : Computer}

theorem Tended.dependable (h : c.Tended w n) : c.Dependable := by
  intro commands hdrives
  have htended := h.performAll hdrives
  obtain ⟨p, hp, -⟩ := htended.driven.program
  exact ⟨p, hp, htended.serves hp⟩

end Computer

theorem written_eq_error {α : Type} {numbers : List Nat} {a : α} {fault : Fault}
    (h : written numbers a = .error fault) : fault = .longNumber := by
  unfold written at h
  split at h
  · cases h
  · exact (Except.error.inj h).symm

namespace CommandLine

/-- There is to be a pause after each step, and the delay is set to nothing. -/
def LacksPause (o : Options) : Prop := o.play = true ∧ o.delay = none

/-- How what is set up by the options ends: the execution fails for the lack of a pause alone, and
every report that is made is one of success. -/
structure RunsThrough (o : Options) (c : Computer) : Prop where
  ending : ∀ interrupt outputs fault d,
    (if o.play then play o interrupt c else runAtOnce o c) = (outputs, .failed fault, d) →
      LacksPause o ∧ fault = .notPause nothing
  exit : ∀ interrupt r, run o interrupt = .ok r → r.exit = 0
  error : ∀ interrupt fault, run o interrupt = .error fault →
    fault = .longNumber ∨ LacksPause o ∧ fault = .notPause nothing

/-- An ending is no failure, unless the delay is set to nothing. -/
def Ending.Passes (o : Options) : Ending → Prop
  | .failed fault => o.delay = none ∧ fault = .notPause nothing
  | _ => True

variable {w n : Nat} {o : Options} {c : Computer}

theorem tended_perform (h : c.Tended w n) (verbose : Bool) (command : Command)
    (hdrives : command.Drives 0 0) : (perform verbose command c).2.2.Tended w n :=
  (h.perform hdrives).forget

/-- The loop goes on from pause to pause, since none of its steps fails. -/
theorem playOn_passes (h : c.Tended w n) (limit : Nat) (interrupt : Option Nat) :
    (playOn o limit interrupt c).2.1.Passes o := by
  induction limit generalizing c interrupt with
  | zero => trivial
  | succ limit ih =>
    obtain ⟨p, hp, -⟩ := h.driven.program
    obtain ⟨answer, hanswer⟩ := (h.serves hp).tick 0
    have htended := tended_perform h o.verbose (.tick 0) (Nat.zero_le 0)
    have hon : perform o.verbose (.tick 0) c = (.ok answer, (perform o.verbose (.tick 0) c).2) :=
      Prod.ext hanswer rfl
    rw [playOn, hon]
    cases answer with
    | sleep delay =>
      cases hdelay : o.delay with
      | none => exact ⟨hdelay, rfl⟩
      | some seconds =>
        simp only
        split
        · trivial
        · exact ih htended _
    | _ => trivial

/-- With the verbose option the program is watched before it is played. -/
theorem play_opened {m : Machine} {is : List Instruction} (h : Prepared w n m is) (verbose : Bool)
    (delay : Value) :
    let c := manned m { instructions := is, stepDelay := delay }
    ∃ shown d, (if verbose then (perform true (.observe (.program 0) 0) c).2 else ([], c)) =
      (shown, d) ∧ d.Tended w n ∧ ∃ p, d.programs = [p] ∧ p.playing = false := by
  intro c
  have htended : c.Tended w n := h.tended delay
  cases verbose with
  | false => exact ⟨[], c, rfl, htended, _, rfl, rfl⟩
  | true =>
    have hobserved := tended_perform htended true (.observe (.program 0) 0) trivial
    exact ⟨_, _, rfl, hobserved, { instructions := is, stepDelay := delay, watchers := [0] }, rfl,
      rfl⟩

theorem play_passes {m : Machine} {is : List Instruction} (h : Prepared w n m is) (delay : Value)
    (interrupt : Option Nat) :
    (play o interrupt (manned m { instructions := is, stepDelay := delay })).2.1.Passes o := by
  obtain ⟨shown, d, hopened, htended, p, hprograms, hplaying⟩ := play_opened h o.verbose delay
  have hp : d.programs[0]? = some p := by
    rw [hprograms]
    rfl
  have hfirst : programOf d = p := by
    rw [programOf, hprograms]
    rfl
  rw [play]
  simp only [hopened, hfirst]
  cases hcomplete : p.isComplete with
  | true => trivial
  | false =>
    have hplay := (htended.serves hp).play .none
    rw [hcomplete, hplaying] at hplay
    have hon : perform o.verbose (.play 0 .none) d =
        (.ok (.loop d.loops.length), (perform o.verbose (.play 0 .none) d).2) :=
      Prod.ext hplay rfl
    simp only [Bool.false_eq_true, if_false]
    rw [hon]
    exact playOn_passes (tended_perform htended o.verbose (.play 0 .none) rfl) _ interrupt

theorem runAtOnce_passes (h : c.Tended w n) : (runAtOnce o c).2.1 = .finished := by
  obtain ⟨p, hp, -⟩ := h.driven.program
  obtain ⟨executed, hexecuted⟩ := (h.serves hp).run
  have hon : perform o.verbose (.run 0) c =
      (.ok (.number executed), (perform o.verbose (.run 0) c).2) := Prod.ext hexecuted rfl
  rw [runAtOnce, hon]

/-- A state is written unless one of its numbers is too long. -/
theorem stateLines_eq_error {fault : Fault} (h : stateLines o c = .error fault) :
    fault = .longNumber := by
  rw [stateLines_eq] at h
  rcases bind_eq_error h with htrace | ⟨trace, -, h⟩
  · split at htrace
    · rcases bind_eq_error htrace with hwritten | ⟨_, -, hpure⟩
      · exact written_eq_error hwritten
      · cases hpure
    · cases htrace
  · rcases bind_eq_error h with hstate | ⟨_, -, hpure⟩
    · split at hstate
      · exact written_eq_error hstate
      · rcases bind_eq_error hstate with hwritten | ⟨_, -, hpure⟩
        · exact written_eq_error hwritten
        · cases hpure
    · cases hpure

theorem closing_cases (outputs : List Output) :
    (∃ r, closing o outputs c = .ok r ∧ r.exit = 0) ∨ closing o outputs c = .error .longNumber := by
  rw [closing]
  cases hstate : stateLines o c with
  | error fault =>
    obtain rfl := stateLines_eq_error hstate
    exact .inr rfl
  | ok lines => exact .inl ⟨_, rfl, rfl⟩

/-- A run is reported with the state that it ends in, or it has failed. -/
theorem run_cases (hset : setUp o = .ok c) (interrupt : Option Nat) :
    (∃ outputs d, run o interrupt = closing o outputs d) ∨
      ∃ outputs fault d,
        (if o.play then play o interrupt c else runAtOnce o c) = (outputs, .failed fault, d) ∧
        run o interrupt = refused "Execution error: " (opening o c ++ outputs) fault := by
  rcases hended : if o.play then play o interrupt c else runAtOnce o c with ⟨outputs, ending, d⟩
  cases ending with
  | finished => exact .inl ⟨_, d, run_finished hset hended⟩
  | interrupted =>
    refine .inl ⟨opening o c ++ outputs ++ (perform o.verbose (.stop 0) d).2.1 ++ [.line "Stopped"],
      (perform o.verbose (.stop 0) d).2.2, ?_⟩
    rw [run, hset]
    simp only [hended, closing, List.append_assoc]
    cases stateLines o (perform o.verbose (.stop 0) d).2.2 <;> rfl
  | failed fault =>
    refine .inr ⟨outputs, fault, d, rfl, ?_⟩
    rw [run, hset]
    simp only [hended]

theorem lacksPause_of_failed (hset : setUp o = .ok c) {interrupt : Option Nat}
    {outputs : List Output} {fault : Fault} {d : Computer}
    (hfailed : (if o.play then play o interrupt c else runAtOnce o c) =
      (outputs, .failed fault, d)) : LacksPause o ∧ fault = .notPause nothing := by
  obtain ⟨w, n, m, is, hprepared, rfl⟩ := setUp_eq_ok hset
  cases hplay : o.play with
  | true =>
    rw [hplay, if_pos rfl] at hfailed
    have hpasses := play_passes (o := o) hprepared (valueOf .float o.delay) interrupt
    rw [hfailed] at hpasses
    exact ⟨⟨hplay, hpasses.1⟩, hpasses.2⟩
  | false =>
    rw [hplay, if_neg Bool.false_ne_true] at hfailed
    have hfinished := runAtOnce_passes (o := o) (hprepared.tended (valueOf .float o.delay))
    rw [hfailed] at hfinished
    cases hfinished

/-- The lack of a pause is no refusal by the machine, and is not reported. -/
theorem refused_notPause (heading : String) (outputs : List Output) :
    refused heading outputs (.notPause nothing) = .error (.notPause nothing) := rfl

/-- A run ends in a report of success, or in none: a number is too long, or a pause is lacking. -/
theorem run_ends (hset : setUp o = .ok c) (interrupt : Option Nat) :
    (∃ r, run o interrupt = .ok r ∧ r.exit = 0) ∨ run o interrupt = .error .longNumber ∨
      LacksPause o ∧ run o interrupt = .error (.notPause nothing) := by
  rcases run_cases hset interrupt with ⟨outputs, d, hrun⟩ | ⟨outputs, fault, d, hfailed, hrun⟩
  · rw [hrun]
    rcases closing_cases (o := o) (c := d) outputs with hreport | hlong
    · exact .inl hreport
    · exact .inr (.inl hlong)
  · obtain ⟨hlacks, rfl⟩ := lacksPause_of_failed hset hfailed
    rw [hrun, refused_notPause]
    exact .inr (.inr ⟨hlacks, rfl⟩)

theorem runsThrough (hset : setUp o = .ok c) : RunsThrough o c := by
  refine ⟨fun _ _ _ _ => lacksPause_of_failed hset, fun interrupt r h => ?_,
    fun interrupt fault h => ?_⟩
  · rcases run_ends hset interrupt with ⟨r', hreport, hexit⟩ | hlong | ⟨-, hfault⟩
    · obtain rfl := Except.ok.inj (hreport.symm.trans h)
      exact hexit
    · cases hlong.symm.trans h
    · cases hfault.symm.trans h
  · rcases run_ends hset interrupt with ⟨r', hreport, -⟩ | hlong | ⟨hlacks, hfault⟩
    · cases hreport.symm.trans h
    · exact .inl (Except.error.inj (hlong.symm.trans h)).symm
    · exact .inr ⟨hlacks, (Except.error.inj (hfault.symm.trans h)).symm⟩

end CommandLine

namespace Workbench

/-- A play of this program is refused, with this status. -/
def PlayRefused (p : Program) (status : String) : Prop :=
  p.isComplete = true ∧ status = "Error: program is complete" ∨
    p.isComplete = false ∧ p.playing = true ∧ status = "Error: program is already playing"

/-- No play loop has failed, and none of the moves that come next shows an error in the status but a
play that is refused. The panels are shown unless one of their numbers is too long. -/
structure Desk.Unfailing (d : Desk) : Prop where
  failures : d.session.failures = []
  error : ∀ move fault, (d.make move).1 = some (.error fault) → fault = .longNumber
  status : ∃ p, d.session.computer.programs = [p] ∧
    ∀ move views, (d.make move).1 = some (.ok views) →
      views.status ∈ ["Ready", "Playing", "Complete", "Stopped"] ∨
        ∃ delay, move = .play delay ∧ PlayRefused p views.status

namespace Desk

open Session

variable {w n : Nat} {p : Program} {d : Desk}

theorem drawn_status (m : Machine) (v : ProgramView) (status : String) :
    (drawn m v status).status = status ∨ (drawn m v status).status = Session.standing v := by
  cases hempty : status.isEmpty with
  | true => exact .inr (by rw [drawn, hempty]; rfl)
  | false => exact .inl (by rw [drawn, hempty]; rfl)

theorem standing_mem (v : ProgramView) :
    Session.standing v ∈ ["Ready", "Playing", "Complete", "Stopped"] := by
  unfold Session.standing
  split
  · decide
  · split <;> decide

theorem statusOf_cases (p q : Program) (move : Move) :
    statusOf p q move ∈ ["Ready", "Playing", "Complete", "Stopped"] ∨
      ∃ delay, move = .play delay ∧ PlayRefused p (statusOf p q move) := by
  cases move with
  | stop => exact .inl (by simp [statusOf])
  | play delay =>
    cases hcomplete : p.isComplete with
    | true => exact .inr ⟨delay, rfl, .inl ⟨hcomplete, by simp [statusOf, hcomplete]⟩⟩
    | false =>
      cases hplaying : p.playing with
      | true =>
        exact .inr ⟨delay, rfl, .inr ⟨hcomplete, hplaying, by simp [statusOf, hcomplete, hplaying]⟩⟩
      | false => exact .inl (by simp [statusOf, hcomplete, hplaying])
  | _ => exact .inl (standing_mem q.view)

theorem unfailing (h : d.session.Kept w n p) : d.Unfailing := by
  refine ⟨h.failures, fun move fault hshown => ?_, p, h.shows.overseen.programs,
    fun move views hshown => ?_⟩
  all_goals
    obtain ⟨q, hturns⟩ := turns h move
    rcases hturns.shown _ hshown with hdrawn | hlong
  · cases hdrawn
  · exact Except.error.inj hlong
  · obtain rfl := Except.ok.inj hdrawn
    rcases drawn_status (d.make move).2.session.computer.machine q.view (statusOf p q move) with
      heq | heq <;> rw [heq]
    · exact statusOf_cases p q move
    · exact .inl (standing_mem q.view)
  · cases hlong

end Desk

end Workbench

open CommandLine Workbench in
/-- Whatever the program, the sizes and the writes are: once they are set up, on the command line or
at the workbench, no step fails, whatever calls are made before it and in whatever order. -/
theorem execution_never_fails :
    (∀ o c, setUp o = .ok c → c.Dependable ∧ RunsThrough o c) ∧
      ∀ source memoryInit wordSize memorySize s,
        Session.setUp source memoryInit wordSize memorySize = .ok s →
          s.computer.Dependable ∧ ∀ moves, (Desk.makeAll { session := s } moves).Unfailing := by
  constructor
  · intro o c hset
    obtain ⟨w, n, m, is, hprepared, rfl⟩ := setUp_eq_ok hset
    exact ⟨(hprepared.tended _).dependable, runsThrough hset⟩
  · intro source memoryInit wordSize memorySize s hset
    obtain ⟨w, n, p, hkept⟩ := Session.Kept.setUp hset
    refine ⟨hkept.tended.dependable, fun moves => ?_⟩
    obtain ⟨q, hq⟩ := Desk.kept_makeAll (d := { session := s }) hkept moves
    exact Desk.unfailing hq

open CommandLine Workbench in
/-- The adder on the command line, and a complement at the workbench. -/
theorem execution_never_fails_adder :
    ∃ c, setUp .default = .ok c ∧ c.Dependable ∧ RunsThrough .default c ∧
      ∃ s, Session.setUp "not" "" (.int 4) (.int 2) = .ok s ∧ s.computer.Dependable ∧
        ∀ moves, (Desk.makeAll { session := s } moves).Unfailing := by
  obtain ⟨c, hc, -⟩ := exists_of_toOption (o := setUp .default) (f := fun c => c.programs.length)
    (b := 1) (by decide +kernel)
  obtain ⟨s, hs, -⟩ := exists_of_toOption (o := Session.setUp "not" "" (.int 4) (.int 2))
    (f := fun s => s.failures.length) (b := 0) (by decide +kernel)
  obtain ⟨hdependable, hruns⟩ := execution_never_fails.1 _ c hc
  exact ⟨c, hc, hdependable, hruns, s, hs, execution_never_fails.2 _ _ _ _ s hs⟩

end Accumulator
