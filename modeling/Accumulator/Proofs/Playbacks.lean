import Accumulator.Proofs.Showing

/-! Playbacks and the runs of a program. A playback stops the program when it finds that the loop of
its run has ended, and when it is closed before that. It does so whoever plays the program by then:
the playback of a run that was stopped ends the run that was begun next. Other moves leave a run
alone. -/

namespace Accumulator.Workbench.Desk

open Computer Session

/-- The loop has not ended and belongs to the current run. -/
def Current (s : Session) (p : Program) (k : Nat) : Prop :=
  ∃ l, s.computer.loops[k]? = some l ∧ l.stage ≠ .ended ∧ l.run = p.run

/-- The move ends the run that is on: it stops the program, or gives time to the loop of the run,
which finds the program complete then, or closes a playback that shows, or goes on with one whose
loop has ended or that cannot show the panels. -/
def EndsRun (d : Desk) (p : Program) : Move → Prop
  | .stop => True
  | .runLoop k =>
    Current d.session p k ∧ (p.nextOn d.session.computer.machine).isComplete = true
  | .close k => ∃ index, d.playbacks[k]? = some (.showing index)
  | .advance k => ∃ index, d.playbacks[k]? = some (.showing index) ∧
      (d.session.loopEnded index = true ∨ ∃ fault, d.session.views "" = .error fault)
  | .step | .play _ => False

/-- What becomes of a run that is on. A move goes on with it unless it is one of those that end it,
and what playbacks do beside that changes nothing, nor do loops of other runs. A loop that has ended
belongs to an earlier run. -/
structure RunsOn (d : Desk) (p : Program) : Prop where
  ends : ∀ move, ∃ q, (d.make move).2.session.computer.programs = [q] ∧
    (q.playing = true ∧ q.run = p.run ↔ ¬ d.EndsRun p move)
  play : ∀ delay, d.make (.play delay) =
    (some (d.session.views (if p.isComplete then "Error: program is complete"
      else "Error: program is already playing")), { d with playbacks := d.playbacks ++ [.over] })
  advance : ∀ k, ¬ d.EndsRun p (.advance k) → (d.make (.advance k)).2 = d
  close : ∀ k, ¬ d.EndsRun p (.close k) → (d.make (.close k)).2 = d
  loops : ∀ k, ¬ Current d.session p k →
    d.session.computer.Passed k (d.make (.runLoop k)).2.session.computer
  ended : ∀ index, Playback.showing index ∈ d.playbacks → ∃ l,
    d.session.computer.loops[index]? = some l ∧ (d.session.loopEnded index = true → l.run < p.run)

variable {w n k : Nat} {p q : Program} {s : Session} {d : Desk} {l : PlayLoop}

theorem set_getElem?_self {α : Type} {items : List α} {a : α} (h : items[k]? = some a) :
    items.set k a = items := by
  obtain ⟨hlt, rfl⟩ := List.getElem?_eq_some_iff.mp h
  exact List.set_getElem_self hlt

theorem loopEnded_iff (hl : s.computer.loops[k]? = some l) :
    s.loopEnded k = true ↔ l.stage = .ended := by
  rw [loopEnded, hl]
  exact decide_eq_true_iff

/-- A loop that has ended is not the one by which the program is playing. -/
theorem run_lt_of_ended (h : s.Kept w n p) (hplaying : p.playing = true)
    (hl : s.computer.loops[k]? = some l) (hended : l.stage = .ended) : l.run < p.run := by
  have hmark := roster_mark h.program_zero
  obtain ⟨m, hm, hle⟩ := h.settled.sole.dated k l hl
  have hprogram := h.tended.driven.loops k l (Nat.zero_le k) hl
  rw [hprogram, hmark] at hm
  obtain rfl := Option.some.inj hm
  refine Nat.lt_of_le_of_ne hle fun hrun => ?_
  rcases (h.settled.truthful 0 p.mark hmark).mp hplaying with
    hdue | ⟨j, l', -, hl', hzero, hrun', hlive⟩
  · cases hdue
  · obtain rfl : j = k := h.settled.sole.distinct j k l' l hl' hl (hzero.trans hprogram.symm)
      (hrun'.trans hrun.symm)
    obtain rfl : l' = l := Option.some.inj (hl'.symm.trans hl)
    exact hlive hended

theorem not_running (h : s.Kept w n p) (hl : s.computer.loops[k]? = some l)
    (hlive : l.stage ≠ .ended) : l.stage = .fresh ∨ l.stage = .suspended := by
  have hidle := h.tended.calm.rest.loops l (List.mem_of_getElem? hl)
  cases hstage : l.stage with
  | fresh => exact .inl rfl
  | running => exact absurd hstage hidle
  | suspended => exact .inr rfl
  | ended => exact absurd hstage hlive

theorem halt_not_on (p : Program) (hplaying : p.playing = true) :
    ¬ (p.halt.playing = true ∧ p.halt.run = p.run) := by
  simp [Program.halt, hplaying]

theorem runLoop_passed (h : s.Kept w n p) (hother : ¬ Current s p k) :
    s.computer.Passed k (s.runLoop k).computer := by
  obtain ⟨answer, d, htells, hpassed⟩ : ∃ answer d, (Routine.perform (Routine.performWithin
      s.computer.bound) (.tick k)).Tells s.computer (.ok answer) d [] ∧ s.computer.Passed k d :=
    h.tended.tick_tells_else h.program_zero fun l hl hstage hrun => hother ⟨l, hl, by
      rcases hstage with hstage | hstage <;> simp [hstage], hrun.symm⟩
  rw [h.runLoop_eq]
  obtain ⟨_, _, _, heq, -⟩ := htells.state
  have hon : ((s.perform (.tick k)).2).computer = _ := heq
  rw [hon]
  exact ⟨hpassed.machine, hpassed.programs, hpassed.watchers, hpassed.loops⟩

/-- A play while the program is playing is refused, and the playback is over before it shows. -/
theorem make_play_refused (h : d.session.Kept w n p) (hplaying : p.playing = true)
    (delay : Number.Binary64) : d.make (.play delay) =
      (some (d.session.views (if p.isComplete then "Error: program is complete"
        else "Error: program is already playing")),
        { d with playbacks := d.playbacks ++ [.over] }) := by
  rw [make, h.beginPlay_refused (.inr hplaying)]

/-- A playback goes on with a session as it is, or it stops the program. -/
theorem make_advance_cases (h : d.session.Kept w n p) (k : Nat) :
    d.EndsRun p (.advance k) ∧ (d.make (.advance k)).2.session.Kept w n p.halt ∨
      ¬ d.EndsRun p (.advance k) ∧ (d.make (.advance k)).2 = d := by
  have hstays (hnot : ∀ index, d.playbacks[k]? ≠ some (.showing index)) :
      ¬ d.EndsRun p (.advance k) := fun ⟨index, hk, _⟩ => hnot index hk
  rcases hk : d.playbacks[k]? with _ | ⟨index⟩ | _
  · refine .inr ⟨hstays fun _ hk' => (by rw [hk] at hk'; cases hk'), ?_⟩
    rw [make, hk]
  · rw [make_advance hk]
    cases hended : d.session.loopEnded index with
    | true =>
      rw [h.advance_ended hended]
      exact .inl ⟨⟨index, hk, .inl hended⟩, h.perform_stop⟩
    | false =>
      rw [advance, hended, showPlaying]
      rcases h.views_cases "" with hviews | hviews
      · refine .inr ⟨?_, ?_⟩
        · rintro ⟨index', hk', hwhy⟩
          obtain rfl : index = index' := by simpa [hk] using hk'
          simp [hended, hviews] at hwhy
        · simp only [hviews, Bool.false_eq_true, if_false, set_getElem?_self hk]
      · simp only [hviews, Bool.false_eq_true, if_false]
        exact .inl ⟨⟨index, hk, .inr ⟨_, hviews⟩⟩, h.perform_stop⟩
  · refine .inr ⟨hstays fun _ hk' => (by rw [hk] at hk'; cases hk'), ?_⟩
    rw [make_advance hk]
    simp only [advance, set_getElem?_self hk]

theorem make_close_cases (h : d.session.Kept w n p) (k : Nat) :
    d.EndsRun p (.close k) ∧ (d.make (.close k)).2.session.Kept w n p.halt ∨
      ¬ d.EndsRun p (.close k) ∧ (d.make (.close k)).2 = d := by
  rcases hk : d.playbacks[k]? with _ | ⟨index⟩ | _
  · refine .inr ⟨fun ⟨index, hk'⟩ => (by rw [hk] at hk'; cases hk'), ?_⟩
    rw [make, hk]
  · rw [make_close hk]
    exact .inl ⟨⟨index, hk⟩, h.perform_stop⟩
  · refine .inr ⟨fun ⟨index, hk'⟩ => (by rw [hk] at hk'; cases hk'), ?_⟩
    rw [make_close hk]
    simp only [close, set_getElem?_self hk]

/-- Every move goes on with the run that is on, or it is one of those that end it. -/
theorem ends_iff (h : d.session.Kept w n p) (hplaying : p.playing = true) (move : Move) :
    ∃ q, (d.make move).2.session.Kept w n q ∧
      (q.playing = true ∧ q.run = p.run ↔ ¬ d.EndsRun p move) := by
  have hhalted : ∀ {move}, d.EndsRun p move → (d.make move).2.session.Kept w n p.halt →
      ∃ q, (d.make move).2.session.Kept w n q ∧
        (q.playing = true ∧ q.run = p.run ↔ ¬ d.EndsRun p move) := fun hends hkept =>
    ⟨p.halt, hkept, iff_of_false (halt_not_on p hplaying) (not_not_intro hends)⟩
  have hsame : ∀ {move}, ¬ d.EndsRun p move → (d.make move).2.session = d.session →
      ∃ q, (d.make move).2.session.Kept w n q ∧
        (q.playing = true ∧ q.run = p.run ↔ ¬ d.EndsRun p move) := fun hnot heq =>
    ⟨p, by rw [heq]; exact h, iff_of_true ⟨hplaying, rfl⟩ hnot⟩
  cases move with
  | step =>
    refine ⟨p.nextOn d.session.computer.machine, ?_, iff_of_true ⟨hplaying, rfl⟩ id⟩
    have hkept := h.perform_step
    rwa [← congrArg Prod.snd h.step_eq] at hkept
  | stop => exact hhalted trivial h.perform_stop
  | play delay => exact hsame id (by rw [make_play_refused h hplaying])
  | advance k =>
    rcases make_advance_cases h k with ⟨hends, hkept⟩ | ⟨hnot, heq⟩
    · exact hhalted hends hkept
    · exact hsame hnot (by rw [heq])
  | close k =>
    rcases make_close_cases h k with ⟨hends, hkept⟩ | ⟨hnot, heq⟩
    · exact hhalted hends hkept
    · exact hsame hnot (by rw [heq])
  | runLoop k =>
    by_cases hcurrent : Current d.session p k
    · obtain ⟨l, hl, hlive, hrun⟩ := hcurrent
      refine ⟨_, h.runLoop hl (not_running h hl hlive) hrun.symm, ?_⟩
      have hends : d.EndsRun p (.runLoop k) ↔
          (p.nextOn d.session.computer.machine).isComplete = true :=
        and_iff_right ⟨l, hl, hlive, hrun⟩
      rw [hends]
      unfold Program.looped
      split
      · rename_i hcomplete
        exact iff_of_false (by simp) (not_not_intro hcomplete)
      · rename_i hcomplete
        exact iff_of_true ⟨hplaying, rfl⟩ hcomplete
    · refine ⟨p, h.runLoop_else fun l hl hstage hrun => hcurrent ⟨l, hl, ?_, hrun.symm⟩,
        iff_of_true ⟨hplaying, rfl⟩ fun hends => hcurrent hends.1⟩
      rcases hstage with hstage | hstage <;> simp [hstage]

section

variable {P : Computer → Prop} (hP : ∀ c command, P c → P (c.perform command).2)
include hP

theorem keeps_perform (h : P s.computer) (command : Command) : P (s.perform command).2.computer :=
  hP s.computer command h

theorem keeps_showPlaying (h : P s.computer) (index : Nat) :
    P (s.showPlaying index).2.2.computer := by
  unfold showPlaying
  split
  · exact h
  · exact keeps_perform hP h (.stop 0)

theorem keeps_beginPlay (h : P s.computer) (delay : Value) :
    P (s.beginPlay delay).2.2.computer := by
  have hplay := keeps_perform hP h (.play 0 delay)
  unfold beginPlay
  split
  · rename_i heq
    rw [heq] at hplay
    exact keeps_showPlaying hP hplay _
  · rename_i heq
    rw [heq] at hplay
    exact hplay

theorem keeps_advance (h : P s.computer) (playback : Playback) :
    P (s.advance playback).2.2.computer := by
  rcases playback with index | _
  · rw [advance]
    split
    · exact keeps_perform hP h (.stop 0)
    · exact keeps_showPlaying hP h index
  · exact h

theorem keeps_runLoop (h : P s.computer) (k : Nat) : P (s.runLoop k).computer := by
  have htick := keeps_perform hP h (.tick k)
  unfold Session.runLoop
  split <;> rename_i heq <;> rw [heq] at htick <;> exact htick

/-- A move keeps what every call keeps. -/
theorem keeps_make (h : P d.session.computer) (move : Move) :
    P (d.make move).2.session.computer := by
  cases move with
  | step => exact keeps_perform hP h (.step 0)
  | stop => exact keeps_perform hP h (.stop 0)
  | play delay => exact keeps_beginPlay hP h (.float delay)
  | advance k =>
    cases hk : d.playbacks[k]? with
    | none =>
      rw [make, hk]
      exact h
    | some playback =>
      rw [make_advance hk]
      exact keeps_advance hP h playback
  | close k =>
    rcases hk : d.playbacks[k]? with _ | _ | _ <;> rw [make, hk]
    · exact h
    · exact keeps_perform hP h (.stop 0)
    · exact h
  | runLoop k => exact keeps_runLoop hP h k

end

/-- The playbacks that show have their loops. -/
def Supplied (d : Desk) : Prop :=
  ∀ index, .showing index ∈ d.playbacks → d.session.computer.Made index

theorem showPlaying_playback (s : Session) (index : Nat) :
    (s.showPlaying index).2.1 = .over ∨ (s.showPlaying index).2.1 = .showing index := by
  unfold showPlaying
  split
  · exact .inr rfl
  · exact .inl rfl

theorem advance_playback (s : Session) (playback : Playback) :
    (s.advance playback).2.1 = .over ∨ (s.advance playback).2.1 = playback := by
  rcases playback with index | _
  · rw [advance]
    split
    · exact .inl rfl
    · exact showPlaying_playback s index
  · exact .inl rfl

theorem made_perform {c : Computer} (h : c.Watched ∧ c.Made k) (command : Command) :
    (c.perform command).2.Watched ∧ (c.perform command).2.Made k :=
  (made_invariant k).perform h command

/-- A playback that begins to show has the loop that was made for it. -/
theorem beginPlay_made (h : s.Kept w n p) (delay : Value) {index : Nat}
    (hshowing : (s.beginPlay delay).2.1 = .showing index) :
    (s.beginPlay delay).2.2.computer.Made index := by
  by_cases hrefused : p.isComplete = true ∨ p.playing = true
  · rw [h.beginPlay_refused hrefused] at hshowing
    cases hshowing
  · obtain ⟨hcomplete, hplaying⟩ := not_or.mp hrefused
    rw [Bool.not_eq_true] at hcomplete hplaying
    rw [h.beginPlay_eq hcomplete hplaying] at hshowing ⊢
    have hindex : index = s.computer.loops.length := by
      rcases showPlaying_playback (s.perform (.play 0 delay)).2 s.computer.loops.length with
        heq | heq <;> rw [heq] at hshowing
      · cases hshowing
      · exact (Playback.showing.inj hshowing).symm
    have hplay : (Routine.perform (Routine.performWithin s.computer.bound) (.play 0 delay)).Tells
        s.computer _ _ _ := h.tended.play_tells h.program_zero hcomplete hplaying delay
    have hmade : (s.perform (.play 0 delay)).2.computer.Made index := by
      obtain ⟨_, _, _, heq, -⟩ := hplay.state
      have hon : (s.perform (.play 0 delay)).2.computer = _ := heq
      rw [hon, hindex]
      exact ⟨_, List.getElem?_concat_length⟩
    have hkept := (h.perform_play hcomplete hplaying delay).2
    exact (keeps_showPlaying (P := fun c => c.Watched ∧ c.Made index) (fun _ command hc =>
      made_perform hc command) ⟨hkept.settled.watched, hmade⟩ _).2

theorem Supplied.make (hd : d.Supplied) (h : d.session.Kept w n p) (move : Move) :
    (d.make move).2.Supplied := by
  have hold : ∀ index, .showing index ∈ d.playbacks →
      (d.make move).2.session.computer.Made index := fun index hmem =>
    (keeps_make (P := fun c => c.Watched ∧ c.Made index) (fun _ command hc =>
      made_perform hc command) ⟨h.settled.watched, hd index hmem⟩ move).2
  intro index hmem
  cases move with
  | play delay =>
    rcases List.mem_append.mp hmem with hmem | hmem
    · exact hold index hmem
    · exact beginPlay_made h (.float delay) (List.mem_singleton.mp hmem).symm
  | advance k =>
    cases hk : d.playbacks[k]? with
    | none =>
      have hsame : (d.make (.advance k)).2 = d := by rw [Desk.make, hk]
      rw [hsame] at hmem
      exact hold index hmem
    | some playback =>
      rw [make_advance hk] at hmem
      rcases List.mem_or_eq_of_mem_set hmem with hmem | heq
      · exact hold index hmem
      · rcases advance_playback d.session playback with hover | hsame
        · rw [hover] at heq
          cases heq
        · rw [hsame] at heq
          exact hold index (heq ▸ List.mem_of_getElem? hk)
  | close k =>
    cases hk : d.playbacks[k]? with
    | none =>
      have hsame : (d.make (.close k)).2 = d := by rw [Desk.make, hk]
      rw [hsame] at hmem
      exact hold index hmem
    | some playback =>
      rw [make_close hk] at hmem
      rcases List.mem_or_eq_of_mem_set hmem with hmem | heq
      · exact hold index hmem
      · cases heq
  | _ => exact hold index hmem

theorem supplied_makeAll (hd : d.Supplied) (h : d.session.Kept w n p) (moves : List Move) :
    (d.makeAll moves).Supplied := by
  induction moves generalizing d p with
  | nil => exact hd
  | cons move moves ih =>
    obtain ⟨q, hturns⟩ := turns h move
    exact ih (hd.make h move) hturns.kept

theorem runsOn (h : d.session.Kept w n p) (hd : d.Supplied) (hplaying : p.playing = true) :
    d.RunsOn p where
  ends move := by
    obtain ⟨q, hkept, hiff⟩ := ends_iff h hplaying move
    exact ⟨q, hkept.shows.overseen.programs, hiff⟩
  play := make_play_refused h hplaying
  advance k hnot := ((make_advance_cases h k).resolve_left fun hends => hnot hends.1).2
  close k hnot := ((make_close_cases h k).resolve_left fun hends => hnot hends.1).2
  loops k hother := runLoop_passed h hother
  ended index hmem := by
    obtain ⟨l, hl⟩ := hd index hmem
    exact ⟨l, hl, fun hended => run_lt_of_ended h hplaying hl ((loopEnded_iff hl).mp hended)⟩

/-- Whatever moves are made at a desk, and in whatever order: of the moves that come next only those
end the run that is on which stop the program, or give time to its loop when the program is complete
then, or close a playback that shows, or go on with a playback that cannot show the panels or whose
loop has ended, which belongs to an earlier run. -/
theorem run_goes_on {source memoryInit : String} {wordSize memorySize : Value} {s : Session}
    (h : Session.setUp source memoryInit wordSize memorySize = .ok s) (moves : List Move) :
    let d := makeAll { session := s } moves
    ∃ p, d.session.computer.programs = [p] ∧ (p.playing = true → d.RunsOn p) := by
  obtain ⟨w, n, p, hkept⟩ := Kept.setUp h
  let start : Desk := { session := s }
  have hsupplied : start.Supplied := fun _ hmem => nomatch hmem
  obtain ⟨q, hq⟩ := kept_makeAll (d := start) hkept moves
  exact ⟨q, hq.shows.overseen.programs, runsOn hq (supplied_makeAll hsupplied hkept moves)⟩

/-- How the runs stand: the mark of each program and whether it is complete, the run and the stage
of each loop, and the playbacks. -/
structure Standing where
  programs : List (Mark × Bool)
  loops : List (Nat × Stage)
  playbacks : List Playback
deriving DecidableEq, Repr

def standing (d : Desk) : Standing where
  programs := d.session.computer.programs.map fun p => (p.mark, p.isComplete)
  loops := d.session.computer.loops.map fun l => (l.run, l.stage)
  playbacks := d.playbacks

/-- A run is stopped, and the next play begins another one; then the loop of the first run is given
time, and ends. -/
def replaying : List Move :=
  [.play Program.defaultDelay, .stop, .play Program.defaultDelay, .runLoop 0]

/-- The second playback plays the third run, since a stop begins one as well. -/
theorem run_goes_on_replaying :
    ∃ s, Session.setUp "not" "" (.int 4) (.int 2) = .ok s ∧
      ∃ p, (makeAll { session := s } replaying).session.computer.programs = [p] ∧
        p.mark = ⟨false, true, 3⟩ ∧ (makeAll { session := s } replaying).RunsOn p := by
  obtain ⟨s, hset, hmarks⟩ := exists_of_toOption (o := Session.setUp "not" "" (.int 4) (.int 2))
    (f := fun s => (makeAll { session := s } replaying).session.computer.programs.map Program.mark)
    (b := [⟨false, true, 3⟩]) (by decide +kernel)
  obtain ⟨p, hprograms, hruns⟩ := run_goes_on hset replaying
  have hmark : p.mark = ⟨false, true, 3⟩ := by
    simp only [hprograms, List.map_cons, List.map_nil] at hmarks
    exact List.singleton_inj.mp hmarks
  exact ⟨s, hset, p, hprograms, hmark, hruns (congrArg Mark.playing hmark)⟩

/-- The playback of the run that was stopped goes on, finds that its loop has ended, and stops the
run that the second playback has begun. The program is not complete, and the loop of that run ends
when it is given time next. -/
theorem run_ended_by_earlier_playback :
    ∃ s, Session.setUp "not" "" (.int 4) (.int 2) = .ok s ∧
      (makeAll { session := s } replaying).standing =
        ⟨[(⟨false, true, 3⟩, false)], [(1, .ended), (3, .fresh)], [.showing 0, .showing 1]⟩ ∧
      (makeAll { session := s } (replaying ++ [.advance 0])).standing =
        ⟨[(⟨false, false, 4⟩, false)], [(1, .ended), (3, .fresh)], [.over, .showing 1]⟩ ∧
      (makeAll { session := s } (replaying ++ [.advance 0, .runLoop 1])).standing =
        ⟨[(⟨false, false, 4⟩, false)], [(1, .ended), (3, .ended)], [.over, .showing 1]⟩ := by
  obtain ⟨s, hset, hstanding⟩ := exists_of_toOption (o := Session.setUp "not" "" (.int 4) (.int 2))
    (f := fun s => [(makeAll { session := s } replaying).standing,
      (makeAll { session := s } (replaying ++ [.advance 0])).standing,
      (makeAll { session := s } (replaying ++ [.advance 0, .runLoop 1])).standing])
    (b := [⟨[(⟨false, true, 3⟩, false)], [(1, .ended), (3, .fresh)], [.showing 0, .showing 1]⟩,
      ⟨[(⟨false, false, 4⟩, false)], [(1, .ended), (3, .fresh)], [.over, .showing 1]⟩,
      ⟨[(⟨false, false, 4⟩, false)], [(1, .ended), (3, .ended)], [.over, .showing 1]⟩])
    (by decide +kernel)
  simp only [List.cons.injEq, and_true] at hstanding
  exact ⟨s, hset, hstanding⟩

end Accumulator.Workbench.Desk
