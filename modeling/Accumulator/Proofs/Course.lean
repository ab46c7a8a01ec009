import Accumulator.Proofs.Passage
import Mathlib

/-! The moments of calls. A call begins and is over, and in between come the moments of the calls
that are made from inside it, however deep they nest. Between one moment and the next there are
single changes only, so that what these keep holds from then on at every moment, the inside of calls
not excepted. -/

namespace Accumulator

open Computer

/-- A moment in the course of calls: a call that may nest to a depth begins on a computer, or it is
over. -/
structure Moment where
  depth : Nat
  command : Command
  before : Computer
  done : Bool

namespace Moment

variable {m : Moment} {k : Nat}

/-- The computer that the call leaves. -/
def after (m : Moment) : Computer := ((Routine.performWithin m.depth m.command).on m.before).2

/-- The computer as it is at the moment. -/
def now (m : Moment) : Computer := if m.done then m.after else m.before

/-- A call is over that has stopped the program of the loop, which was playing. -/
structure Stops (m : Moment) (k : Nat) : Prop where
  done : m.done = true
  admitted : 0 < m.depth
  stop : ∃ l p, m.before.loops[k]? = some l ∧ m.before.programs[l.program]? = some p ∧
    p.playing = true ∧ m.command = .stop l.program

theorem Stops.stale (h : m.Stops k) (hw : m.before.Watched) (hdated : m.before.Dated) :
    m.now.Stale k := by
  obtain ⟨hdone, hdepth, l, p, hl, hp, hplaying, hcommand⟩ := h
  obtain ⟨depth, hdepth⟩ := Nat.exists_eq_succ_of_ne_zero hdepth.ne'
  rw [now, hdone, after, hdepth, hcommand]
  exact stop_stale hdated hw hl hp hplaying depth

end Moment

/-- What the computer that the call is made on comes to by it. -/
def Inner.after (i : Inner) (depth : Nat) : Computer :=
  ((Routine.performWithin depth i.command).on i.computer).2

/-- The moments of a call: it begins, then come those from inside it, and it is over. -/
def Inner.spell (i : Inner) (depth : Nat) (inside : List Moment) : List Moment :=
  ⟨depth, i.command, i.computer, false⟩ :: inside ++ [⟨depth, i.command, i.computer, true⟩]

/-- The moments from inside a call that may nest to a depth: those of the calls that it makes, one
after the other. There is nothing in between but single changes, and what the call comes to depends
on no other calls. -/
def Course : Nat → Inner → List Moment → Prop
  | 0, _, ms => ms = []
  | depth + 1, i, ms => ∃ (calls : List Inner) (inside : Inner → List Moment),
      Routine.Makes (Change fun _ => True) (fun _ => True)
        (fun call => Routine.perform call i.command) (Routine.performWithin depth) i.computer
        i.computer calls ∧
      (∀ j ∈ calls, Course depth j (inside j)) ∧
      ms = calls.flatMap fun j => j.spell depth (inside j)

/-- The computers that come of a machine at rest by building programs and making calls, with all
moments of these calls. -/
inductive History (w n : Nat) (t : Dispatch) (B : Conduct → Prop) : Computer → List Moment → Prop
  | idle (subscribers : List Subscriber) (bound : Nat) : (∀ s ∈ subscribers, B s.react) →
      History w n t B { Computer.idle (.zeros w n) t with subscribers, bound } []
  | build {c : Computer} {p : Program} {ms : List Moment} (entries delay : Value) :
      History w n t B c ms → Program.ofEntries c.machine.memory entries delay = .ok p →
      History w n t B (c.addProgram p) ms
  | call {c : Computer} {ms inside : List Moment} (command : Command) : History w n t B c ms →
      Course (c.bound + 1) ⟨command, c⟩ inside →
      History w n t B (c.perform command).2
        (ms ++ Inner.spell ⟨command, c⟩ (c.bound + 1) inside)

namespace Computer

/-- One computer comes of the other by single changes, and at the moments `ms` on the way, in this
order. -/
structure Stretch (c : Computer) (ms : List Moment) (d : Computer) : Prop where
  becomes : c.Becomes d
  begun : ∀ m ∈ ms, c.Becomes m.before
  since : ∀ m ∈ ms, c.Becomes m.now
  upto : ∀ m ∈ ms, m.now.Becomes d
  inOrder : ms.Pairwise fun x y => x.now.Becomes y.now

namespace Stretch

variable {c d e : Computer} {ms ns : List Moment}

theorem refl (c : Computer) : c.Stretch [] c :=
  ⟨.refl, List.forall_mem_nil _, List.forall_mem_nil _, List.forall_mem_nil _, .nil⟩

theorem change (hchange : c.Change (fun _ => True) d) (h : d.Stretch ms e) : c.Stretch ms e where
  becomes := .head hchange h.becomes
  begun m hm := .head hchange (h.begun m hm)
  since m hm := .head hchange (h.since m hm)
  upto := h.upto
  inOrder := h.inOrder

theorem append (h : c.Stretch ms d) (hd : d.Stretch ns e) : c.Stretch (ms ++ ns) e where
  becomes := h.becomes.trans hd.becomes
  begun := List.forall_mem_append.mpr ⟨h.begun, fun m hm => h.becomes.trans (hd.begun m hm)⟩
  since := List.forall_mem_append.mpr ⟨h.since, fun m hm => h.becomes.trans (hd.since m hm)⟩
  upto := List.forall_mem_append.mpr ⟨fun m hm => (h.upto m hm).trans hd.becomes, hd.upto⟩
  inOrder := List.pairwise_append.mpr
    ⟨h.inOrder, hd.inOrder, fun x hx y hy => (h.upto x hx).trans (hd.since y hy)⟩

/-- A call begins, and it is over at the end. -/
theorem spell {i : Inner} {depth : Nat} (h : i.computer.Stretch ms (i.after depth)) :
    i.computer.Stretch (i.spell depth ms) (i.after depth) := by
  have hall : ∀ {P : Moment → Prop}, P ⟨depth, i.command, i.computer, false⟩ → (∀ m ∈ ms, P m) →
      P ⟨depth, i.command, i.computer, true⟩ → ∀ m ∈ i.spell depth ms, P m :=
    fun hbegin hinside hdone => List.forall_mem_append.mpr
      ⟨List.forall_mem_cons.mpr ⟨hbegin, hinside⟩, List.forall_mem_singleton.mpr hdone⟩
  refine ⟨h.becomes, hall .refl h.begun .refl, hall .refl h.since h.becomes,
    hall h.becomes h.upto .refl, List.pairwise_append.mpr ⟨List.pairwise_cons.mpr ⟨h.since,
      h.inOrder⟩, List.pairwise_singleton _ _, fun x hx y hy => ?_⟩⟩
  obtain rfl := List.mem_singleton.mp hy
  rcases List.mem_cons.mp hx with rfl | hx
  · exact h.becomes
  · exact h.upto x hx

theorem of_passage {depth : Nat} {calls : List Inner} {inside : Inner → List Moment}
    (h : Passage (Change fun _ => True) (Routine.performWithin depth) c calls d)
    (hinside : ∀ i ∈ calls, i.computer.Stretch (inside i) (i.after depth)) :
    c.Stretch (calls.flatMap fun i => i.spell depth (inside i)) d := by
  induction h with
  | refl c => exact .refl c
  | change hchange _ ih => exact .change hchange (ih hinside)
  | call command _ ih =>
    obtain ⟨hfirst, hrest⟩ := List.forall_mem_cons.mp hinside
    exact (spell hfirst).append (ih hrest)

end Stretch

end Computer

variable {i : Inner} {depth : Nat} {ms : List Moment}

theorem Course.stretch (h : Course depth i ms) : i.computer.Stretch ms (i.after depth) := by
  induction depth generalizing i ms with
  | zero =>
    obtain rfl : ms = [] := h
    exact .refl i.computer
  | succ depth ih =>
    obtain ⟨calls, inside, hmakes, hinside, rfl⟩ := h
    exact .of_passage hmakes.passage fun j hj => ih (hinside j hj)

theorem Computer.Watched.voiced {c : Computer} (h : c.Watched) : c.Voiced fun _ => True :=
  ⟨h, fun _ _ _ _ => Reaction.calls_true _⟩

namespace History

variable {w n : Nat} {t : Dispatch} {B : Conduct → Prop} {c : Computer}

theorem reachable (h : History w n t B c ms) : c.Reachable w n t B := by
  induction h with
  | idle subscribers bound hB => exact .idle subscribers bound hB
  | build entries delay _ hp ih => exact .build entries delay ih hp
  | call command _ _ ih => exact .call command ih

/-- Each moment is one of a call that nobody makes from inside another one. -/
theorem within (h : History w n t B c ms) {m : Moment} (hm : m ∈ ms) :
    ∃ (c : Computer) (command : Command) (inside : List Moment), c.Reachable w n t B ∧
      c.Stretch inside (c.perform command).2 ∧ m ∈ inside := by
  induction h with
  | idle => exact absurd hm List.not_mem_nil
  | build _ _ _ _ ih => exact ih hm
  | call command hc hcourse ih =>
    rcases List.mem_append.mp hm with hold | hnew
    · exact ih hold
    · exact ⟨_, command, _, hc.reachable, hcourse.stretch.spell, hnew⟩

/-- What single changes keep, and the building of programs, lasts to the end. -/
theorem lasting {P : Computer → Prop} (h : History w n t B c ms)
    (hchange : ∀ {c d : Computer}, c.Change (fun _ => True) d → P c → P d)
    (hbuild : ∀ {c : Computer} (p : Program), P c → P (c.addProgram p)) :
    ∀ m ∈ ms, P m.now → P c := by
  induction h with
  | idle => exact List.forall_mem_nil _
  | build _ _ _ _ ih => exact fun m hm hP => hbuild _ (ih m hm hP)
  | call command _ hcourse ih =>
    have hstretch := hcourse.stretch.spell
    refine List.forall_mem_append.mpr ⟨fun m hm hP => ?_, fun m hm hP => ?_⟩
    · exact hstretch.becomes.keeps hchange (ih m hm hP)
    · exact (hstretch.upto m hm).keeps hchange hP

/-- Once it holds, it holds at each moment from then on. -/
theorem keeps {P : Computer → Prop} (h : History w n t B c ms)
    (hchange : ∀ {c d : Computer}, c.Change (fun _ => True) d → P c → P d)
    (hbuild : ∀ {c : Computer} (p : Program), P c → P (c.addProgram p)) :
    ms.Pairwise fun x y => P x.now → P y.now := by
  induction h with
  | idle => exact .nil
  | build _ _ _ _ ih => exact ih
  | call command hc hcourse ih =>
    have hstretch := hcourse.stretch.spell
    refine List.pairwise_append.mpr ⟨ih, hstretch.inOrder.imp fun h => h.keeps hchange, ?_⟩
    exact fun x hx y hy hP =>
      (hstretch.since y hy).keeps hchange (hc.lasting hchange hbuild x hx hP)

end History

end Accumulator
