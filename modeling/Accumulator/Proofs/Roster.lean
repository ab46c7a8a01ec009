import Accumulator.Computer

/-! The roster of a computer: its play loops, and what steps and runs have marked its programs
with. It decides which loops may step, and every other change passes it by. -/

namespace Accumulator

/-- The record is of a phase that a program has gone through. -/
def Record.isPhase : Record → Bool
  | .stepDecoded .. | .stepExecuted .. => true
  | _ => false

/-- Whether a program is in a step, whether it is playing, and the number of its run. -/
structure Mark where
  stepping : Bool
  playing : Bool
  run : Nat
deriving DecidableEq, Repr

def Program.mark (p : Program) : Mark := ⟨p.stepping, p.playing, p.run⟩

structure Roster where
  marks : List Mark
  loops : List PlayLoop

namespace Roster

def setMark (r : Roster) (index : Nat) (f : Mark → Mark) : Roster :=
  { r with marks := r.marks.modify index f }

def setStage (r : Roster) (k : Nat) (stage : Stage) : Roster :=
  { r with loops := r.loops.modify k fun l => { l with stage } }

def addLoop (r : Roster) (l : PlayLoop) : Roster := { r with loops := r.loops ++ [l] }

end Roster

namespace Computer

def roster (c : Computer) : Roster := ⟨c.programs.map Program.mark, c.loops⟩

/-- The number of phases that the programs have gone through. -/
def phases (c : Computer) : Nat := c.journal.countP Record.isPhase

/-- The change from `c` to `d` passes the roster by, and is not the record of a phase. -/
structure Beside (c d : Computer) : Prop where
  roster : d.roster = c.roster
  phases : d.phases = c.phases

theorem roster_marks_getElem? (c : Computer) (index : Nat) :
    c.roster.marks[index]? = c.programs[index]?.map Program.mark := List.getElem?_map

theorem roster_mark {c : Computer} {index : Nat} {p : Program} (hp : c.programs[index]? = some p) :
    c.roster.marks[index]? = some p.mark := by
  rw [roster_marks_getElem?, hp]
  rfl

/-- What a list holds at a place stays there when others come after it. -/
theorem getElem?_append_of_some {α : Type} {items added : List α} {n : Nat} {x : α}
    (h : items[n]? = some x) : (items ++ added)[n]? = some x := by
  rw [List.getElem?_append_left (List.getElem?_eq_some_iff.mp h).1, h]

theorem map_modify {α β : Type} {items : List α} {n : Nat} {f : α → α} {view : α → β} {g : β → β}
    (h : ∀ x, items[n]? = some x → view (f x) = g (view x)) :
    (items.modify n f).map view = (items.map view).modify n g := by
  apply List.ext_getElem?
  intro k
  rw [List.getElem?_map, List.getElem?_modify, List.getElem?_modify, List.getElem?_map]
  cases hx : items[k]? with
  | none => rfl
  | some x =>
    by_cases hk : n = k
    · subst hk
      simp [h x hx]
    · simp [hk]

theorem roster_modifyProgram {c : Computer} {index : Nat} {f : Program → Program} {g : Mark → Mark}
    (h : ∀ p, c.programs[index]? = some p → (f p).mark = g p.mark) :
    roster { c with programs := c.programs.modify index f } = c.roster.setMark index g :=
  congrArg (Roster.mk · c.loops) (map_modify h)

theorem Beside.modifyProgram {c : Computer} {index : Nat} {f : Program → Program}
    (h : ∀ p, c.programs[index]? = some p → (f p).mark = p.mark) :
    c.Beside { c with programs := c.programs.modify index f } := by
  refine ⟨?_, rfl⟩
  rw [roster_modifyProgram (g := id) h, Roster.setMark, List.modify_id]

theorem Beside.log {record : Record} (h : record.isPhase = false) (c : Computer) :
    c.Beside { c with journal := record :: c.journal } :=
  ⟨rfl, List.countP_cons_of_neg (by simp [h])⟩

end Computer

end Accumulator
