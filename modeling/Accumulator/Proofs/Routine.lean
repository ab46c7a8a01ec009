import Accumulator.Computer

/-! How routines begin, and what they keep. A routine keeps a property of the computer if the
property holds after it whenever it holds before, whatever the outcome is; what is built from
routines that keep a property keeps it as well. -/

namespace Accumulator.Routine

variable {α β : Type}

theorem on_get_bind (next : Computer → Routine β) (c : Computer) :
    (get >>= next).on c = (next c).on c := rfl

theorem on_modify_bind (f : Computer → Computer) (next : PUnit → Routine β) (c : Computer) :
    (modify f >>= next).on c = (next ⟨⟩).on (f c) := rfl

theorem on_modifyMachine_bind (f : Machine → Machine) (next : Unit → Routine β) (c : Computer) :
    (modifyMachine f >>= next).on c = (next ()).on { c with machine := f c.machine } := rfl

theorem on_modifyProgram_bind (index : Nat) (f : Program → Program) (next : Unit → Routine β)
    (c : Computer) : (modifyProgram index f >>= next).on c =
      (next ()).on { c with programs := c.programs.modify index f } := rfl

theorem on_setStage_bind (index : Nat) (stage : Stage) (next : Unit → Routine β) (c : Computer) :
    (setStage index stage >>= next).on c = (next ()).on ((setStage index stage).on c).2 := rfl

theorem on_conclude_bind (outcome : Except Fault α) (next : α → Routine β) (c : Computer) :
    (conclude outcome >>= next).on c =
      match outcome with
      | .ok a => (next a).on c
      | .error fault => (.error fault, c) := by
  cases outcome <;> rfl

theorem on_program_bind (index : Nat) (next : Program → Routine β) (c : Computer) :
    (program index >>= next).on c =
      match c.programs[index]? with
      | some p => (next p).on c
      | none => (.error (.noProgram index), c) := by
  rw [program, bind_assoc, on_get_bind]
  cases c.programs[index]? <;> rfl

theorem on_bind_pure (f : α → β) (routine : Routine α) (c : Computer) :
    (routine >>= fun a => pure (f a)).on c = ((routine.on c).1.map f, (routine.on c).2) := by
  rw [on_bind]
  rcases routine.on c with ⟨_ | _, _⟩ <;> rfl

/-- The closing routine has the last word on the computer. -/
theorem on_ensuring_snd (routine : Routine α) (closing : Routine Unit) (c : Computer) :
    ((ensuring routine closing).on c).2 = (closing.on (routine.on c).2).2 := by
  rw [on_ensuring]
  rcases closing.on (routine.on c).2 with ⟨_ | _, _⟩ <;> rfl

/-- The property holds after the routine if it holds before, whether the routine answers or is
refused. -/
def Keeps (P : Computer → Prop) (routine : Routine α) : Prop :=
  ∀ c, P c → P (routine.on c).2

namespace Keeps

variable {P : Computer → Prop} {routine : Routine α}

theorem pure (a : α) : Keeps P (Pure.pure a) := fun _ hc => hc

theorem throw (fault : Fault) : Keeps P (MonadExcept.throw fault : Routine α) := fun _ hc => hc

theorem modify {f : Computer → Computer} (h : ∀ c, P c → P (f c)) :
    Keeps P (modify f : Routine PUnit) := h

theorem bind {next : α → Routine β} (h : Keeps P routine) (hn : ∀ a, Keeps P (next a)) :
    Keeps P (routine >>= next) := by
  intro c hc
  have hr := h c hc
  rw [on_bind]
  rcases hout : routine.on c with ⟨_ | a, d⟩
  · rwa [hout] at hr
  · rw [hout] at hr
    exact hn a d hr

/-- What follows a look at the computer may use that the property holds of what it sees. -/
theorem get_bind {next : Computer → Routine β} (h : ∀ c, P c → P ((next c).on c).2) :
    Keeps P (get >>= next) := h

theorem program_bind {index : Nat} {next : Program → Routine β}
    (h : ∀ c p, P c → c.programs[index]? = some p → P ((next p).on c).2) :
    Keeps P (program index >>= next) := by
  intro c hc
  rw [on_program_bind]
  split
  · rename_i p hp
    exact h c p hc hp
  · exact hc

theorem attempt (h : Keeps P routine) : Keeps P (Routine.attempt routine) := h

theorem conclude (outcome : Except Fault α) : Keeps P (Routine.conclude outcome) := by
  intro c hc
  rwa [on_conclude]

theorem ensuring {closing : Routine Unit} (h : Keeps P routine) (hc : Keeps P closing) :
    Keeps P (Routine.ensuring routine closing) :=
  bind (attempt h) fun outcome => bind hc fun _ => conclude outcome

theorem forM {items : List β} {action : β → Routine PUnit} (h : ∀ x ∈ items, Keeps P (action x)) :
    Keeps P (items.forM action) := by
  induction items with
  | nil => exact pure _
  | cons x items ih =>
    show Keeps P (action x >>= fun _ => items.forM action)
    exact bind (h x List.mem_cons_self) fun _ => ih fun y hy => h y (List.mem_cons_of_mem x hy)

end Keeps

end Accumulator.Routine
