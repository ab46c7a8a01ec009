import Accumulator.Fault
import Mathlib.Data.List.Forall2

/-! Outcomes of calls made of calls: one after the other, one for each item of a list, and one for
each item with what the calls before it came to. The whole succeeds just if each part does, and a
refusal of the whole is the refusal of a part. -/

namespace Accumulator

/-- What can be written in a message is reported as it is. -/
theorem Fault.reported_of_writable {f : Fault} (h : f.isWritable = true) : f.reported = f :=
  if_pos h

variable {α β : Type}

/-- What is made of an outcome is refused as the outcome is. -/
theorem map_eq_error {e : Except Fault α} {g : α → β} {f : Fault} :
    e.map g = .error f ↔ e = .error f := by
  cases e with
  | error fault => simp [Except.map]
  | ok a => exact ⟨nofun, nofun⟩

theorem bind_eq_ok {first : Except Fault α} {next : α → Except Fault β} {b : β}
    (h : first >>= next = .ok b) : ∃ a, first = .ok a ∧ next a = .ok b := by
  cases first with
  | error fault => cases h
  | ok a => exact ⟨a, rfl, h⟩

theorem bind_eq_error {first : Except Fault α} {next : α → Except Fault β} {fault : Fault}
    (h : first >>= next = .error fault) :
    first = .error fault ∨ ∃ a, first = .ok a ∧ next a = .error fault := by
  cases first with
  | error fault' => exact .inl (congrArg Except.error (Except.error.inj h))
  | ok a => exact .inr ⟨a, rfl, h⟩

theorem exists_of_toOption {o : Except Fault α} {f : α → β} {b : β}
    (h : o.toOption.map f = some b) : ∃ a, o = .ok a ∧ f a = b := by
  cases o with
  | error fault => cases h
  | ok a => exact ⟨a, rfl, Option.some.inj h⟩

/-- A refusal is of a kind if that is found when the outcome is worked out. -/
theorem exists_of_kind {o : Except Fault α} {kind : Fault.Kind}
    (h : (match o with
      | .ok _ => false
      | .error fault => decide (fault.kind = kind)) = true) :
    ∃ fault, o = .error fault ∧ fault.kind = kind := by
  cases o with
  | ok a => cases h
  | error fault => exact ⟨fault, rfl, of_decide_eq_true h⟩

theorem forM_eq_ok {items : List α} {check : α → Except Fault PUnit} :
    items.forM check = .ok ⟨⟩ ↔ ∀ x ∈ items, check x = .ok ⟨⟩ := by
  induction items with
  | nil => simp [pure, Except.pure]
  | cons x items ih =>
    rw [List.forall_mem_cons, ← ih]
    change (check x >>= fun _ => items.forM check) = .ok ⟨⟩ ↔ _
    cases check x with
    | error fault => simp [bind, Except.bind]
    | ok u => simp [bind, Except.bind]

theorem forM_eq_error {items : List α} {check : α → Except Fault Unit} {fault : Fault}
    (h : items.forM check = .error fault) : ∃ x ∈ items, check x = .error fault := by
  induction items with
  | nil => cases h
  | cons x items ih =>
    rcases bind_eq_error h with first | ⟨_, -, rest⟩
    · exact ⟨x, List.mem_cons_self, first⟩
    · obtain ⟨x', hx', refused⟩ := ih rest
      exact ⟨x', List.mem_cons_of_mem x hx', refused⟩

theorem mapM_eq_ok {read : α → Except Fault β} {items : List α} {results : List β} :
    items.mapM read = .ok results ↔ List.Forall₂ (fun a b => read a = .ok b) items results := by
  induction items generalizing results with
  | nil => cases results <;> simp [pure, Except.pure]
  | cons a items ih =>
    rw [List.mapM_cons]
    constructor
    · intro h
      obtain ⟨b, first, h⟩ := bind_eq_ok h
      obtain ⟨bs, rest, h⟩ := bind_eq_ok h
      cases h
      exact .cons first (ih.mp rest)
    · rintro (_ | ⟨first, rest⟩)
      rw [first, ih.mpr rest]
      rfl

theorem mapM_eq_error {read : α → Except Fault β} {items : List α} {fault : Fault}
    (h : items.mapM read = .error fault) : ∃ a ∈ items, read a = .error fault := by
  induction items with
  | nil => cases h
  | cons a items ih =>
    rw [List.mapM_cons] at h
    rcases bind_eq_error h with first | ⟨b, -, h⟩
    · exact ⟨a, List.mem_cons_self, first⟩
    rcases bind_eq_error h with rest | ⟨bs, -, h⟩
    · obtain ⟨a', ha', refused⟩ := ih rest
      exact ⟨a', List.mem_cons_of_mem a ha', refused⟩
    · cases h

/-- What every step of a fold keeps holds of what the fold comes to. -/
theorem foldlM_keeps {P : β → Prop} {step : β → α → Except Fault β}
    (hstep : ∀ b a b', P b → step b a = .ok b' → P b') {items : List α} {b b' : β} (hb : P b)
    (h : items.foldlM step b = .ok b') : P b' := by
  induction items generalizing b with
  | nil =>
    cases h
    exact hb
  | cons a items ih =>
    rw [List.foldlM_cons] at h
    obtain ⟨next, hnext, h⟩ := bind_eq_ok h
    exact ih (hstep b a next hb hnext) h

end Accumulator
