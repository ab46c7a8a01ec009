import Accumulator.Proofs.Drawing
import Accumulator.Proofs.Showing

/-! The panels agree with one another. Whatever is done at a desk, and in whatever order: what the
panels show together is one state, that of the machine and of the program as they are then. The cell
in bold is the one that the address register selects, and shows what the data register shows; the
instruction that the listing marks as decoded is the one that the registers name. -/

namespace Accumulator.Workbench

open Computer Session Panel

/-- The panels show one state, that of the machine of a session and of its program `p`. -/
structure Agree (s : Session) (p : Program) (v : Views) : Prop where
  machineView : s.machineView = some s.computer.machine
  programView : s.programView = some p.view
  address : registerRow? " AR " v.registers = some [" AR ".toList, " ".toList,
    ' ' :: (toString s.computer.machine.registers.address).toList ++ [' ']]
  bold : ∀ k entry, (cellEntries v.memory)[k]? = some entry →
    (IsBold entry ↔ k = s.computer.machine.registers.address)
  selected : ∃ bits number,
    (cellEntries v.memory)[s.computer.machine.registers.address]? =
      some (" **".toList ++ bits ++ "** ".toList) ∧
    registerRow? " DR " v.registers =
      some [" DR ".toList, " `".toList ++ bits ++ "` ".toList, number]
  decoded : (∃ line ∈ lines v.program, hasArrow "=> " line = true) ↔
    ∃ instruction, cycleLine v.registers = (decodedLine instruction).toList
  named : ∀ line ∈ lines v.program, hasArrow "=> " line = true → ∃ instruction,
    cycleLine v.registers = (decodedLine instruction).toList ∧
      line = ("=> " ++ padded p.counter ++ "  " ++ instruction).toList
  marked : p.instructions ≠ [] → ((lines v.program).countP isMarked = 1 ↔
    ∀ line ∈ lines v.program, ¬ "(complete)".toList <:+: line)

section

variable {w n k : Nat} {m : Machine} {entry : List Char}

/-- The cell of an address has its entry in the table, at the place of the address. -/
theorem getElem?_cellEntries (hsize : 0 < m.memory.size) (selected : Option Int) {a : Nat}
    (ha : a < m.memory.size) :
    (cellEntries (m.memory.table selected))[a]? = some (entryOf m.memory selected a) := by
  have hwidth := gridWidth_pos hsize
  have hplaces := Nat.lt_mul_div_succ (m.memory.size - 1) hwidth
  rw [cellEntries_table m.memory _ hsize, List.getElem?_map, List.getElem?_range]
  · rfl
  · rw [show m.memory.size + gridWidth m.memory.size - 1 =
      m.memory.size - 1 + gridWidth m.memory.size by omega, Nat.add_div_right _ hwidth,
      Nat.mul_comm]
    omega

/-- Of the entries of the cells the selected one alone is in bold. -/
theorem isBold_iff (h : m.Sound w n .standard)
    (hentry : (cellEntries (m.memory.table (some m.registers.address)))[k]? = some entry) :
    IsBold entry ↔ k = m.registers.address := by
  have hselected := h.address_lt
  rw [cellEntries_table m.memory _ (Nat.zero_lt_of_lt hselected), List.getElem?_map] at hentry
  obtain ⟨a, ha, rfl⟩ := Option.map_eq_some_iff.mp hentry
  obtain ⟨-, rfl⟩ := List.getElem?_eq_some_iff.mp ha
  rw [List.getElem_range]
  cases hcell : m.memory.cells[k]? with
  | none =>
    have hpast : m.memory.size ≤ k := List.getElem?_eq_none_iff.mp hcell
    rw [entryOf_none hcell]
    refine iff_of_false (fun hbold => ?_) (by omega)
    have hstar : '*' ∈ [' ', ' '] := hbold.subset (by simp)
    simp at hstar
  | some content =>
    rw [isBold_entryOf hcell, Option.some.injEq, Int.ofNat_inj, eq_comm]

/-- The entry of the selected cell shows the bits of the data register. -/
theorem selected_entry (h : m.Sound w n .standard) :
    (cellEntries (m.memory.table (some m.registers.address)))[m.registers.address]? =
      some (" **".toList ++ (binary m.wordSize m.registers.data).toList ++ "** ".toList) := by
  have hselected := h.address_lt
  have hget := List.getElem?_eq_getElem (l := m.memory.cells) hselected
  have hcell : m.memory.cells[m.registers.address]? = some m.registers.data := by
    rw [h.data, Memory.cell, List.getD_eq_getElem?_getD, hget]
    rfl
  rw [getElem?_cellEntries (Nat.zero_lt_of_lt hselected) _ hselected, entryOf_cell hcell,
    if_pos rfl]
  rfl

end

section

variable {w n : Nat} {m : Machine} {p : Program} {line : List Char}

/-- The instruction that the listing marks as decoded is the one that the registers name. -/
theorem arrow_names (h : (p.progress m).Orderly w n) (hline : line ∈ lines p.view.listing)
    (harrow : hasArrow "=> " line = true) : ∃ instruction,
      cycleLine m.panel = (decodedLine instruction).toList ∧
        line = ("=> " ++ padded p.counter ++ "  " ++ instruction).toList := by
  obtain ⟨i, hi, rfl⟩ := mem_lines_listing hline (by rw [isMarked, harrow, Bool.true_or])
  rw [(hasArrow_listingLine _ _ _ _).1, decide_eq_true_iff] at harrow
  have hphase : p.phase = .decoded := harrow.2
  obtain ⟨held, hcurrent, hholds⟩ := h.consistent.held hphase
  obtain rfl : i = held := Option.some.inj (hi.symm.trans hcurrent)
  obtain ⟨hdecoded, hinstruction⟩ := Machine.holds_iff.mp hholds
  refine ⟨i.text, cycleLine_decoded hdecoded hinstruction, ?_⟩
  have hview : listingLine p.view.counter p.view.phase p.view.counter i =
      marker p.counter .decoded p.counter ++ padded p.counter ++ "  " ++ i.text := by
    rw [← hphase]
    rfl
  rw [hview, marker, if_pos rfl]

/-- The listing marks an instruction as decoded if the registers name one. -/
theorem arrow_iff (h : (p.progress m).Orderly w n) :
    (∃ line ∈ lines p.view.listing, hasArrow "=> " line = true) ↔
      ∃ instruction, cycleLine m.panel = (decodedLine instruction).toList := by
  constructor
  · rintro ⟨line, hline, harrow⟩
    obtain ⟨instruction, hcycle, -⟩ := arrow_names h hline harrow
    exact ⟨instruction, hcycle⟩
  · rintro ⟨instruction, hcycle⟩
    have hdecoded : m.isDecoded = true := by
      by_contra hidle
      exact cycleLine_idle (Bool.not_eq_true _ ▸ hidle) instruction hcycle
    have hphase : p.phase = .decoded := h.consistent.decoded.mpr hdecoded
    obtain ⟨i, hi, -⟩ := h.consistent.held hphase
    have hview : p.view.instructions[p.view.counter]? = some i := hi
    refine ⟨_, listingLine_mem hview, ?_⟩
    rw [(hasArrow_listingLine _ _ _ _).1]
    exact decide_eq_true ⟨rfl, hphase⟩

/-- One line of a program is marked until it is complete. -/
theorem marked_iff (hne : p.instructions ≠ []) : (lines p.view.listing).countP isMarked = 1 ↔
    ∀ line ∈ lines p.view.listing, ¬ "(complete)".toList <:+: line := by
  have hcomplete : p.view.complete = decide (p.instructions.length ≤ p.counter) := rfl
  have hlisted : p.view.instructions ≠ [] := hne
  rw [countP_isMarked hlisted, complete_line_iff hlisted, hcomplete, decide_eq_false_iff_not,
    not_le]
  show (if p.counter < p.instructions.length then 1 else 0) = 1 ↔ _
  simp

end

/-- What is drawn of a session that is kept agrees. -/
theorem agree_drawn {w n : Nat} {s : Session} {p : Program} (h : s.Kept w n p) (status : String) :
    Agree s p (drawn s.computer.machine p.view status) := by
  have horderly := h.tended.orderly h.program_zero
  have hmachine : s.computer.machine.Sound w n .standard := horderly.regular.machine
  have hselected := selected_entry hmachine
  have hdata := registerRow_data s.computer.machine
  exact
    { machineView := h.machineView
      programView := h.programView
      address := registerRow_address s.computer.machine
      bold := fun k entry => isBold_iff (k := k) (m := s.computer.machine) hmachine
      selected := ⟨_, _, hselected, hdata⟩
      decoded := arrow_iff horderly
      named := fun line => arrow_names horderly
      marked := marked_iff }

/-- A session that is loaded is set up, and its panels are shown. -/
theorem load_eq_ok {source memoryInit : String} {wordSize memorySize : Value} {v : Views}
    {s : Session} (h : Session.load source memoryInit wordSize memorySize = .ok (v, some s)) :
    Session.setUp source memoryInit wordSize memorySize = .ok s ∧ s.views "Loaded" = .ok v := by
  unfold Session.load at h
  split at h
  · rename_i s' hset
    obtain ⟨v', hviews, hpure⟩ := bind_eq_ok h
    cases hpure
    exact ⟨hset, hviews⟩
  · split at h <;> cases h

/-- Whatever program is loaded, and whatever is done with it then, in any order: the panels that are
shown agree, when it is loaded and after each move that shows them. -/
theorem panels_agree {source memoryInit : String} {wordSize memorySize : Value} {v : Views}
    {s : Session} (h : Session.load source memoryInit wordSize memorySize = .ok (v, some s)) :
    (∃ p, s.computer.programs = [p] ∧ Agree s p v) ∧
      ∀ moves move shown, ((Desk.makeAll { session := s } moves).make move).1 = some (.ok shown) →
        let after := ((Desk.makeAll { session := s } moves).make move).2.session
        ∃ p, after.computer.programs = [p] ∧ Agree after p shown := by
  obtain ⟨hset, hviews⟩ := load_eq_ok h
  obtain ⟨w, n, p, hkept⟩ := Kept.setUp hset
  constructor
  · refine ⟨p, hkept.shows.overseen.programs, ?_⟩
    rcases hkept.views_cases "Loaded" with hdrawn | hlong
    · obtain rfl := Except.ok.inj (hdrawn.symm.trans hviews)
      exact agree_drawn hkept "Loaded"
    · cases hlong.symm.trans hviews
  · intro moves move shown hshown
    obtain ⟨q, hq⟩ := Desk.kept_makeAll (d := { session := s }) hkept moves
    obtain ⟨p', hturns⟩ := Desk.turns hq move
    refine ⟨p', hturns.kept.shows.overseen.programs, ?_⟩
    rcases hturns.shown _ hshown with hdrawn | hlong
    · obtain rfl := Except.ok.inj hdrawn
      exact agree_drawn hturns.kept _
    · cases hlong

/-- The first step decodes, and the panels show cell 1 in bold and the instruction as decoded. -/
theorem panels_agree_decoded :
    ∃ v s, Session.load "load 1" "1=5" (.int 4) (.int 2) = .ok (v, some s) ∧
      ∃ shown, (Desk.make { session := s } .step).1 = some (.ok shown) ∧
        shown.memory = "| | 0 | 1 |\n|---|---|---|\n| **0** | `0000` | **0101** |" ∧
        shown.program = "=>   0  load(1)" ∧
        ∃ p, (Desk.make { session := s } .step).2.session.computer.programs = [p] ∧
          Agree (Desk.make { session := s } .step).2.session p shown := by
  obtain ⟨⟨v, loaded⟩, hload, hshown⟩ :=
    exists_of_toOption (o := Session.load "load 1" "1=5" (.int 4) (.int 2))
      (f := fun r => r.2.map fun s => (Desk.make { session := s } .step).1.map fun shown =>
        shown.toOption.map fun v => (v.memory, v.program))
      (b := some (some (some ("| | 0 | 1 |\n|---|---|---|\n| **0** | `0000` | **0101** |",
        "=>   0  load(1)")))) (by decide +kernel)
  simp only [Option.map_eq_some_iff] at hshown
  obtain ⟨s, rfl, outcome, houtcome, w, hw, hdrawn⟩ := hshown
  obtain ⟨hmemory, hprogram⟩ := Prod.mk.inj hdrawn
  cases outcome with
  | error fault => cases hw
  | ok shown =>
    obtain rfl := Option.some.inj hw
    have hagree := (panels_agree hload).2 [] .step shown houtcome
    exact ⟨v, s, hload, shown, houtcome, hmemory, hprogram, hagree⟩

end Accumulator.Workbench
