import Accumulator.Proofs.Assigning

/-! Two dialects of literals. The assembler reads a number by its tag if that is hexadecimal or
binary and nothing stands before it, and in decimal otherwise, with zeros in front or without. The
sides of an assignment may have a sign before any tag, and octal numbers, but no zeros in front of
a decimal. In ASCII without blanks the dialects differ in nothing else, and a text of both is the
same integer in both. -/

namespace Accumulator

namespace Number

open Text Assembler Assignment

/-- A number behind the tag of its base, which is sixteen, two or eight; one underscore may set the
digits off. -/
inductive Tagged (base n : Nat) : List Char → Prop
  | mk {tag : Char} {joint s : List Char}
      (announced : Tag base tag ∨ base = 8 ∧ (tag = 'o' ∨ tag = 'O'))
      (joined : joint = [] ∨ joint = ['_']) (digits : Grouped base n s) :
      Tagged base n ('0' :: tag :: (joint ++ s))

/-- A hexadecimal or binary number, which both dialects have. -/
def Coded (n : Int) (s : List Char) : Prop :=
  ∃ base m : Nat, base ≠ 8 ∧ Tagged base m s ∧ (m : Int) = n

/-- An octal number, or a number with a sign before the tag of its base. -/
inductive OctalOrSigned : Int → List Char → Prop
  | octal {n : Nat} {s : List Char} (number : Tagged 8 n s) : OctalOrSigned n s
  | positive {base n : Nat} {s : List Char} (number : Tagged base n s) :
      OctalOrSigned n ('+' :: s)
  | negative {base n : Nat} {s : List Char} (number : Tagged base n s) :
      OctalOrSigned (-n) ('-' :: s)

/-- A decimal with no more digits than can be read that begins with a zero, its sign aside, and is
not zero. -/
structure Padded (n : Int) (s : List Char) : Prop where
  decimal : Decimal n s
  leading : (magnitude s).head? = some '0'
  nonzero : n ≠ 0

/-- The ways to write a number without a sign that both dialects have: as it is printed in decimal,
and behind a tag in hexadecimal and in binary, with letters of either case. -/
inductive Spelled (n : Nat) : List Char → Prop
  | decimal : Spelled n (toString n).toList
  | hexadecimal {tag : Char} {s : List Char} (announced : tag = 'x' ∨ tag = 'X')
      (digits : Digits 16 n s) : Spelled n ('0' :: tag :: s)
  | binary {tag : Char} {s : List Char} (announced : tag = 'b' ∨ tag = 'B')
      (digits : Digits 2 n s) : Spelled n ('0' :: tag :: s)

variable {base n : Nat} {tag : Char} {s : List Char} {k : Int}

/-! ### Tags -/

theorem tagBase_eq_some :
    tagBase tag = some base ↔ Tag base tag ∨ base = 8 ∧ (tag = 'o' ∨ tag = 'O') := by
  constructor
  · intro h
    unfold tagBase at h
    split at h
    next letter =>
      obtain rfl := Option.some.inj h
      exact .inl (.hexadecimal letter)
    split at h
    next letter => exact .inr ⟨(Option.some.inj h).symm, letter⟩
    split at h
    next letter =>
      obtain rfl := Option.some.inj h
      exact .inl (.binary letter)
    next => cases h
  · rintro (announced | ⟨rfl, letter⟩)
    · cases announced with
      | hexadecimal letter | binary letter => rcases letter with rfl | rfl <;> rfl
    · rcases letter with rfl | rfl <;> rfl

theorem tagged_cons :
    Tagged base n ('0' :: tag :: s) ↔ tagBase tag = some base ∧ Grouped base n (afterTag s) := by
  rw [tagBase_eq_some, grouped_afterTag]
  constructor
  · intro h
    cases h with
    | mk announced joined digits => exact ⟨announced, _, _, rfl, joined, digits⟩
  · rintro ⟨announced, joint, t, rfl, joined, digits⟩
    exact .mk announced joined digits

theorem Tagged.exists_cons (h : Tagged base n s) :
    ∃ tag rest, s = '0' :: tag :: rest ∧ tagBase tag = some base := by
  cases h with
  | mk announced _ _ => exact ⟨_, _, rfl, tagBase_eq_some.mpr announced⟩

theorem Tagged.sign (h : Tagged base n s) : magnitude s = s ∧ signOf s = 1 := by
  obtain ⟨tag, rest, rfl, -⟩ := h.exists_cons
  exact ⟨rfl, rfl⟩

/-- The letter of a tag is no decimal digit. -/
theorem notDigit_of_tagBase (h : tagBase tag = some base) :
    base ≠ 10 ∧ (isDigitIn 10 tag || tag == '_') = false := by
  rcases tagBase_eq_some.mp h with announced | ⟨rfl, letter⟩
  · cases announced with
    | hexadecimal letter | binary letter => rcases letter with rfl | rfl <;> decide
  · rcases letter with rfl | rfl <;> decide

theorem not_grouped_of_tagBase (h : tagBase tag = some base) :
    ¬Grouped 10 n ('0' :: tag :: s) := by
  intro digits
  have digit := digits.isDigitIn tag (by simp)
  rw [(notDigit_of_tagBase h).2] at digit
  cases digit

theorem Tagged.not_grouped (h : Tagged base n s) {m : Nat} : ¬Grouped 10 m s := by
  obtain ⟨tag, rest, rfl, announced⟩ := h.exists_cons
  exact not_grouped_of_tagBase announced

/-! ### What each dialect accepts -/

theorem readDigits_ten :
    readDigits 10 s = .ok n ↔ Grouped 10 n s ∧ figures s ≤ maxDecimalDigits := by
  rw [readDigits_eq_ok, imp_iff_right rfl]

theorem readUnsignedTagged_eq_ok : readUnsignedTagged s = .ok n ↔
    (∃ base, Tagged base n s) ∨
      (Grouped 10 n s ∧ figures s ≤ maxDecimalDigits) ∧ (s.head? = some '0' → n = 0) := by
  rw [← readDigits_ten]
  unfold readUnsignedTagged
  split
  next tag rest =>
    simp only [tagged_cons]
    cases announced : tagBase tag with
    | some base =>
      have notTen := (notDigit_of_tagBase announced).1
      simp [not_grouped_of_tagBase announced, readDigits_eq_ok, notTen]
    | none =>
      cases readDigits 10 ('0' :: tag :: rest) with
      | error e => simp [bind, Except.bind]
      | ok m =>
        simp only [bind, Except.bind, Except.ok.injEq, reduceCtorEq, false_and, exists_false,
          List.head?_cons, false_or, true_imp_iff]
        split
        next zero =>
          rw [Except.ok.injEq]
          omega
        next other =>
          simp only [reduceCtorEq, false_iff]
          omega
  -- A zero with nothing behind it has no tag, and is no other number.
  next alone =>
    have untagged : ¬∃ base, Tagged base n s := by
      rintro ⟨base, number⟩
      obtain ⟨tag, rest, rfl, -⟩ := number.exists_cons
      exact alone tag rest rfl
    have single : readDigits 10 s = .ok n → s.head? = some '0' → n = 0 := by
      intro read leading
      obtain ⟨rest, rfl⟩ := List.head?_eq_some_iff.mp leading
      cases rest with
      | nil => exact (Except.ok.inj read).symm
      | cons tag rest => exact absurd rfl (alone tag rest)
    simp only [untagged, false_or]
    exact ⟨fun read => ⟨read, single read⟩, And.left⟩

theorem literal_iff : Literal k s ↔ Coded k s ∨ Decimal k s := by
  constructor
  · intro written
    cases written with
    | @tagged base m tag joint t announced joined digits =>
      have notEight : base ≠ 8 := by cases announced <;> decide
      exact .inl ⟨base, m, notEight, .mk (.inl announced) joined digits, rfl⟩
    | decimal written => exact .inr written
  · rintro (⟨base, m, notEight, number, rfl⟩ | written)
    · cases number with
      | mk announced joined digits =>
        have announced := announced.resolve_right fun octal => notEight octal.1
        exact .tagged announced joined digits
    · exact .decimal written

theorem tagged_magnitude_iff :
    (∃ base m : Nat, Tagged base m (magnitude s) ∧ signOf s * m = k) ↔
      Coded k s ∨ OctalOrSigned k s := by
  constructor
  · rintro ⟨base, m, number, rfl⟩
    rcases sign_cases s with ⟨t, rfl⟩ | ⟨t, rfl⟩ | ⟨eq, sign⟩
    · exact .inr ((neg_one_mul (m : Int)).symm ▸ .negative number)
    · exact .inr ((one_mul (m : Int)).symm ▸ .positive number)
    · rw [eq] at number
      rw [sign, one_mul]
      by_cases eight : base = 8
      · subst eight
        exact .inr (.octal number)
      · exact .inl ⟨base, m, eight, number, rfl⟩
  · rintro (⟨base, m, -, number, rfl⟩ | number)
    · obtain ⟨eq, sign⟩ := number.sign
      exact ⟨base, m, eq.symm ▸ number, by rw [sign, one_mul]⟩
    · cases number with
      | @octal m t number =>
        obtain ⟨eq, sign⟩ := number.sign
        exact ⟨8, m, eq.symm ▸ number, by rw [sign, one_mul]⟩
      | positive number => exact ⟨_, _, number, one_mul _⟩
      | negative number => exact ⟨_, _, number, neg_one_mul _⟩

theorem unpadded_iff : Decimal k s ∧ ¬Padded k s ↔
    ∃ m : Nat, ((Grouped 10 m (magnitude s) ∧ figures (magnitude s) ≤ maxDecimalDigits) ∧
      ((magnitude s).head? = some '0' → m = 0)) ∧ signOf s * m = k := by
  constructor
  · rintro ⟨decimal, unpadded⟩
    obtain ⟨m, digits, value⟩ := decimal_iff.mp decimal
    refine ⟨m, ⟨digits, fun leading => ?_⟩, value⟩
    by_contra nonzero
    -- Whatever the sign is, a number that is not zero stands for an integer that is not.
    have abs : k.natAbs = m := value ▸ natAbs_signOf s m
    exact unpadded ⟨decimal, leading, by omega⟩
  · rintro ⟨m, ⟨digits, unpadded⟩, rfl⟩
    refine ⟨decimal_iff.mpr ⟨m, digits, rfl⟩, fun padded => padded.nonzero ?_⟩
    rw [unpadded padded.leading]
    exact mul_zero _

/-- A text of ASCII without blanks is a number of an assignment just if it has a tag, with a sign
before it or without one, or is in decimal and not padded. -/
theorem integer_eq_ok (h : ∀ c ∈ s, Visible c) : integer s = .ok k ↔
    (Coded k s ∨ OctalOrSigned k s) ∨ Decimal k s ∧ ¬Padded k s := by
  rw [integer_iff_readTagged, readTagged, plainLiteral_visible h, readSigned_eq_ok,
    ← tagged_magnitude_iff, unpadded_iff]
  simp only [readUnsignedTagged_eq_ok]
  constructor
  · rintro ⟨m, ⟨base, number⟩ | decimal, value⟩
    · exact .inl ⟨base, m, number, value⟩
    · exact .inr ⟨m, decimal, value⟩
  · rintro (⟨base, m, number, value⟩ | ⟨m, decimal, value⟩)
    · exact ⟨m, .inl ⟨base, number⟩, value⟩
    · exact ⟨m, .inr decimal, value⟩

/-- A text of ASCII without blanks is a number of the assembler just if it is hexadecimal or binary
without a sign before the tag, or in decimal. -/
theorem immediate_iff (h : ∀ c ∈ s, Visible c) :
    immediate s = .ok k ↔ Coded k s ∨ Decimal k s := by
  rw [immediate_eq_ok h, literal_iff]

/-! ### What is not of both -/

variable {j : Int}

theorem not_grouped (h : Coded k s ∨ OctalOrSigned k s) : ¬Grouped 10 n (magnitude s) := by
  obtain ⟨base, m, number, -⟩ := tagged_magnitude_iff.mpr h
  exact number.not_grouped

theorem not_decimal (h : Coded k s ∨ OctalOrSigned k s) : ¬Decimal j s := by
  intro decimal
  obtain ⟨m, ⟨digits, -⟩, -⟩ := decimal_iff.mp decimal
  exact not_grouped h digits

theorem OctalOrSigned.not_coded (h : OctalOrSigned k s) : ¬Coded j s := by
  rintro ⟨base, m, notEight, number, -⟩
  obtain ⟨tag, rest, rfl, announced⟩ := number.exists_cons
  cases h with
  | octal octal =>
    obtain ⟨eight, -⟩ := tagged_cons.mp octal
    exact notEight (Option.some.inj (announced.symm.trans eight))

theorem OctalOrSigned.immediate_ne (h : OctalOrSigned k s) (visible : ∀ c ∈ s, Visible c) :
    immediate s ≠ .ok j := by
  intro read
  rcases (immediate_iff visible).mp read with coded | decimal
  · exact h.not_coded coded
  · exact not_decimal (.inr h) decimal

theorem Padded.integer_ne (h : Padded k s) (visible : ∀ c ∈ s, Visible c) :
    integer s ≠ .ok j := by
  intro read
  rcases (integer_eq_ok visible).mp read with tagged | ⟨decimal, unpadded⟩
  · exact not_decimal tagged h.decimal
  · -- The assembler reads a text as one integer at most, so that the two decimals are the same.
    have read := (immediate_iff visible).mpr (.inr h.decimal)
    have again := (immediate_iff visible).mpr (.inr decimal)
    obtain rfl : k = j := Except.ok.inj (read.symm.trans again)
    exact unpadded h

theorem Grouped.visible (h : Grouped base n s) : ∀ c ∈ s, Visible c :=
  fun c hc => (literalChar_spec (h.literalChar c hc)).1

/-- A decimal of more digits than can be read is of neither dialect. -/
theorem Grouped.refused (h : Grouped 10 n s) (long : maxDecimalDigits < figures s) :
    (∀ k, immediate s ≠ .ok k) ∧ ∀ k, integer s ≠ .ok k := by
  have visible := h.visible
  obtain ⟨unsigned, -⟩ := sign_none h.notSign
  have notDecimal {k : Int} : ¬Decimal k s := by
    intro decimal
    obtain ⟨m, ⟨-, short⟩, -⟩ := decimal_iff.mp decimal
    rw [unsigned] at short
    omega
  have notTagged {k : Int} : ¬(Coded k s ∨ OctalOrSigned k s) := fun tagged =>
    not_grouped tagged (unsigned.symm ▸ h)
  refine ⟨fun k read => ?_, fun k read => ?_⟩
  · rcases (immediate_iff visible).mp read with coded | decimal
    · exact notTagged (.inl coded)
    · exact notDecimal decimal
  · rcases (integer_eq_ok visible).mp read with tagged | ⟨decimal, -⟩
    · exact notTagged tagged
    · exact notDecimal decimal

theorem grouped_zeros {zeros : Nat} (h : 0 < zeros) :
    Grouped 10 0 (List.replicate zeros '0') := by
  induction zeros, h using Nat.le_induction with
  | base => exact .first rfl (by decide)
  | succ zeros _ ih =>
    have digit : digitValue '0' = some 0 := rfl
    rw [List.replicate_succ']
    exact ih.next digit (by decide)

theorem figures_zeros (zeros : Nat) (s : List Char) :
    figures (List.replicate zeros '0' ++ s) = zeros + figures s := by
  simp [figures, List.filter_append]

/-! ### Numbers of both -/

namespace Spelled

theorem numeral (h : Spelled n s) (hn : n < decimalBound) : Numeral n s := by
  cases h with
  | decimal => exact .of_toString hn
  | hexadecimal announced digits => exact .hexadecimal announced digits
  | binary announced digits => exact .binary announced digits

theorem not_padded (h : Spelled n s) : ¬Padded n s := by
  intro padded
  cases h with
  | decimal =>
    have text : (toString n).toList = Nat.toDigits 10 n := Nat.toList_repr
    have unsigned : ∀ c ∈ (Nat.toDigits 10 n).head?, c ≠ '-' ∧ c ≠ '+' :=
      fun c hc => (plain_toDigits (List.mem_of_mem_head? hc)).notSign
    have leading := padded.leading
    have nonzero := padded.nonzero
    rw [text, (sign_none unsigned).1] at leading
    exact head?_toDigits (by omega) '0' leading rfl
  | hexadecimal announced _ => exact Decimal.untagged (.hexadecimal announced) padded.decimal
  | binary announced _ => exact Decimal.untagged (.binary announced) padded.decimal

end Spelled

/-- In a text of ASCII without blanks that both dialects accept, both read the same integer. The
assembler alone accepts decimals with zeros in front, and assignments alone accept octal numbers and
signs before tags; of all other texts both accept one, or neither does. And a number that can be
written in decimal is read by both from its decimal, and from its hexadecimal and binary digits
behind a tag, with letters of either case. -/
theorem dialects_agree :
    (∀ t : List Char, (∀ c ∈ t, Visible c) →
      (∀ k j, immediate t = .ok k → integer t = .ok j → k = j) ∧
      (∀ k, (immediate t = .ok k ∧ ∀ j, integer t ≠ .ok j) ↔ Padded k t) ∧
      ∀ k, (integer t = .ok k ∧ ∀ j, immediate t ≠ .ok j) ↔ OctalOrSigned k t) ∧
    ∀ n < decimalBound, ∀ s, Spelled n s → immediate s = .ok n ∧ integer s = .ok n := by
  refine ⟨fun t visible => ?_, fun n hn s spelled => ?_⟩
  · have assembler {k : Int} := immediate_iff (k := k) visible
    have assignment {k : Int} := integer_eq_ok (k := k) visible
    refine ⟨fun k j read read' => ?_, fun k => ⟨?_, fun padded => ?_⟩,
      fun k => ⟨?_, fun number => ?_⟩⟩
    · rcases assignment.mp read' with (coded | number) | ⟨decimal, -⟩
      · exact Except.ok.inj (read.symm.trans (assembler.mpr (.inl coded)))
      · exact absurd read (number.immediate_ne visible)
      · exact Except.ok.inj (read.symm.trans (assembler.mpr (.inr decimal)))
    · rintro ⟨read, refused⟩
      rcases assembler.mp read with coded | decimal
      · exact absurd (assignment.mpr (.inl (.inl coded))) (refused k)
      · by_contra unpadded
        exact refused k (assignment.mpr (.inr ⟨decimal, unpadded⟩))
    · exact ⟨assembler.mpr (.inr padded.decimal), fun j => padded.integer_ne visible⟩
    · rintro ⟨read, refused⟩
      rcases assignment.mp read with (coded | number) | ⟨decimal, -⟩
      · exact absurd (assembler.mpr (.inl coded)) (refused k)
      · exact number
      · exact absurd (assembler.mpr (.inr decimal)) (refused k)
    · exact ⟨assignment.mpr (.inl (.inr number)), fun j => number.immediate_ne visible⟩
  · have numeral := spelled.numeral hn
    have visible : ∀ c ∈ s, Visible c := fun c hc => (numeral.plain c hc).visible
    have read := numeral.immediate_eq
    refine ⟨read, (integer_eq_ok visible).mpr ?_⟩
    rcases (immediate_iff visible).mp read with coded | decimal
    · exact .inl (.inl coded)
    · exact .inr ⟨decimal, spelled.not_padded⟩

/-- Minus seven with zeros in front, a hexadecimal number behind a minus sign, and two hundred and
fifty-five in letters of either case. -/
theorem dialects_agree_apart :
    (∀ c ∈ "-00_7".toList, Visible c) ∧ (∀ c ∈ "-0x1F".toList, Visible c) ∧
    (immediate "-00_7".toList = .ok (-7) ∧ ∀ j, integer "-00_7".toList ≠ .ok j) ∧
    (integer "-0x1F".toList = .ok (-31) ∧ ∀ j, immediate "-0x1F".toList ≠ .ok j) ∧
    255 < decimalBound ∧ Spelled 255 "0XfF".toList ∧
    immediate "0XfF".toList = .ok 255 ∧ integer "0XfF".toList = .ok 255 := by
  have first : ∀ c ∈ "-00_7".toList, Visible c := List.forall_iff_forall_mem.mp (by decide)
  have second : ∀ c ∈ "-0x1F".toList, Visible c := List.forall_iff_forall_mem.mp (by decide)
  have bound : 255 < decimalBound := by decide +kernel
  have seven : Grouped 10 ((0 * 10 + 0) * 10 + 7) (['0'] ++ ['0'] ++ ['_', '7']) :=
    .apart (.next (.first rfl (by decide)) rfl (by decide)) rfl (by decide)
  have padded : Padded (-7) "-00_7".toList := ⟨.negative seven (by decide), rfl, by decide⟩
  have digits : Grouped 16 (1 * 16 + 15) (['1'] ++ ['F']) :=
    .next (.first rfl (by decide)) rfl (by decide)
  have number : OctalOrSigned (-31) "-0x1F".toList :=
    .negative (.mk (.inl (.hexadecimal (.inl rfl))) (.inl rfl) digits)
  have spelled : Spelled 255 "0XfF".toList := .hexadecimal (.inr rfl) ⟨0, _, rfl, by decide⟩
  exact ⟨first, second, ((dialects_agree.1 _ first).2.1 _).mpr padded,
    ((dialects_agree.1 _ second).2.2 _).mpr number, bound, spelled,
    dialects_agree.2 255 bound _ spelled⟩

/-- With as many zeros in front as a decimal may have digits, one is of neither dialect. -/
theorem dialects_agree_overlong :
    let s := List.replicate maxDecimalDigits '0' ++ ['1']
    (∀ c ∈ s, Visible c) ∧ Grouped 10 1 s ∧ s.head? = some '0' ∧
      (∀ k, immediate s ≠ .ok k) ∧ ∀ k, integer s ≠ .ok k := by
  intro s
  have positive : 0 < maxDecimalDigits := by decide
  have one : digitValue '1' = some 1 := rfl
  have digits : Grouped 10 1 s := (grouped_zeros positive).next one (by decide)
  have leading : s.head? = some '0' := by simp [s, List.head?_replicate, positive.ne']
  have long : maxDecimalDigits < figures s := by
    rw [figures_zeros]
    exact Nat.lt_add_of_pos_right (by decide)
  exact ⟨digits.visible, digits, leading, digits.refused long⟩

end Number

end Accumulator
